import PcapReplay.Lib.Interruption
import PcapReplay.Tools.Sessions

/-! Tools whose process is stopped somewhere on its way. -/

namespace PcapReplay
open Interaction Dma Prog
variable {n : ℕ} {π : Policy} {w w₁ w' : World} {disks : Disks}

/-- What may be on the disks when the process is gone: what its outstanding commands write may be anything. -/
def World.Leaves (w : World) (disks : Disks) : Prop :=
  ∀ k a, disks k a = w.disks k a ∨ ∃ f ∈ w.flights, f.xfer.Writes (.disk k) a

theorem World.Leaves.of_idle (h : w.Leaves disks) (hidle : w.flights = 0) : disks = w.disks := by
  funext k a
  rcases h k a with hsame | ⟨f, hf, _⟩
  · exact hsame
  · rw [hidle] at hf
    exact absurd hf (Multiset.notMem_zero f)

theorem World.Leaves.of_confined {own : Space → ℕ → Prop} {m₀ : Store Space UInt8} (h : w.Leaves disks)
    (hc : Bus.Confined own m₀ w.bus) {k a : ℕ} (hown : ¬ own (.disk k) a) : disks k a = m₀ (.disk k) a := by
  rcases h k a with hsame | ⟨f, hf, hw⟩
  · exact hsame.trans (hc.kept _ a hown)
  · exact absurd (hc.writes f hf _ a hw) hown

def Mem (s : Space) (_ : ℕ) : Prop := ∃ buf, s = .mem buf

theorem disks_of_cut {α : Type} {Q : α → Prop} {p : Nvme α} (hp : Ensures (Op.Within Mem) Q p)
    (hidle : w.flights = 0) (hcut : Cut (World.step π) p w w') (hleft : w'.Leaves disks) : disks = w.disks := by
  have hmem : ∀ buf a, Mem (.mem buf) a := fun buf _ => ⟨buf, rfl⟩
  have hconf := hp.cut (I := fun v => Bus.Confined Mem w.bus.store v.bus) hcut (Bus.confined_of_idle hidle)
    fun _ _ _ _ => World.step_confined hmem
  funext k a
  exact hleft.of_confined hconf (by simp [Mem])

theorem memcpy_mem (dst src : Ptr) (len : ℕ) : (Op.memcpy dst src len).Within Mem := fun _ _ h => ⟨_, h.1⟩

theorem sioReadPinit_mem (ns : ℕ) (old : MetaSector) :
    Ensures (Op.Within Mem) (fun _ => True) (sioReadPinit ns old) := by
  have hone : (Op.malloc sectorLength false).Within Mem := trivial
  refine (ensures_ask hone).bind fun buf _ => ?_
  cases buf with
  | none => exact ensures_pure trivial
  | some _ =>
    have htwo : (Op.readWait ns 0).Within Mem := trivial
    exact (ensures_ask htwo).bind fun _ _ => ensures_pure trivial

section reads
variable [NeZero n] {raid : NvmeRaid n}

theorem allows_mem : Allows (Op.Within Mem) (fun _ _ => True) .read raid where
  schedule := trivial
  process _ := trivial
  waiting := trivial
  malloc _ := trivial
  memcpy := memcpy_mem
  cmd _ _ _ _ _ := fun _ _ h => ⟨_, h.1⟩
  head _ _ := trivial
  tail _ _ := trivial

theorem copyOut_mem (rounds : ℕ) (name : Name) (map : Ptr) :
    Ensures (Op.Within Mem) (fun _ => True) (copyOut raid rounds name map) := by
  unfold copyOut
  cases findFile raid name with
  | none => exact ensures_pure trivial
  | some s =>
    have htransfer : Ensures (Op.Within Mem) (fun _ => True) (sioRreadPinit raid rounds map
        (raid.file s).startBlock ((raid.file s).endBlock - (raid.file s).startBlock).toUInt32) :=
      sioTransferPinit_ensures allows_mem rounds map _ _ trivial
    refine htransfer.bind fun r _ => ?_
    cases r with
    | none => exact ensures_pure trivial
    | some _ => exact ensures_pure trivial

theorem copyBlocks_none_mem (rounds : ℕ) (map : Ptr) (originSize : UInt64) :
    Ensures (Op.Within Mem) (fun _ => True) (copyBlocks raid rounds none map originSize) := by
  have hwhole : ∀ blocks, Ensures (Op.Within Mem) (fun _ => True) (copyWhole raid rounds none map blocks) := by
    intro blocks
    unfold copyWhole
    split_ifs
    · exact ensures_pure trivial
    · exact ensures_pure trivial
  unfold copyBlocks
  split_ifs
  · have hone : (Op.malloc sectorLength true).Within Mem := trivial
    refine (ensures_ask hone).bind fun padding _ => ?_
    cases padding with
    | none => exact ensures_pure trivial
    | some _ => exact (ensures_ask (memcpy_mem _ _ _)).bind fun _ _ => ensures_pure trivial
  · exact hwhole _

end reads
end PcapReplay
