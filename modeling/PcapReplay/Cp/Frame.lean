import PcapReplay.Cp.RoundTrip
import PcapReplay.Sio.Extent

/-! What a copy or a removal leaves alone: the other files, and the metadata but for `updateRaid`. -/

namespace PcapReplay
open Interaction Dma Prog
variable {n : ℕ} {raid : NvmeRaid n} {π : Policy} {w w₁ w' : World}

def Op.Updates (raid : NvmeRaid n) : Op → Prop
  | .malloc _ _ => True
  | .writeWait ns lba data => lba = 0 ∧ ∃ i, ns = raid.ns i ∧ data = (raid.msector i).toBytes
  | _ => False

structure OnlyTable (raid : NvmeRaid n) (m : Store Space UInt8) (w : World) : Prop where
  idle : w.flights = 0
  table : ∀ ns, (∀ a < sectorLength, w.bus.store (.disk ns) a = m (.disk ns) a) ∨
    ∃ i, ns = raid.ns i ∧ ∀ a < sectorLength, w.bus.store (.disk ns) a = (raid.msector i).toBytes a
  data : ∀ ns a, sectorLength ≤ a → w.bus.store (.disk ns) a = m (.disk ns) a

theorem OnlyTable.start (raid : NvmeRaid n) (hidle : w.flights = 0) : OnlyTable raid w.bus.store w :=
  ⟨hidle, fun _ => Or.inl fun _ _ => rfl, fun _ _ _ => rfl⟩

theorem OnlyTable.step {m : Store Space UInt8} {o : Op} {r : Ans o} (ho : o.Updates raid)
    (h : World.step π o w r w') (hw : OnlyTable raid m w) : OnlyTable raid m w' := by
  obtain ⟨b, hdrift, h⟩ := h
  obtain rfl := hdrift.evolves.of_idle hw.idle
  cases o with
  | malloc len zero =>
    rcases h with ⟨_, m', hm, _, rfl⟩ | ⟨_, _, rfl⟩
    · have hdisk : ∀ ns a, m' (.disk ns) a = w.bus.store (.disk ns) a := fun ns a => hm _ a (by simp)
      refine ⟨hw.idle, fun ns => ?_, fun ns a ha => (hdisk ns a).trans (hw.data ns a ha)⟩
      rcases hw.table ns with hold | ⟨i, hi, hnew⟩
      · exact Or.inl fun a ha => (hdisk ns a).trans (hold a ha)
      · exact Or.inr ⟨i, hi, fun a ha => (hdisk ns a).trans (hnew a ha)⟩
    · exact hw
  | writeWait ns lba data =>
    obtain ⟨rfl, i, rfl, rfl⟩ := ho
    rcases h with ⟨_, rfl⟩ | ⟨_, _, rfl⟩
    · refine ⟨hw.idle, fun ns => ?_, fun ns a ha => ?_⟩
      · by_cases hns : ns = raid.ns i
        · refine Or.inr ⟨i, hns, fun a ha => ?_⟩
          show World.writeSector _ _ _ _ _ _ = _
          rw [World.writeSector, if_pos (by simpa [hns] using ha)]
          simp
        · have hkept : ∀ a, World.writeSector w.bus.store (raid.ns i) 0 (raid.msector i).toBytes
              (.disk ns) a = w.bus.store (.disk ns) a :=
            fun a => if_neg fun hc => hns (Space.disk.inj hc.1)
          rcases hw.table ns with hold | ⟨j, hj, hnew⟩
          · exact Or.inl fun a ha => (hkept a).trans (hold a ha)
          · exact Or.inr ⟨j, hj, fun a ha => (hkept a).trans (hnew a ha)⟩
      · rw [← hw.data ns a ha]
        refine if_neg fun hc => ?_
        have hlt := hc.2.2
        simp at hlt ha
        omega
    · exact hw
  | _ => exact absurd ho id

theorem collect_ensures {α : Type} {P : Op → Prop} {k : ℕ} {f : Fin k → Nvme α}
    (h : ∀ i, Ensures P (fun _ => True) (f i)) : Ensures P (fun _ => True) (collect f) := by
  induction k with
  | zero => exact ensures_pure trivial
  | succ k ih =>
    refine (h 0).bind fun a _ => ?_
    exact (ih fun i => h i.succ).bind fun g _ => ensures_pure trivial

theorem updateRaid_ensures (raid : NvmeRaid n) :
    Ensures (Op.Updates raid) (fun _ => True) (updateRaid raid) := by
  refine (collect_ensures fun i => ?_).bind fun _ _ => ensures_pure trivial
  have hone : (Op.malloc sectorLength false).Updates raid := trivial
  refine (ensures_ask hone).bind fun buf _ => ?_
  cases buf with
  | none => exact ensures_pure trivial
  | some _ => exact (ensures_ask ⟨rfl, i, rfl, rfl⟩).mono (fun _ => id) fun _ _ => trivial

variable [NeZero n]

section data
variable {rounds : ℕ} {s : Slot n} {map : Ptr} {blocks originSize : UInt64} {start count : ℕ}

theorem copyWhole_ensures (hlt : start + count < 2 ^ 64) (hstart : start ≤ (raid.file s).startBlock.toNat)
    (hend : (raid.file s).startBlock.toNat + blocks.toNat ≤ start + count) :
    Ensures (Op.Within (DataCells raid start count)) (fun _ => True)
      (copyWhole raid rounds (some s) map blocks) := by
  have hcount := toNat_toUInt32_le blocks
  unfold copyWhole
  split_ifs
  · refine (sioTransferPinit_ensures (allows_within .write hlt) rounds map _ _ ⟨hstart, by omega⟩).bind fun r _ => ?_
    cases r with
    | none => exact ensures_pure trivial
    | some _ => exact ensures_pure trivial
  · exact ensures_pure trivial

theorem copyBlocks_ensures
    (hlt : (raid.file s).startBlock.toNat + (originBlocks originSize).toNat < 2 ^ 64) :
    Ensures (Op.Within (DataCells raid (raid.file s).startBlock.toNat (originBlocks originSize).toNat))
      (fun _ => True) (copyBlocks raid rounds (some s) map originSize) := by
  unfold copyBlocks
  split_ifs with hmod
  · obtain ⟨hblocks, _⟩ := originBlocks_sub_one hmod
    have hzmalloc : (Op.malloc sectorLength true).Within
      (DataCells raid (raid.file s).startBlock.toNat (originBlocks originSize).toNat) := trivial
    have hb : ((raid.file s).startBlock + (originBlocks originSize - 1)).toNat =
        (raid.file s).startBlock.toNat + (originBlocks originSize - 1).toNat := toNat_add_of_lt (by omega)
    refine (ensures_ask hzmalloc).bind fun res _ => ?_
    cases res with
    | none => exact ensures_pure trivial
    | some p =>
      refine (ensures_ask (memcpy_within _ _ _)).bind fun _ _ => ?_
      refine (sioTransfer_ensures (allows_within .write hlt) ⟨p, 0⟩ _ 1 ?_).bind fun _ _ => ?_
      · rw [hb, UInt32.toNat_one]
        exact ⟨by omega, by omega⟩
      · exact copyWhole_ensures hlt le_rfl (by omega)
  · exact copyWhole_ensures hlt le_rfl le_rfl

end data

end PcapReplay
