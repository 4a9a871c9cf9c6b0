import PcapReplay.Fs.Addressing
import PcapReplay.Fs.Invariant
import Mathlib.Algebra.Group.Action.Defs
import Mathlib.Algebra.Order.BigOperators.Group.Finset

/-! The space check of `addFile` against the space that the drives have. -/

namespace PcapReplay
open Interaction Striping
variable {n : ℕ}

def diskEnd (size : Fin n → UInt64) (d : Fin n) : ℕ :=
  block 256 n d ((size d).toNat - 256)

def Fits (size : Fin n → UInt64) (e : ℕ) : Prop := ∀ d, e ≤ diskEnd size d

instance (size : Fin n → UInt64) (e : ℕ) : Decidable (Fits size e) :=
  inferInstanceAs (Decidable (∀ _, _))

theorem Fits.mono {size : Fin n → UInt64} {e e' : ℕ} (h : Fits size e') (he : e ≤ e') :
    Fits size e := fun d => he.trans (h d)

theorem fits_reserved {size : Fin n → UInt64} (hsize : ∀ d, 2 * superSectorNum ≤ (size d).toNat) :
    Fits size (n * 256) := by
  intro d
  have hd := hsize d
  have hle : 1 * n + d ≤ ((size d).toNat - 256) / 256 * n + d := by
    apply Nat.add_le_add_right
    apply Nat.mul_le_mul_right
    simp only [superSectorNum_eq] at hd
    omega
  calc n * 256 ≤ (1 * n + d) * 256 := Nat.mul_le_mul_right 256 (by omega)
    _ ≤ (((size d).toNat - 256) / 256 * n + d) * 256 := Nat.mul_le_mul_right 256 hle
    _ ≤ diskEnd size d := Nat.le_add_right _ _

variable [NeZero n]

def Inside (size : Fin n → UInt64) (b : UInt64) : Prop :=
  superGetdisklba n b < size (superGetdisk n b)

def Physical (size : Fin n → UInt64) (raid : NvmeRaid n) : Prop :=
  ∀ s, raid.Live s → ∀ b : UInt64, raid.Owns s b.toNat → Inside size b

section blocks
variable {size : Fin n → UInt64} (hsize : ∀ d, 2 * superSectorNum ≤ (size d).toNat)
include hsize

theorem Fits.inside {b : UInt64} (h : Fits size (b.toNat + 1)) : Inside size b := by
  have hd := h (superGetdisk n b)
  have hs := hsize (superGetdisk n b)
  have hlt := (size (superGetdisk n b)).toNat_lt
  have hoff : offset 256 n b.toNat < (size (superGetdisk n b)).toNat - 256 := by
    rw [diskEnd, superGetdisk_val] at hd
    exact (lt_block_iff (by decide) (Nat.pos_of_neZero n) _ _).mp hd
  rw [Inside, UInt64.lt_iff_toNat_lt, superGetdisklba_toNat, Nat.mod_eq_of_lt (by omega)]
  omega

theorem not_inside_diskEnd {d : Fin n} {b : UInt64} (hb : b.toNat = diskEnd size d) :
    ¬ Inside size b := by
  have hs := hsize d
  have hlt := (size d).toNat_lt
  have hdisk : superGetdisk n b = d := by
    apply Fin.ext
    rw [superGetdisk_val, hb, diskEnd, member_block (by decide) d.isLt]
  have hoff : offset 256 n b.toNat = (size d).toNat - 256 := by
    rw [hb, diskEnd, offset_block (by decide) d.isLt]
  simp only [superSectorNum_eq] at hs
  rw [Inside, hdisk, UInt64.lt_iff_toNat_lt, superGetdisklba_toNat, hoff, Nat.mod_eq_of_lt (by omega)]
  omega

theorem inside_iff_fits {a e : UInt64} (ha : Fits size a.toNat) :
    (∀ b : UInt64, a.toNat ≤ b.toNat → b.toNat < e.toNat → Inside size b) ↔ Fits size e.toNat := by
  constructor
  · intro h d
    by_contra hd
    have hlt := e.toNat_lt
    have hb : (UInt64.ofNat (diskEnd size d)).toNat = diskEnd size d := by
      apply UInt64.toNat_ofNat_of_lt'
      simp only [UInt64.size]
      omega
    have hin := h (UInt64.ofNat (diskEnd size d)) (by rw [hb]; exact ha d) (by rw [hb]; omega)
    exact not_inside_diskEnd hsize hb hin
  · intro h b _ hb
    exact Fits.inside hsize (h.mono hb)

end blocks

inductive FittingStep (size : Fin n → UInt64) : NvmeRaid n → NvmeRaid n → Prop
  | add {raid raid' : NvmeRaid n} {name : Name} {blsize : UInt64} {ret : Option (Slot n)}
      (h : (addFile raid name blsize).Returns (ret, raid'))
      (hfit : Admits raid name blsize → Fits size ((rightFreeBlock raid).toNat + blsize.toNat)) :
      FittingStep size raid raid'
  | del {raid raid' : NvmeRaid n} {name : Name} {ret : UInt8}
      (h : (delFile raid name).Returns (ret, raid')) : FittingStep size raid raid'
  | copy {raid raid' : NvmeRaid n} {name : Name} {originSize : UInt64} {fpcap : Bool} {t : Target n}
      (h : (copyTarget raid name originSize fpcap).Returns (t, raid'))
      (hfit : Admits raid name (originBlocks originSize) →
        Fits size ((rightFreeBlock raid).toNat + (originBlocks originSize).toNat)) :
      FittingStep size raid raid'

def FittingRun (size : Fin n → UInt64) (raid : NvmeRaid n) : Prop :=
  ∃ raid₁, (formatRaid (attached size)).Returns raid₁ ∧
    Relation.ReflTransGen (FittingStep size) raid₁ raid

section runs
variable {size : Fin n → UInt64} {raid raid' : NvmeRaid n}

theorem FittingStep.tableStep (h : FittingStep size raid raid') : TableStep raid raid' := by
  cases h with
  | add h _ => exact .add h
  | del h => exact .del h
  | copy h _ => exact .copy h

theorem FittingRun.reachable (h : FittingRun size raid) : Reachable (attached size) raid := by
  obtain ⟨raid₁, h₁, hrun⟩ := h
  exact ⟨raid₁, h₁, Relation.ReflTransGen.mono (fun _ _ => FittingStep.tableStep) _ _ hrun⟩

variable (hn : n ≤ maxDisks) (ht : n * 256 ≤ raid.totalBlocks.toNat)
include hn ht

theorem FittingStep.fits (hi : TableInv raid) (h : FittingStep size raid raid')
    (hf : ∀ s, Fits size (raid.file s).endBlock.toNat) (s : Slot n) :
    Fits size (raid'.file s).endBlock.toNat := by
  have hadd : ∀ {name : Name} {blsize : UInt64} {ret : Option (Slot n)},
      (addFile raid name blsize).Returns (ret, raid') →
      (Admits raid name blsize → Fits size ((rightFreeBlock raid).toNat + blsize.toNat)) →
      Fits size (raid'.file s).endBlock.toNat := by
    intro name blsize ret h hfit
    rcases addFile_cases h with ⟨_, rfl, _⟩ | ⟨t, _, rfl, ha, _⟩
    · exact hf s
    · rw [file_tableAdd]
      split_ifs
      · show Fits size (rightFreeBlock raid + blsize).toNat
        rw [hi.endBlock_add hn ht ha.space]
        exact hfit ha
      · exact hf s
  have hzero : ∀ d : Fin n, (0 : UInt64).toNat ≤ diskEnd size d := fun d => Nat.zero_le _
  cases h with
  | add h hfit => exact hadd h hfit
  | del h =>
    rcases delFile_cases h with ⟨_, rfl, _⟩ | ⟨t, _, rfl, _, _⟩
    · exact hf s
    · rw [file_tableDel]
      split_ifs
      · exact hzero
      · exact hf s
  | copy h hfit =>
    rcases copyTarget_cases h with ⟨_, rfl⟩ | ⟨t, _, rfl, _, ho⟩ | ⟨r, _, h⟩
    · exact hf s
    · rw [file_tableShrink]
      split_ifs with hst
      · have hle := originBlocks_le (hi.startBlock_le t) ho
        have hlt := (raid.file t).endBlock.toNat_lt
        show Fits size ((raid.file t).startBlock + originBlocks _).toNat
        rw [toNat_add_of_lt (by omega)]
        exact (hf t).mono hle
      · exact hf s
    · exact hadd h hfit

omit ht in
theorem FittingRun.spec (ht : n * 256 ≤ (attached size).totalBlocks.toNat)
    (h : FittingRun size raid) :
    TableInv raid ∧ raid.totalBlocks = (attached size).totalBlocks ∧
      ∀ s, Fits size (raid.file s).endBlock.toNat := by
  have hinv : ∀ {r}, Reachable (attached size) r → TableInv r := fun hr => hr.inv hn ht rfl
  refine ⟨hinv h.reachable, h.reachable.totalBlocks, ?_⟩
  obtain ⟨raid₁, h₁, hrun⟩ := h
  induction hrun with
  | refl =>
    intro s
    rw [formatRaid_returns.mp h₁]
    exact fun d => Nat.zero_le _
  | tail hrun hstep ih =>
    have hr := FittingRun.reachable ⟨raid₁, h₁, hrun⟩
    exact hstep.fits hn (by rwa [hr.totalBlocks]) (hinv hr) ih

end runs

/-- In a run of files that fit, all files lie inside the drives, and the next file that `addFile`
accepts does so exactly if it fits too. -/
theorem fittingRun_physical {size : Fin n → UInt64} {raid : NvmeRaid n} (hn : n ≤ maxDisks)
    (htotal : (attached size).totalBlocks.toNat = ∑ d, (size d).toNat)
    (hsize : ∀ d, 2 * superSectorNum ≤ (size d).toNat) (h : FittingRun size raid) :
    Physical size raid ∧
      ∀ name blsize s raid', (addFile raid name blsize).Returns (some s, raid') →
        ((∀ b : UInt64, raid'.Owns s b.toNat → Inside size b) ↔
          Fits size ((rightFreeBlock raid).toNat + blsize.toNat)) := by
  have ht : n * 256 ≤ (attached size).totalBlocks.toNat := by
    have hsum := Finset.card_nsmul_le_sum Finset.univ (fun d => (size d).toNat) _ fun d _ => hsize d
    rw [Finset.card_univ, Fintype.card_fin, smul_eq_mul, superSectorNum_eq] at hsum
    rw [htotal]
    exact le_trans (Nat.mul_le_mul_left n (by decide)) hsum
  obtain ⟨hi, hblocks, hfits⟩ := h.spec hn ht
  refine ⟨fun s _ b hb => ?_, fun name blsize s raid' hadd => ?_⟩
  · exact Fits.inside hsize ((hfits s).mono hb.2)
  · obtain ⟨rfl, ha, _⟩ := addFile_some hadd
    have hstart : Fits size (rightFreeBlock raid).toNat := fun d =>
      rightFreeBlock_le hn (fits_reserved hsize d) fun s => hfits s d
    have hend := hi.endBlock_add hn (by rwa [hblocks]) ha.space
    rw [← hend, ← inside_iff_fits hsize hstart]
    simp only [NvmeRaid.Owns, file_tableAdd_self, and_imp]

theorem fittingRun_physical_oneFileRaid : Physical (fun _ => 1024) (oneFileRaid 1 3) := by
  obtain ⟨ret, h⟩ := oneFileRaid_added 1 3
  have hrun : FittingRun (fun _ => 1024) (oneFileRaid 1 3) :=
    ⟨_, formatRaid_returns.mpr rfl, .single (.add h fun _ => by decide +kernel)⟩
  exact (fittingRun_physical (by decide) (by decide +kernel) (by decide) hrun).1

/-- The last 256 of the 768 blocks that a fresh disk of 1024 sectors gives out are not on it. -/
theorem oneFileRaid_past_the_end :
    ¬ ∀ raid, Reachable (attached fun _ : Fin 1 => 1024) raid → Physical (fun _ => 1024) raid := by
  intro h
  have hlive : (oneFileRaid 1 768).Live (0, 0) := by decide +kernel
  have howns : (oneFileRaid 1 768).Owns (0, 0) (1023 : UInt64).toNat := by
    constructor <;> decide +kernel
  have hin := h _ (oneFileRaid_reachable 1 768) (0, 0) hlive 1023 howns
  exact absurd hin (by unfold Inside; decide +kernel)

end PcapReplay
