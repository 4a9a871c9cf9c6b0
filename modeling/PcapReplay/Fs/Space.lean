import PcapReplay.Fs.Invariant
import Mathlib.Algebra.BigOperators.Group.Finset.Basic
import Mathlib.Algebra.Order.BigOperators.Group.Finset

/-! The free space that `blocksLeft` reports. -/

namespace PcapReplay
open Interaction
variable {n : ℕ}

def blocksLeft (raid : NvmeRaid n) : UInt64 :=
  raid.totalBlocks - (slots n).foldl
    -- every slot replaces what was found before it
    (fun _usedBlocks s => (raid.file s).endBlock - (raid.file s).startBlock) 0

def fileBlocks (raid : NvmeRaid n) (s : Slot n) : ℕ :=
  (raid.file s).endBlock.toNat - (raid.file s).startBlock.toNat

variable [NeZero n]

def lastSlot (n : ℕ) [NeZero n] : Slot n :=
  (⟨n - 1, Nat.sub_one_lt (NeZero.ne n)⟩, ⟨maxFiles - 1, by decide⟩)

theorem slots_eq_append (n : ℕ) [NeZero n] : ∃ before, slots n = before ++ [lastSlot n] := by
  obtain ⟨m, rfl⟩ := Nat.exists_eq_succ_of_ne_zero (NeZero.ne n)
  have hdisks : List.finRange (m + 1) = (List.finRange m).map Fin.castSucc ++ [Fin.last m] :=
    List.finRange_succ_last
  have hfiles : List.finRange maxFiles = (List.finRange 11).map Fin.castSucc ++ [Fin.last 11] :=
    List.finRange_succ_last
  unfold slots
  rw [hdisks, List.flatMap_append, List.flatMap_singleton, hfiles, List.map_append, ← List.append_assoc]
  exact ⟨_, rfl⟩

theorem blocksLeft_eq (raid : NvmeRaid n) :
    blocksLeft raid =
      raid.totalBlocks - ((raid.file (lastSlot n)).endBlock - (raid.file (lastSlot n)).startBlock) := by
  obtain ⟨before, hslots⟩ := slots_eq_append n
  rw [blocksLeft, hslots, List.foldl_append]
  rfl

theorem TableInv.blocks_le {raid : NvmeRaid n} (hi : TableInv raid) (s : Slot n) :
    fileBlocks raid s ≤ raid.totalBlocks.toNat := (Nat.sub_le _ _).trans (hi.endBlock_le s)

theorem TableInv.blocksLeft_add {raid : NvmeRaid n} (hi : TableInv raid) :
    (blocksLeft raid).toNat + fileBlocks raid (lastSlot n) = raid.totalBlocks.toNat := by
  have hlength : ((raid.file (lastSlot n)).endBlock - (raid.file (lastSlot n)).startBlock).toNat =
      fileBlocks raid (lastSlot n) :=
    UInt64.toNat_sub_of_le _ _ (UInt64.le_iff_toNat_le.mpr (hi.startBlock_le (lastSlot n)))
  have hle := hi.blocks_le (lastSlot n)
  rw [blocksLeft_eq, UInt64.toNat_sub_of_le _ _ (UInt64.le_iff_toNat_le.mpr (hlength.trans_le hle)),
    hlength, Nat.sub_add_cancel hle]

def LastOnly (raid : NvmeRaid n) : Prop := ∀ s, s ≠ lastSlot n → fileBlocks raid s = 0

structure SpaceExact (raid : NvmeRaid n) : Prop where
  exact : (blocksLeft raid).toNat + ∑ s, fileBlocks raid s = raid.totalBlocks.toNat
  right : rightFreeBlocks raid ≤ blocksLeft raid
  deleted : ∀ name raid', (delFile raid name).Returns (1, raid') →
    ∃ s, findFile raid name = some s ∧ (blocksLeft raid').toNat = (blocksLeft raid).toNat + fileBlocks raid s

theorem LastOnly.sum {raid : NvmeRaid n} (h : LastOnly raid) :
    ∑ s, fileBlocks raid s = fileBlocks raid (lastSlot n) :=
  Finset.sum_eq_single (lastSlot n) (fun s _ hs => h s hs) fun hnot => absurd (Finset.mem_univ _) hnot

theorem TableInv.exact_iff {raid : NvmeRaid n} (hi : TableInv raid) :
    (blocksLeft raid).toNat + ∑ s, fileBlocks raid s = raid.totalBlocks.toNat ↔ LastOnly raid := by
  have hleft := hi.blocksLeft_add
  constructor
  · intro hexact s hs
    have hpair : fileBlocks raid s + fileBlocks raid (lastSlot n) ≤ ∑ t, fileBlocks raid t := by
      rw [← Finset.sum_pair hs]
      exact Finset.sum_le_sum_of_subset (Finset.subset_univ _)
    omega
  · intro h
    rw [h.sum, hleft]

section steps
variable {raid raid' : NvmeRaid n} {name : Name} {blsize : UInt64}

theorem fileBlocks_tableDel (raid : NvmeRaid n) (s t : Slot n) :
    fileBlocks (tableDel raid s) t = if t = s then 0 else fileBlocks raid t := by
  unfold fileBlocks
  rw [file_tableDel]
  split_ifs <;> rfl

theorem LastOnly.del (h : LastOnly raid) (s : Slot n) : LastOnly (tableDel raid s) := by
  intro t ht
  rw [fileBlocks_tableDel, h t ht, ite_self]

theorem TableInv.fileBlocks_tableShrink_le (hi : TableInv raid) {s : Slot n} {o : UInt64}
    (ho : o ≤ fileSize (raid.file s)) (t : Slot n) :
    fileBlocks (tableShrink raid s o) t ≤ fileBlocks raid t := by
  unfold fileBlocks
  rw [file_tableShrink]
  split_ifs with hts
  · subst hts
    have hle := originBlocks_le (hi.startBlock_le t) ho
    have hlt := (raid.file t).endBlock.toNat_lt
    show ((raid.file t).startBlock + originBlocks o).toNat - (raid.file t).startBlock.toNat ≤ _
    rw [toNat_add_of_lt (by omega)]
    omega
  · exact le_rfl

theorem LastOnly.shrink (h : LastOnly raid) (hi : TableInv raid) {s : Slot n} {o : UInt64}
    (ho : o ≤ fileSize (raid.file s)) : LastOnly (tableShrink raid s o) := by
  intro t ht
  exact Nat.le_zero.mp ((hi.fileBlocks_tableShrink_le ho t).trans (h t ht).le)

theorem LastOnly.spaceExact (h : LastOnly raid) (hn : n ≤ maxDisks)
    (ht : n * 256 ≤ raid.totalBlocks.toNat) (hi : TableInv raid) : SpaceExact raid := by
  have hleft := hi.blocksLeft_add
  refine ⟨hi.exact_iff.mpr h, ?_, fun name raid' hdel => ?_⟩
  · have hright := hi.rightFreeBlock_le hn ht
    have hend := endBlock_le_rightFreeBlock raid (lastSlot n)
    have hblocks : fileBlocks raid (lastSlot n) ≤ (raid.file (lastSlot n)).endBlock.toNat := Nat.sub_le _ _
    rw [UInt64.le_iff_toNat_le, rightFreeBlocks,
      UInt64.toNat_sub_of_le _ _ (UInt64.le_iff_toNat_le.mpr hright)]
    omega
  · rcases delFile_cases hdel with ⟨hret, _⟩ | ⟨s, _, rfl, hname, hs⟩
    · exact absurd hret (by decide)
    · have hleft' := (hi.del hname hs).blocksLeft_add
      have htotal : (tableDel raid s).totalBlocks = raid.totalBlocks := rfl
      rw [fileBlocks_tableDel, htotal] at hleft'
      refine ⟨s, hs, ?_⟩
      by_cases hlast : lastSlot n = s
      · subst hlast
        rw [if_pos rfl] at hleft'
        omega
      · have hzero := h s (Ne.symm hlast)
        rw [if_neg hlast] at hleft'
        omega

variable (hn : n ≤ maxDisks) (ht : n * 256 ≤ raid.totalBlocks.toNat)
include hn ht

theorem TableInv.fileBlocks_tableAdd (hi : TableInv raid) (hb : blsize ≤ rightFreeBlocks raid)
    (s t : Slot n) :
    fileBlocks (tableAdd raid s name blsize) t = if t = s then blsize.toNat else fileBlocks raid t := by
  unfold fileBlocks
  rw [file_tableAdd]
  split_ifs
  · have hend := hi.endBlock_add hn ht hb
    show (rightFreeBlock raid + blsize).toNat - (rightFreeBlock raid).toNat = blsize.toNat
    rw [hend, Nat.add_sub_cancel_left]
  · rfl

theorem LastOnly.add (h : LastOnly raid) (hi : TableInv raid) {s : Slot n}
    (hb : blsize ≤ rightFreeBlocks raid) (hlast : blsize = 0 ∨ s = lastSlot n) :
    LastOnly (tableAdd raid s name blsize) := by
  intro t hne
  rw [hi.fileBlocks_tableAdd hn ht hb, h t hne]
  split_ifs with hts
  · rcases hlast with rfl | hs
    · rfl
    · exact absurd (hts.trans hs) hne
  · rfl

theorem TableInv.lowers_iff (hi : TableInv raid) {s : Slot n} (ha : Admits raid name blsize)
    (hs : freeSlot raid = some s) :
    (blocksLeft (tableAdd raid s name blsize)).toNat + blsize.toNat = (blocksLeft raid).toNat ↔
      blsize = 0 ∨ s = lastSlot n := by
  have hleft := hi.blocksLeft_add
  have hleft' := (hi.add hn ht ha hs).blocksLeft_add
  have htotal : (tableAdd raid s name blsize).totalBlocks = raid.totalBlocks := rfl
  rw [hi.fileBlocks_tableAdd hn ht ha.space, htotal] at hleft'
  have hzero : blsize = 0 ↔ blsize.toNat = 0 := UInt64.toNat_inj.symm
  by_cases hlast : lastSlot n = s
  · -- the slot was free, and had no blocks
    have hfree := hi.free s (freeSlot_dead hs)
    have hempty : fileBlocks raid s = 0 := by
      unfold fileBlocks
      rw [hfree.1, hfree.2, Nat.sub_self]
    rw [if_pos hlast] at hleft'
    rw [hlast, hempty] at hleft
    exact iff_of_true (by omega) (Or.inr hlast.symm)
  · rw [if_neg hlast] at hleft'
    have hne : s ≠ lastSlot n := Ne.symm hlast
    simp only [hzero, hne, or_false]
    omega

end steps

def GoesLast (raid : NvmeRaid n) (name : Name) (blsize : UInt64) : Prop :=
  Admits raid name blsize → blsize = 0 ∨ freeSlot raid = some (lastSlot n)

inductive LastSlotStep : NvmeRaid n → NvmeRaid n → Prop
  | add {raid raid' : NvmeRaid n} {name : Name} {blsize : UInt64} {ret : Option (Slot n)}
      (h : (addFile raid name blsize).Returns (ret, raid')) (hlast : GoesLast raid name blsize) :
      LastSlotStep raid raid'
  | del {raid raid' : NvmeRaid n} {name : Name} {ret : UInt8}
      (h : (delFile raid name).Returns (ret, raid')) : LastSlotStep raid raid'
  | copy {raid raid' : NvmeRaid n} {name : Name} {originSize : UInt64} {fpcap : Bool} {t : Target n}
      (h : (copyTarget raid name originSize fpcap).Returns (t, raid'))
      (hlast : GoesLast raid name (originBlocks originSize)) : LastSlotStep raid raid'

def LastSlotRun (raid₀ raid : NvmeRaid n) : Prop :=
  ∃ raid₁, (formatRaid raid₀).Returns raid₁ ∧ Relation.ReflTransGen LastSlotStep raid₁ raid

section runs
variable {raid₀ raid raid' : NvmeRaid n}

theorem LastSlotStep.tableStep (h : LastSlotStep raid raid') : TableStep raid raid' := by
  cases h with
  | add h _ => exact .add h
  | del h => exact .del h
  | copy h _ => exact .copy h

theorem LastSlotRun.reachable (h : LastSlotRun raid₀ raid) : Reachable raid₀ raid := by
  obtain ⟨raid₁, h₁, hrun⟩ := h
  exact ⟨raid₁, h₁, Relation.ReflTransGen.mono (fun _ _ => LastSlotStep.tableStep) _ _ hrun⟩

variable (hn : n ≤ maxDisks)
include hn

theorem LastSlotStep.lastOnly (ht : n * 256 ≤ raid.totalBlocks.toNat) (hi : TableInv raid)
    (hl : LastOnly raid) (h : LastSlotStep raid raid') : LastOnly raid' := by
  have hadd : ∀ {name : Name} {blsize : UInt64} {ret : Option (Slot n)},
      (addFile raid name blsize).Returns (ret, raid') → GoesLast raid name blsize → LastOnly raid' := by
    intro name blsize ret h hlast
    rcases addFile_cases h with ⟨_, rfl, _⟩ | ⟨s, _, rfl, ha, hs⟩
    · exact hl
    · refine hl.add hn ht hi ha.space ((hlast ha).imp id fun hfree => ?_)
      exact Option.some.inj (hs.symm.trans hfree)
  cases h with
  | add h hlast => exact hadd h hlast
  | del h =>
    rcases delFile_cases h with ⟨_, rfl, _⟩ | ⟨s, _, rfl, _, _⟩
    · exact hl
    · exact hl.del s
  | copy h hlast =>
    rcases copyTarget_cases h with ⟨_, rfl⟩ | ⟨s, _, rfl, _, ho⟩ | ⟨r, _, h⟩
    · exact hl
    · exact hl.shrink hi ho
    · exact hadd h hlast

variable (ht : n * superSectorNum ≤ raid₀.totalBlocks.toNat) (h0 : raid₀.numFiles = 0)
include ht h0

theorem LastSlotRun.lastOnly (h : LastSlotRun raid₀ raid) : LastOnly raid := by
  obtain ⟨raid₁, h₁, hrun⟩ := h
  induction hrun with
  | refl =>
    intro s _
    rw [formatRaid_returns.mp h₁]
    rfl
  | tail hrun hstep ih =>
    have hr := LastSlotRun.reachable ⟨raid₁, h₁, hrun⟩
    exact hstep.lastOnly hn (by rwa [hr.totalBlocks]) (hr.inv hn ht h0) ih

/-- In runs whose files with blocks go to the last slot the free space is exact, and the next new
file keeps it so exactly if it has no blocks or goes there too. -/
theorem spaceExact_of_lastSlotRun (h : LastSlotRun raid₀ raid) :
    SpaceExact raid ∧ ∀ name blsize s raid', (addFile raid name blsize).Returns (some s, raid') →
      (SpaceExact raid' ∧ (blocksLeft raid').toNat + blsize.toNat = (blocksLeft raid).toNat ↔
        blsize = 0 ∨ s = lastSlot n) := by
  have hi := h.reachable.inv hn ht h0
  have ht' : n * 256 ≤ raid.totalBlocks.toNat := by rwa [h.reachable.totalBlocks]
  have hl := h.lastOnly hn ht h0
  refine ⟨hl.spaceExact hn ht' hi, fun name blsize s raid' hadd => ?_⟩
  obtain ⟨rfl, ha, hs⟩ := addFile_some hadd
  have hlowers := hi.lowers_iff hn ht' ha hs
  constructor
  · exact fun hafter => hlowers.mp hafter.2
  · intro hlast
    exact ⟨(hl.add hn ht' hi ha.space hlast).spaceExact hn ht' (hi.add hn ht' ha hs), hlowers.mpr hlast⟩

end runs

def emptyFiles : ℕ → NvmeRaid 1
  | 0 => formatted (attached fun _ => 1024)
  | k + 1 => (emptyFiles k).plus (fun _ => UInt8.ofNat (65 + k)) 0

theorem emptyFiles_run (k : ℕ) :
    Relation.ReflTransGen LastSlotStep (formatted (attached fun _ : Fin 1 => 1024)) (emptyFiles k) := by
  induction k with
  | zero => exact .refl
  | succ k ih =>
    obtain ⟨ret, hadd⟩ := (emptyFiles k).plus_returns (fun _ => UInt8.ofNat (65 + k)) 0
    exact ih.tail (.add hadd fun _ => Or.inl rfl)

theorem lastFile_run {k : ℕ} (hlast : freeSlot (emptyFiles k) = some (lastSlot 1)) :
    LastSlotRun (attached fun _ : Fin 1 => 1024) ((emptyFiles k).plus (fun _ => 90) 3) := by
  obtain ⟨ret, hadd⟩ := (emptyFiles k).plus_returns (fun _ => 90) 3
  exact ⟨_, formatRaid_returns.mpr rfl, (emptyFiles_run k).tail (.add hadd fun _ => Or.inr hlast)⟩

theorem spaceExact_of_lastSlotRun_last_file :
    SpaceExact ((emptyFiles 11).plus (fun _ => 90) 3) ∧
      blocksLeft ((emptyFiles 11).plus (fun _ => 90) 3) = 1021 :=
  ⟨(spaceExact_of_lastSlotRun (by decide) (by decide) rfl (lastFile_run (by decide +kernel))).1, by decide +kernel⟩

theorem oneFileRaid_blocks_unseen :
    Reachable (attached fun _ : Fin 1 => 1024) (oneFileRaid 1 3) ∧
      blocksLeft (oneFileRaid 1 3) = 1024 ∧ ¬ SpaceExact (oneFileRaid 1 3) := by
  have hreach := oneFileRaid_reachable 1 3
  refine ⟨hreach, by decide +kernel, fun h => ?_⟩
  have hi := hreach.inv (by decide) (by decide) rfl
  have hzero := hi.exact_iff.mp h.exact (0, 0) (by decide)
  exact absurd hzero (by decide +kernel)

end PcapReplay
