import PcapReplay.Tools.Contents

/-! What `ls` prints. -/

namespace PcapReplay
open Interaction
variable {n : ℕ}

theorem sum_extents_le {ι : Type*} [DecidableEq ι] {S : Finset ι} {a b : ι → ℕ} {lo hi : ℕ}
    (hlo : ∀ i ∈ S, lo ≤ a i) (hhi : ∀ i ∈ S, b i ≤ hi)
    (hdisjoint : ∀ i ∈ S, ∀ j ∈ S, i ≠ j → ∀ c, a i ≤ c → c < b i → ¬ (a j ≤ c ∧ c < b j)) :
    ∑ i ∈ S, (b i - a i) ≤ hi - lo := by
  have hapart : ∀ i ∈ S, ∀ j ∈ S, i ≠ j → Disjoint (Finset.Ico (a i) (b i)) (Finset.Ico (a j) (b j)) := by
    intro i hi j hj hij
    rw [Finset.disjoint_left]
    intro c hc hc'
    rw [Finset.mem_Ico] at hc hc'
    exact hdisjoint i hi j hj hij c hc.1 hc.2 hc'
  have hsubset : (S.biUnion fun i => Finset.Ico (a i) (b i)) ⊆ Finset.Ico lo hi := by
    intro c hc
    obtain ⟨i, hi, hmem⟩ := Finset.mem_biUnion.mp hc
    rw [Finset.mem_Ico] at hmem ⊢
    exact ⟨(hlo i hi).trans hmem.1, hmem.2.trans_le (hhi i hi)⟩
  calc ∑ i ∈ S, (b i - a i) = ∑ i ∈ S, (Finset.Ico (a i) (b i)).card := by simp only [Nat.card_Ico]
    _ = (S.biUnion fun i => Finset.Ico (a i) (b i)).card := (Finset.card_biUnion hapart).symm
    _ ≤ (Finset.Ico lo hi).card := Finset.card_le_card hsubset
    _ = hi - lo := Nat.card_Ico lo hi

theorem nodup_slots (n : ℕ) : (slots n).Nodup :=
  (List.nodup_finRange n).product (List.nodup_finRange maxFiles)

def slotId (s : Slot n) : ℕ := maxFiles * s.1 + s.2

theorem zipIdx_disk (i : Fin n) (k : ℕ) : ((List.finRange maxFiles).map fun j => (i, j)).zipIdx k =
    ((List.finRange maxFiles).map fun j => (i, j)).map fun s => (s, k + s.2) := rfl

theorem zipIdx_disks (l : List (Fin n)) (a : ℕ) (hl : l.map Fin.val = List.range' a l.length) :
    (l.flatMap fun i => (List.finRange maxFiles).map fun j => (i, j)).zipIdx (maxFiles * a) =
      (l.flatMap fun i => (List.finRange maxFiles).map fun j => (i, j)).map fun s => (s, slotId s) := by
  induction l generalizing a with
  | nil => rfl
  | cons i l ih =>
    rw [List.map_cons, List.length_cons, List.range'_succ, List.cons.injEq] at hl
    obtain ⟨rfl, htail⟩ := hl
    rw [List.flatMap_cons, List.zipIdx_append, List.map_append, List.length_map, List.length_finRange,
      ← Nat.mul_succ, ih _ htail, zipIdx_disk]
    rfl

theorem zipIdx_slots (n : ℕ) : (slots n).zipIdx = (slots n).map fun s => (s, slotId s) := by
  have h := zipIdx_disks (List.finRange n) 0 (by simp [List.range_eq_range'])
  rwa [Nat.mul_zero] at h

theorem slotId_pairwise (n : ℕ) : (slots n).Pairwise fun s t => slotId s < slotId t := by
  have hids : (slots n).map slotId = List.range (slots n).length := by
    have h := congrArg (List.map Prod.snd) (zipIdx_slots n)
    rw [List.zipIdx_map_snd, List.map_map] at h
    rw [List.range_eq_range', h]
    rfl
  have hlt : ((slots n).map slotId).Pairwise (· < ·) := by
    rw [hids]
    exact List.pairwise_lt_range
  exact List.pairwise_map.mp hlt

def liveSlots (raid : NvmeRaid n) : List (Slot n) := (slots n).filter fun s => raid.Live s

def lsLine (raid : NvmeRaid n) (s : Slot n) : LsLine where
  id := slotId s
  name := (raid.msector s.1).fromName s.2
  sectors := (raid.file s).endBlock - (raid.file s).startBlock

section lines
variable {raid : NvmeRaid n}

theorem printed_lsLine (raid : NvmeRaid n) (s : Slot n) (behind : List UInt8) :
    ((lsLine raid s).printed behind).take nameLength = (raid.file s).name.str := by
  rw [LsLine.printed, ← cString_take]
  exact congrArg cString ((raid.msector s.1).take_fromName s.2 behind)

theorem mem_liveSlots {s : Slot n} : s ∈ liveSlots raid ↔ raid.Live s := by
  simp [liveSlots]

theorem nodup_liveSlots (raid : NvmeRaid n) : (liveSlots raid).Nodup := (nodup_slots n).filter _

theorem toFinset_liveSlots (raid : NvmeRaid n) : (liveSlots raid).toFinset = raid.live := by
  ext s
  rw [List.mem_toFinset, mem_liveSlots, NvmeRaid.mem_live]

theorem length_liveSlots (raid : NvmeRaid n) : (liveSlots raid).length = raid.live.card := by
  rw [← toFinset_liveSlots, List.toFinset_card_of_nodup (nodup_liveSlots raid)]

theorem lsRun_eq (raid : NvmeRaid n) : lsRun raid =
    if raid.numFiles = 0 then none
    else
      some
        { lines := (liveSlots raid).map (lsLine raid)
          showing := raid.numFiles
          used := raid.totalBlocks - rightFreeBlocks raid
          total := raid.totalBlocks } := by
  have hlines : (((slots n).zipIdx.filter fun s => (raid.file s.1).name 0 ≠ 0).map fun s =>
      (⟨s.2, (raid.msector s.1.1).fromName s.1.2, (raid.file s.1).endBlock - (raid.file s.1).startBlock⟩ :
        LsLine)) =
      (liveSlots raid).map (lsLine raid) := by
    rw [zipIdx_slots, List.filter_map, List.map_map]
    rfl
  unfold lsRun
  rw [hlines]

end lines

variable [NeZero n] {raid : NvmeRaid n}

structure Listed (raid : NvmeRaid n) (l : Listing) : Prop where
  ids : (l.lines.map LsLine.id).Pairwise (· < ·)
  lines : ∀ line, line ∈ l.lines ↔ ∃ s, raid.Live s ∧ line = lsLine raid s
  -- a name that fills its field has no NUL, and the line runs on behind it
  found : ∀ line ∈ l.lines, ∃ s, findFile raid (raid.file s).name = some s ∧ line = lsLine raid s ∧
    ∀ behind, (raid.file s).name.str <+: line.printed behind ∧
      ((raid.file s).name.str.length < nameLength → line.printed behind = (raid.file s).name.str)
  showing : l.showing = l.lines.length
  -- the blocks of the files are among the used ones, behind the tables
  used : n * superSectorNum + (l.lines.map fun line => line.sectors.toNat).sum ≤ l.used.toNat
  total : l.used.toNat ≤ l.total.toNat ∧ l.total = raid.totalBlocks

section inv
variable (hi : TableInv raid)
include hi

theorem TableInv.numFiles_eq_zero : raid.numFiles = 0 ↔ ∀ s, ¬ raid.Live s := by
  rw [hi.num, Nat.cast_eq_zero, Finset.card_eq_zero, Finset.eq_empty_iff_forall_notMem]
  simp only [NvmeRaid.mem_live]

theorem TableInv.sum_lines (hn : n ≤ maxDisks) :
    n * 256 + ((liveSlots raid).map fun s => (lsLine raid s).sectors.toNat).sum ≤
      (rightFreeBlock raid).toNat := by
  have hle := reserved_le_rightFreeBlock hn raid
  have hsum : ∑ s ∈ raid.live, ((raid.file s).endBlock.toNat - (raid.file s).startBlock.toNat) ≤
      (rightFreeBlock raid).toNat - n * 256 := by
    apply sum_extents_le
    · intro s hs
      exact (hi.bounds s ((raid.mem_live s).mp hs)).1
    · exact fun s _ => endBlock_le_rightFreeBlock raid s
    · intro s hs t ht hst c hc hc' hct
      exact hi.disjoint s t ((raid.mem_live s).mp hs) ((raid.mem_live t).mp ht) hst c ⟨hc, hc'⟩ hct
  have hlist : ((liveSlots raid).map fun s => (lsLine raid s).sectors.toNat).sum =
      ∑ s ∈ raid.live, ((raid.file s).endBlock.toNat - (raid.file s).startBlock.toNat) := by
    rw [← toFinset_liveSlots, List.sum_toFinset _ (nodup_liveSlots raid)]
    simp only [lsLine, hi.sound.length_toNat, fileBlocks]
  rw [hlist]
  exact (Nat.add_le_add_left hsum _).trans_eq (Nat.add_sub_cancel' hle)

theorem TableInv.listed (hn : n ≤ maxDisks) (ht : n * 256 ≤ raid.totalBlocks.toNat) {l : Listing}
    (h : lsRun raid = some l) : Listed raid l := by
  rw [lsRun_eq] at h
  split_ifs at h
  obtain rfl := Option.some.inj h
  have hfree := hi.rightFreeBlock_le hn ht
  have hused : (raid.totalBlocks - rightFreeBlocks raid).toNat = (rightFreeBlock raid).toNat := by
    have hle : rightFreeBlock raid ≤ raid.totalBlocks := UInt64.le_iff_toNat_le.mpr hfree
    have hleft : (rightFreeBlocks raid).toNat = raid.totalBlocks.toNat - (rightFreeBlock raid).toNat :=
      UInt64.toNat_sub_of_le _ _ hle
    rw [UInt64.toNat_sub_of_le _ _ (UInt64.le_iff_toNat_le.mpr (by omega)), hleft]
    omega
  have hmem : ∀ line, line ∈ (liveSlots raid).map (lsLine raid) ↔ ∃ s, raid.Live s ∧ line = lsLine raid s := by
    intro line
    simp only [List.mem_map, mem_liveSlots, eq_comm]
  refine ⟨?_, hmem, fun line hline => ?_, ?_, ?_, ⟨by rw [hused]; exact hfree, rfl⟩⟩
  · rw [List.map_map]
    exact List.pairwise_map.mpr ((slotId_pairwise n).filter _)
  · obtain ⟨s, hlive, rfl⟩ := (hmem line).mp hline
    refine ⟨s, (findFile_eq_some_iff hi hlive).mpr ⟨hlive, rfl⟩, rfl, fun behind => ?_⟩
    rw [← printed_lsLine raid s behind]
    refine ⟨List.take_prefix _ _, fun hlt => (List.take_of_length_le ?_).symm⟩
    rw [List.length_take] at hlt
    omega
  · dsimp only
    rw [hi.num, List.length_map, length_liveSlots]
  · rw [hused, List.map_map]
    exact hi.sum_lines hn

end inv

/-- `ls` prints one line for each file, under the number of its slot, and no file that it prints is
outside the blocks it calls used. -/
theorem ls_listed {raid₀ : NvmeRaid n} (hn : n ≤ maxDisks) (ht : n * superSectorNum ≤ raid₀.totalBlocks.toNat)
    (h0 : raid₀.numFiles = 0) (h : Reachable raid₀ raid) :
    (lsRun raid = none ↔ ∀ name : Name, name 0 ≠ 0 → findFile raid name = none) ∧
      ∀ l, lsRun raid = some l → Listed raid l := by
  have hi := h.inv hn ht h0
  rw [← h.totalBlocks] at ht
  refine ⟨?_, fun l hl => hi.listed hn ht hl⟩
  have hnone : lsRun raid = none ↔ raid.numFiles = 0 := by
    rw [lsRun_eq]
    split_ifs with hz
    · exact iff_of_true rfl hz
    · exact iff_of_false (by simp) hz
  rw [hnone, hi.numFiles_eq_zero]
  constructor
  · intro hdead name hname
    rw [findFile_eq_none_iff hname]
    exact fun s hs => absurd hs (hdead s)
  · intro hall s hlive
    exact (findFile_eq_none_iff hlive).mp (hall _ hlive) s hlive ((cmpFile_eq_zero _ _).mpr rfl)

def threeFileRaid (n : ℕ) [NeZero n] : NvmeRaid n :=
  ((oneFileRaid n 3).plus (fun _ => 66) 2).plus (fun k => if k.val = 0 then 67 else 0) 1

/-- The second name fills its field, and its line goes on with the two bytes of its first block 259. -/
theorem ls_listed_three_files : ∃ l, lsRun (threeFileRaid 1) = some l ∧ Listed (threeFileRaid 1) l ∧
    l.lines.map (fun line => line.printed []) =
      [List.replicate 26 65, List.replicate 26 66 ++ [3, 1], [67]] := by
  have hreach : Reachable (attached fun _ : Fin 1 => 1024) (threeFileRaid 1) :=
    ((oneFileRaid_reachable 1 3).plus _ _).plus _ _
  have hlisted := (ls_listed (by decide) (by decide) rfl hreach).2
  have hprinted : (lsRun (threeFileRaid 1)).map (fun l => l.lines.map fun line => line.printed []) =
      some [List.replicate 26 65, List.replicate 26 66 ++ [3, 1], [67]] := by
    decide +kernel
  obtain ⟨l, hls, hlines⟩ := Option.map_eq_some_iff.mp hprinted
  exact ⟨l, hls, hlisted l hls, hlines⟩

end PcapReplay
