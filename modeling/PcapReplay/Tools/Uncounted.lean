import PcapReplay.Cp.Neighbours
import PcapReplay.Fs.NameMap

/-! The table of a raid, whatever it says of the number of its files. -/

namespace PcapReplay
variable {n : ℕ} [NeZero n]

def recount (raid : NvmeRaid n) : NvmeRaid n :=
  countFiles raid (UInt8.ofNat raid.live.card) raid.live.card

def Sound (raid : NvmeRaid n) : Prop := TableInv (recount raid)

section recount
variable (raid : NvmeRaid n)

theorem file_recount (s : Slot n) : (recount raid).file s = raid.file s := file_countFiles raid _ _ s

theorem findFile_recount (name : Name) : findFile (recount raid) name = findFile raid name := by
  unfold findFile
  simp only [file_recount]

theorem freeSlot_recount : freeSlot (recount raid) = freeSlot raid := by
  unfold freeSlot
  simp only [file_recount]

theorem rightFreeBlock_recount : rightFreeBlock (recount raid) = rightFreeBlock raid := by
  unfold rightFreeBlock
  simp only [file_recount]

theorem fileCells_recount (s : Slot n) : FileCells (recount raid) s = FileCells raid s := by
  unfold FileCells
  rw [file_recount]
  rfl

theorem owns_recount (s : Slot n) (b : ℕ) : (recount raid).Owns s b ↔ raid.Owns s b := by
  unfold NvmeRaid.Owns
  rw [file_recount]

theorem live_recount (s : Slot n) : (recount raid).Live s ↔ raid.Live s := by
  unfold NvmeRaid.Live
  rw [file_recount]

end recount

section sound
variable {raid raid' : NvmeRaid n} {name : Name} {s t : Slot n}

omit [NeZero n] in
theorem live_eq_of_files (hfile : ∀ t, raid'.file t = raid.file t) : raid'.live = raid.live := by
  ext t
  rw [NvmeRaid.mem_live, NvmeRaid.mem_live, NvmeRaid.Live, NvmeRaid.Live, hfile]

theorem TableInv.of_files (hi : TableInv raid) (hfile : ∀ t, raid'.file t = raid.file t)
    (htotal : raid'.totalBlocks = raid.totalBlocks) (hc : Counted raid') : TableInv raid' where
  bounds := by simpa only [NvmeRaid.Live, hfile, htotal] using hi.bounds
  disjoint := by simpa only [NvmeRaid.Live, NvmeRaid.Owns, hfile] using hi.disjoint
  unique := by simpa only [NvmeRaid.Live, hfile] using hi.unique
  free := by simpa only [NvmeRaid.Live, hfile] using hi.free
  total := hc.total
  num := hc.num

theorem counted_recount (h : (UInt8.ofNat raid.live.card).toNat = raid.live.card) : Counted
    (recount raid) := by
  have hlive : (recount raid).live = raid.live := live_eq_of_files (file_recount raid)
  constructor
  · rw [hlive]
    simpa [recount, countFiles] using h
  · rw [hlive]
    rfl

theorem TableInv.sound (hi : TableInv raid) : Sound raid := by
  refine hi.of_files (file_recount raid) rfl (counted_recount ?_)
  rw [← hi.total, UInt8.ofNat_toNat]

theorem Sound.congr (h : Sound raid) (hfile : ∀ t, raid'.file t = raid.file t)
    (htotal : raid'.totalBlocks = raid.totalBlocks) : Sound raid' := by
  have hcard := h.total
  rw [live_eq_of_files (file_recount raid)] at hcard
  refine h.of_files (fun t => by rw [file_recount, file_recount, hfile]) htotal (counted_recount ?_)
  rw [live_eq_of_files hfile]
  simpa [recount, countFiles] using hcard

theorem Sound.tableInv (h : Sound raid) (hc : Counted raid) : TableInv raid :=
  TableInv.of_files h (fun t => (file_recount raid t).symm) rfl hc

variable (h : Sound raid)
include h

theorem Sound.free (hs : ¬ raid.Live s) : (raid.file s).startBlock = 0 ∧ (raid.file s).endBlock = 0 := by
  rw [← live_recount] at hs
  have hfree := TableInv.free h s hs
  rwa [file_recount] at hfree

theorem Sound.unique (hs : raid.Live s) (ht : raid.Live t)
    (hst : cmpFile (raid.file s).name (raid.file t).name = 0) : s = t := by
  rw [← live_recount] at hs ht
  apply TableInv.unique h s t hs ht
  rwa [file_recount, file_recount]

theorem Sound.startBlock_le (s : Slot n) : (raid.file s).startBlock.toNat ≤ (raid.file s).endBlock.toNat := by
  have hle := TableInv.startBlock_le h s
  rwa [file_recount] at hle

theorem Sound.endBlock_le (s : Slot n) : (raid.file s).endBlock.toNat ≤ raid.totalBlocks.toNat := by
  have hle := TableInv.endBlock_le h s
  rwa [file_recount] at hle

theorem Sound.findFile_eq_some_iff (hname : name 0 ≠ 0) :
    findFile raid name = some s ↔ raid.Live s ∧ name.str = (raid.file s).name.str := by
  have hiff := @PcapReplay.findFile_eq_some_iff _ _ _ _ s h hname
  rwa [findFile_recount, live_recount, file_recount] at hiff

theorem Sound.cells_apart (hst : s ≠ t) {b : UInt64} (hb : raid.Owns s b.toNat) {a : ℕ}
    (ha : blockByte n b.toNat ≤ a ∧ a < blockByte n b.toNat + sectorLength) :
    ¬ FileCells raid t (blockSpace raid b.toNat) a := by
  have hapart := TableInv.cells_apart h hst ((owns_recount raid s _).mpr hb) ha
  rwa [fileCells_recount] at hapart

theorem Sound.sectorLength_le (h63 : raid.totalBlocks.toNat ≤ 2 ^ 63) {b : ℕ} (hb : raid.Owns s b) :
    sectorLength ≤ blockByte n b := TableInv.sectorLength_le h h63 ((owns_recount raid s b).mpr hb)

theorem Sound.shrink {originSize : UInt64} (ho : originSize ≤ fileSize (raid.file s)) :
    Sound (tableShrink raid s originSize) := by
  have ho' : originSize ≤ fileSize ((recount raid).file s) := by rwa [file_recount]
  refine (TableInv.shrink h ho').sound.congr (fun t => ?_) rfl
  rw [file_tableShrink, file_tableShrink, file_recount, file_recount]

theorem Sound.del (hname : name 0 ≠ 0) (hs : findFile raid name = some s) : Sound (tableDel raid s) := by
  rw [← findFile_recount] at hs
  refine (TableInv.del h hname hs).sound.congr (fun t => ?_) rfl
  rw [file_tableDel, file_tableDel, file_recount, file_recount]

theorem Sound.admits_recount {blsize : UInt64} (ha : Admits raid name blsize) (hs : freeSlot raid = some s) :
    Admits (recount raid) name blsize where
  absent := by rw [findFile_recount, ha.absent]
  room := by
    have hdead : s ∉ raid.live := fun hlive => freeSlot_dead hs ((raid.mem_live s).mp hlive)
    have hlt := Finset.card_lt_univ_of_notMem hdead
    have hslots : Fintype.card (Slot n) = maxFiles * n := by
      rw [Fintype.card_prod, Fintype.card_fin, Fintype.card_fin, Nat.mul_comm]
    rw [hslots] at hlt
    rw [h.total, live_eq_of_files (file_recount raid)]
    exact hlt.ne
  space := by
    rw [rightFreeBlocks, rightFreeBlock_recount]
    exact ha.space
  named := ha.named

theorem Sound.add (hn : n ≤ maxDisks) (ht : n * 256 ≤ raid.totalBlocks.toNat) {blsize : UInt64}
    (ha : Admits raid name blsize) (hs : freeSlot raid = some s) : Sound (tableAdd raid s name blsize) := by
  have hs' : freeSlot (recount raid) = some s := (freeSlot_recount raid).trans hs
  have ht' : n * 256 ≤ (recount raid).totalBlocks.toNat := ht
  refine (TableInv.add hn ht' h (h.admits_recount ha hs) hs').sound.congr (fun t => ?_) rfl
  rw [file_tableAdd, file_tableAdd, file_recount, rightFreeBlock_recount]

omit [NeZero n] h in
theorem Prepared.of_files {originSize : UInt64} (hp : Prepared raid s name originSize)
    (hfile : ∀ t, raid'.file t = raid.file t) : Prepared raid' s name originSize := by
  have hfound : findFile raid' name = findFile raid name := by
    unfold findFile
    simp only [hfile]
  exact ⟨hfound.trans hp.found, by rw [hfile, hp.extent], by rw [hfile]; exact hp.lt⟩

theorem Sound.prepared_shrink {originSize : UInt64} (hs : findFile raid name = some s)
    (ho : originSize ≤ fileSize (raid.file s)) :
    Prepared (tableShrink raid s originSize) s name originSize := by
  rw [← findFile_recount] at hs
  have ho' : originSize ≤ fileSize ((recount raid).file s) := by rwa [file_recount]
  refine (prepared_tableShrink h hs ho').of_files fun t => ?_
  rw [file_tableShrink, file_tableShrink, file_recount, file_recount]

theorem Sound.prepared_add (hn : n ≤ maxDisks) (ht : n * 256 ≤ raid.totalBlocks.toNat) {originSize : UInt64}
    (ha : Admits raid name (originBlocks originSize)) (hs : freeSlot raid = some s) :
    Prepared (tableAdd raid s name (originBlocks originSize)) s name originSize := by
  refine (@prepared_tableAdd _ _ _ _ _ s h hn ht (h.admits_recount ha hs)).of_files fun t => ?_
  rw [file_tableAdd, file_tableAdd, file_recount, rightFreeBlock_recount]

end sound
end PcapReplay
