import PcapReplay.Fs.Invariant
import PcapReplay.Sio.Raid

/-! The copies of regular files that `cp` makes. The file of the system is the buffer it is mapped
to; `fopen` and `ftruncate` succeed. -/

namespace PcapReplay
open Interaction Prog
variable {n : ℕ} [NeZero n]

def copyWhole (raid : NvmeRaid n) (rounds : ℕ) (raidFile : Option (Slot n)) (map : Ptr) (blocks : UInt64) :
    Nvme (Option Unit) :=
  if blocks ≠ 0 then
    match raidFile with
    | none => pure none
    | some s => do
      -- the parameter `lba_count` has 32 bits
      match ← sioRwritePinit raid rounds map (raid.file s).startBlock blocks.toUInt32 with
      | none => pure none
      | some _ => pure (some ())
  else pure (some ())

/-- `none` where the process ends at a null pointer or in `exit`, and while a wait has not
returned. -/
def copyBlocks (raid : NvmeRaid n) (rounds : ℕ) (raidFile : Option (Slot n)) (map : Ptr)
    (originSize : UInt64) : Nvme (Option Unit) :=
  if originSize % UInt64.ofNat sectorLength ≠ 0 then do
    let blocks := originBlocks originSize - 1
    match ← spdkZmalloc sectorLength with
    | none => pure none
    | some padding =>
      memcpy ⟨padding, 0⟩ (map.add (blocks * UInt64.ofNat sectorLength).toNat)
        (originSize - blocks * UInt64.ofNat sectorLength).toNat
      match raidFile with
      | none => pure none
      | some s =>
        -- neither the code nor the completion of this write is waited for
        let _ ← sioRwrite raid ⟨padding, 0⟩ ((raid.file s).startBlock + blocks) 1
        copyWhole raid rounds raidFile map blocks
  else copyWhole raid rounds raidFile map (originBlocks originSize)

def copyIn (raid : NvmeRaid n) (rounds : ℕ) (toRaid : Name) (map : Ptr) (originSize : UInt64) :
    Nvme (Option (NvmeRaid n)) := do
  let (target, raid) ← copyTarget raid toRaid originSize false
  match target with
  | .stop => pure (some raid)
  | .file raidFile =>
    match ← copyBlocks raid rounds raidFile map originSize with
    | none => pure none
    | some () => pure (some raid)

/-- `cp --from-raid --to-sys`, and the size of the file it makes; `some none` where the raid has no
file of that name. -/
def copyOut (raid : NvmeRaid n) (rounds : ℕ) (fromRaid : Name) (map : Ptr) :
    Nvme (Option (Option UInt64)) :=
  match findFile raid fromRaid with
  | none => pure (some none)
  | some s => do
    let blocks := (raid.file s).endBlock - (raid.file s).startBlock
    match ← sioRreadPinit raid rounds map (raid.file s).startBlock blocks.toUInt32 with
    | none => pure none
    | some _ => pure (some (some (blocks * UInt64.ofNat sectorLength)))

theorem originBlocks_sub_one {originSize : UInt64} (h : originSize % UInt64.ofNat sectorLength ≠ 0) :
    (originBlocks originSize - 1).toNat + 1 = (originBlocks originSize).toNat ∧
      ((originBlocks originSize - 1) * UInt64.ofNat sectorLength).toNat =
        (originBlocks originSize - 1).toNat * sectorLength ∧
      (originSize - (originBlocks originSize - 1) * UInt64.ofNat sectorLength).toNat =
        originSize.toNat - (originBlocks originSize - 1).toNat * sectorLength := by
  have hlt := originSize.toNat_lt
  have hblocks := originBlocks_toNat originSize
  rw [mod_sectorLength_ne] at h
  have hsub : (originBlocks originSize - 1).toNat = (originBlocks originSize).toNat - 1 :=
    UInt64.toNat_sub_of_le _ _ (UInt64.le_iff_toNat_le.mpr (by rw [UInt64.toNat_one]; omega))
  have hmul : ((originBlocks originSize - 1) * UInt64.ofNat sectorLength).toNat =
      (originBlocks originSize - 1).toNat * 512 := by
    rw [UInt64.toNat_mul, Nat.mod_eq_of_lt]
    · rfl
    · show (originBlocks originSize - 1).toNat * 512 < 2 ^ 64
      omega
  simp only [sectorLength_eq] at *
  refine ⟨by omega, hmul, ?_⟩
  rw [UInt64.toNat_sub_of_le _ _ (UInt64.le_iff_toNat_le.mpr (by omega)), hmul]

theorem toNat_toUInt32_le (x : UInt64) : x.toUInt32.toNat ≤ x.toNat := by
  rw [UInt64.toNat_toUInt32]
  exact Nat.mod_le _ _

theorem toNat_toUInt32_of_lt {x : UInt64} (h : x.toNat < 2 ^ 32) : x.toUInt32.toNat = x.toNat := by
  rw [UInt64.toNat_toUInt32, Nat.mod_eq_of_lt h]

def FileFits (raid : NvmeRaid n) (name : Name) (originSize : UInt64) : Prop :=
  (∃ s, findFile raid name = some s ∧ originSize ≤ fileSize (raid.file s)) ∨
    ∃ s raid', (addFile raid name (originBlocks originSize)).Returns (some s, raid')

theorem fileFits_of_admits {raid : NvmeRaid n} {name : Name} {originSize : UInt64} {s : Slot n}
    (ha : Admits raid name (originBlocks originSize)) (hs : freeSlot raid = some s) :
    FileFits raid name originSize :=
  Or.inr ⟨s, tableAdd raid s name (originBlocks originSize), returns_addFile ha hs⟩

structure Prepared (raid : NvmeRaid n) (s : Slot n) (name : Name) (originSize : UInt64) : Prop where
  found : findFile raid name = some s
  extent : (raid.file s).endBlock = (raid.file s).startBlock + originBlocks originSize
  lt : (raid.file s).startBlock.toNat + (originBlocks originSize).toNat < 2 ^ 64

omit [NeZero n] in
theorem Prepared.blocks_eq {raid : NvmeRaid n} {s : Slot n} {name : Name} {originSize : UInt64}
    (h : Prepared raid s name originSize) :
    (raid.file s).endBlock - (raid.file s).startBlock = originBlocks originSize := by
  rw [h.extent, UInt64.add_comm, UInt64.add_sub_cancel]

omit [NeZero n] in
theorem findFile_tableShrink (raid : NvmeRaid n) (s : Slot n) (originSize : UInt64) (name : Name) :
    findFile (tableShrink raid s originSize) name = findFile raid name := by
  have hname : ∀ t, ((tableShrink raid s originSize).file t).name = (raid.file t).name := by
    intro t
    rw [file_tableShrink]
    split_ifs with hts
    · rw [hts]
    · rfl
  unfold findFile
  simp only [hname]

theorem findFile_tableAdd {raid : NvmeRaid n} {name : Name} {blsize : UInt64} (s : Slot n)
    (ha : findFile raid name = none) : findFile (tableAdd raid s name blsize) name = some s := by
  apply findFile_eq_some
  · rw [file_tableAdd_self]
    exact (cmpFile_eq_zero name name).mpr rfl
  · intro t hts
    rw [file_tableAdd, if_neg hts]
    simpa using List.find?_eq_none.mp ha t (mem_slots t)

section target
variable {raid raid' : NvmeRaid n} {name : Name} {originSize : UInt64} {s : Slot n} (hi : TableInv raid)
include hi

theorem prepared_tableShrink (hs : findFile raid name = some s) (ho : originSize ≤ fileSize (raid.file s)) :
    Prepared (tableShrink raid s originSize) s name originSize := by
  have hfile : (tableShrink raid s originSize).file s =
      { raid.file s with endBlock := (raid.file s).startBlock + originBlocks originSize } := by
    rw [file_tableShrink, if_pos rfl]
  refine ⟨(findFile_tableShrink raid s originSize name).trans hs, by rw [hfile], ?_⟩
  rw [hfile]
  exact (originBlocks_le (hi.startBlock_le s) ho).trans_lt (raid.file s).endBlock.toNat_lt

variable (hn : n ≤ maxDisks) (ht : n * 256 ≤ raid.totalBlocks.toNat)
include hn ht

theorem prepared_tableAdd (ha : Admits raid name (originBlocks originSize)) :
    Prepared (tableAdd raid s name (originBlocks originSize)) s name originSize := by
  have hfile := file_tableAdd_self raid s name (originBlocks originSize)
  refine ⟨findFile_tableAdd s ha.absent, by rw [hfile], ?_⟩
  rw [hfile]
  exact (hi.rightFreeBlock_add_le hn ht ha.space).trans_lt raid.totalBlocks.toNat_lt

theorem copyTarget_fits {t : Target n} (hfit : FileFits raid name originSize)
    (h : (copyTarget raid name originSize false).Returns (t, raid')) :
    ∃ s, t = .file (some s) ∧ Prepared raid' s name originSize := by
  unfold copyTarget at h
  rcases hfit with ⟨s, hs, ho⟩ | ⟨s, raid₁, hs⟩
  · simp only [hs] at h
    rw [if_neg (UInt64.not_lt.mpr ho), if_neg Bool.false_ne_true, returns_bind_const, returns_pure,
      Prod.mk.injEq] at h
    obtain ⟨rfl, rfl⟩ := h
    exact ⟨s, rfl, prepared_tableShrink hi hs ho⟩
  · obtain ⟨_, ha, hfree⟩ := addFile_some hs
    simp only [ha.absent] at h
    obtain ⟨⟨r, raid₂⟩, h₁, h₂⟩ := returns_bind.mp h
    obtain ⟨rfl, rfl⟩ := Prod.mk.inj (returns_pure.mp h₂)
    obtain ⟨_, _, hno⟩ | ⟨u, rfl, rfl, _, _⟩ := addFile_cases h₁
    · rw [hno ha] at hfree
      exact absurd hfree (by simp)
    · exact ⟨u, rfl, prepared_tableAdd hi hn ht ha⟩

end target
end PcapReplay
