import PcapReplay.Fs.Persist

/-! When `addFile` succeeds, and what it changes then. -/

namespace PcapReplay
open Interaction
variable {n : ℕ} {raid raid' : NvmeRaid n} {name : Name} {blsize : UInt64} {s : Slot n}

structure RoomFor (raid : NvmeRaid n) (name : Name) (blsize : UInt64) : Prop where
  named : name 0 ≠ 0
  absent : ∀ s, raid.Live s → cmpFile name (raid.file s).name ≠ 0
  slot : raid.live.card < maxFiles * n
  space : blsize.toNat ≤ raid.totalBlocks.toNat - (rightFreeBlock raid).toNat

structure Added [NeZero n] (raid raid' : NvmeRaid n) (s : Slot n) (name : Name) (blsize : UInt64) : Prop where
  free : ¬ raid.Live s
  name : (raid'.file s).name = name
  start : (raid'.file s).startBlock = rightFreeBlock raid
  finish : (raid'.file s).endBlock.toNat = (rightFreeBlock raid).toNat + blsize.toNat
  others : ∀ t, t ≠ s → raid'.file t = raid.file t
  totalFiles : (raid'.msector 0).totalFiles.toNat = (raid.msector 0).totalFiles.toNat + 1
  numFiles : raid'.numFiles = raid.numFiles + 1
  headers : ∀ i, SameHeader (raid'.msector i) (raid.msector i)
  otherTotals : ∀ i, i ≠ 0 → (raid'.msector i).totalFiles = (raid.msector i).totalFiles
  rest : raid'.ns = raid.ns ∧ raid'.totalBlocks = raid.totalBlocks

theorem findFile_eq_none_iff (hname : name 0 ≠ 0) :
    findFile raid name = none ↔ ∀ s, raid.Live s → cmpFile name (raid.file s).name ≠ 0 := by
  have hnone : findFile raid name = none ↔ ∀ s, cmpFile name (raid.file s).name ≠ 0 := by
    simp [findFile, List.find?_eq_none]
  rw [hnone]
  refine ⟨fun h s _ => h s, fun h s he => ?_⟩
  -- a name that is equal to this one belongs to a live slot
  have hlive : raid.Live s := fun h0 =>
    hname ((Name.head_eq_zero ((cmpFile_eq_zero _ _).mp he)).mpr h0)
  exact h s hlive he

theorem freeSlot_ne_none (h : raid.live.card ≠ maxFiles * n) : freeSlot raid ≠ none := by
  intro hnone
  have hall : ∀ s, raid.Live s := by
    intro s
    simpa [NvmeRaid.Live] using List.find?_eq_none.mp hnone s (mem_slots s)
  apply h
  have huniv : raid.live = Finset.univ := by
    ext s
    simp [hall s]
  rw [huniv, Finset.card_univ, Fintype.card_prod, Fintype.card_fin, Fintype.card_fin, Nat.mul_comm]

/-- The scan does not look at names, so it may as well run before the name is set. -/
theorem rightFreeBlock_setName (raid : NvmeRaid n) (s : Slot n) (name : Name) :
    rightFreeBlock (raid.setFile s { raid.file s with name := name }) = rightFreeBlock raid := by
  have hend : ∀ t, ((raid.setFile s { raid.file s with name := name }).file t).endBlock =
      (raid.file t).endBlock := by
    intro t
    rw [NvmeRaid.file_setFile]
    split_ifs with hts
    · rw [hts]
    · rfl
  unfold rightFreeBlock
  simp only [hend]

variable [NeZero n]

section table
variable (hi : TableInv raid) (hn : n ≤ maxDisks) (ht : n * 256 ≤ raid.totalBlocks.toNat)
include hi hn ht

theorem admits_iff_roomFor : Admits raid name blsize ↔ RoomFor raid name blsize := by
  have hle := hi.rightFreeBlock_le hn ht
  have hspace : blsize ≤ rightFreeBlocks raid ↔
      blsize.toNat ≤ raid.totalBlocks.toNat - (rightFreeBlock raid).toNat := by
    rw [UInt64.le_iff_toNat_le, rightFreeBlocks,
      UInt64.toNat_sub_of_le _ _ (UInt64.le_iff_toNat_le.mpr hle)]
  have htotal := hi.total
  have hcard := raid.card_live_le
  constructor
  · intro h
    have hroom := h.room
    exact ⟨h.named, (findFile_eq_none_iff h.named).mp h.absent, by omega, hspace.mp h.space⟩
  · intro h
    have hslot := h.slot
    exact ⟨(findFile_eq_none_iff h.named).mpr h.absent, by omega, hspace.mpr h.space, h.named⟩

theorem added_tableAdd (ha : Admits raid name blsize) (hs : freeSlot raid = some s) :
    Added raid (tableAdd raid s name blsize) s name blsize := by
  have hself := file_tableAdd_self raid s name blsize
  have hcard := (hi.add hn ht ha hs).total
  have hbefore := hi.total
  have hlive : (tableAdd raid s name blsize).live.card = raid.live.card + 1 :=
    card_live_tableAdd ha.named (freeSlot_dead hs)
  refine ⟨freeSlot_dead hs, by rw [hself], by rw [hself], ?_, fun t hts => ?_, by omega, rfl, fun i => ?_,
    fun i h0 => ?_, rfl, rfl⟩
  · rw [hself]
    exact hi.endBlock_add hn ht ha.space
  · rw [file_tableAdd, if_neg hts]
  · exact (sameHeader_countFiles _ _ _ i).trans (sameHeader_setFile raid s _ i)
  · simp [tableAdd, countFiles, h0]

end table

/-- `addFile` succeeds exactly when there is room; it changes one slot and the counters, or
nothing. -/
theorem addFile_atomic {raid₀ raid : NvmeRaid n} (hn : n ≤ maxDisks)
    (ht : n * superSectorNum ≤ raid₀.totalBlocks.toNat) (h0 : raid₀.numFiles = 0)
    (h : Reachable raid₀ raid) (name : Name) (blsize : UInt64) (out : Fin n → WriteOutcome)
    (media : Media) :
    ∀ ret raid' media', callOn out media (addFile raid name blsize) = ((ret, raid'), media') →
      (ret ≠ none ↔ RoomFor raid name blsize) ∧
      (Admits raid name blsize → freeSlot raid ≠ none) ∧
      (ret = none → raid' = raid ∧ media' = media) ∧
      ∀ s, ret = some s → Added raid raid' s name blsize ∧
        rightFreeBlock (raid.setFile s { raid.file s with name := name }) = rightFreeBlock raid ∧
        ((∀ i, (out i).isOk) → Synced raid' media') := by
  have hi := h.inv hn ht h0
  rw [← h.totalBlocks] at ht
  have hfree : Admits raid name blsize → freeSlot raid ≠ none := fun ha =>
    freeSlot_ne_none (hi.total ▸ ha.room)
  intro ret raid' media' hcall
  rw [← admits_iff_roomFor hi hn ht]
  rcases callOn_addFile out media raid name blsize with ⟨heq, hno⟩ | ⟨s, heq, ha, hs⟩
  · obtain ⟨⟨rfl, rfl⟩, rfl⟩ := (by simpa using heq.symm.trans hcall :
      (none = ret ∧ raid = raid') ∧ media = media')
    refine ⟨⟨fun hne => absurd rfl hne, fun ha => absurd (hno ha) (hfree ha)⟩, hfree,
      fun _ => ⟨rfl, rfl⟩, fun s hs => absurd hs (by simp)⟩
  · obtain ⟨⟨rfl, rfl⟩, rfl⟩ := (by simpa using heq.symm.trans hcall :
      (some s = ret ∧ tableAdd raid s name blsize = raid') ∧
        written (tableAdd raid s name blsize) out media = media')
    refine ⟨⟨fun _ => ha, fun _ => by simp⟩, hfree, fun hne => absurd hne (by simp), fun t ht' => ?_⟩
    obtain rfl := Option.some.inj ht'
    exact ⟨added_tableAdd hi hn ht ha hs, rightFreeBlock_setName raid s name,
      fun hout => synced_written hout media⟩

theorem addFile_atomic_one_disk :
    ((callOn (fun _ : Fin 1 => .ok) (fun _ _ => 0)
      (addFile (formatted (attached fun _ : Fin 1 => 1024)) (fun _ => 65) 3)).1.1 ≠ none ↔
        RoomFor (formatted (attached fun _ : Fin 1 => 1024)) (fun _ => 65) 3) ∧
      RoomFor (formatted (attached fun _ : Fin 1 => 1024)) (fun _ => 65) 3 := by
  have hreach : Reachable (attached fun _ : Fin 1 => 1024) (formatted (attached fun _ => 1024)) :=
    ⟨_, formatRaid_returns.mpr rfl, .refl⟩
  refine ⟨(addFile_atomic (by decide) (by decide +kernel) rfl hreach _ 3 _ _ _ _ _ rfl).1, ?_⟩
  exact ⟨by decide, by decide +kernel, by decide +kernel, by decide +kernel⟩

end PcapReplay
