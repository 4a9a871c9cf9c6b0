import PcapReplay.Fs.Names
import PcapReplay.Nvme.Interface

/-! The file table operations of `fs.c`. -/

namespace PcapReplay
open Interaction
variable {n : ℕ}

def initMeta (m : MetaSector) (diskId totalDisks : UInt8) : MetaSector where
  magic := magicNumber
  version := curVersion
  diskId := diskId
  totalDisks := totalDisks
  totalFiles := 0
  content j :=
    { name := Function.update (m.content j).name 0 0
      startBlock := 0
      endBlock := 0 }

def updateRaid (raid : NvmeRaid n) : Nvme Unit := do
  let _ ← Prog.collect fun i => sioWritePinit (raid.ns i) (raid.msector i)

def formatRaid (raid : NvmeRaid n) : Nvme (NvmeRaid n) := do
  let raid' : NvmeRaid n :=
    { raid with
      msector := fun i => initMeta (raid.msector i) (UInt8.ofNat i) (UInt8.ofNat n) }
  updateRaid raid'
  pure raid'

def rightFreeBlock (raid : NvmeRaid n) : UInt64 :=
  (slots n).foldl
    (fun mostRight s =>
      if mostRight < (raid.file s).endBlock then (raid.file s).endBlock else mostRight)
    -- keep the metasectors
    (UInt64.ofNat (n * superSectorNum))

def rightFreeBlocks (raid : NvmeRaid n) : UInt64 := raid.totalBlocks - rightFreeBlock raid

def findFile (raid : NvmeRaid n) (name : Name) : Option (Slot n) :=
  (slots n).find? fun s => cmpFile name (raid.file s).name = 0

def freeSlot (raid : NvmeRaid n) : Option (Slot n) :=
  (slots n).find? fun s => (raid.file s).name 0 = 0

def countFiles [NeZero n] (raid : NvmeRaid n) (total : UInt8) (num : ℤ) : NvmeRaid n :=
  { raid with
    msector := Function.update raid.msector 0 { raid.msector 0 with totalFiles := total }
    numFiles := num }

def addFile [NeZero n] (raid : NvmeRaid n) (name : Name) (blsize : UInt64) :
    Nvme (Option (Slot n) × NvmeRaid n) :=
  if (findFile raid name).isSome then pure (none, raid)
  else if (raid.msector 0).totalFiles.toNat = maxFiles * n then pure (none, raid)
  else if rightFreeBlocks raid < blsize then pure (none, raid)
  else if name 0 = 0 then pure (none, raid)
  else
    match freeSlot raid with
    | none => pure (none, raid)
    | some s => do
      let startBlock := rightFreeBlock raid
      let file := { name := name, startBlock := startBlock, endBlock := startBlock + blsize }
      let raid' := countFiles (raid.setFile s file)
        ((raid.msector 0).totalFiles + 1) (raid.numFiles + 1)
      updateRaid raid'
      pure (some s, raid')

def delFile [NeZero n] (raid : NvmeRaid n) (name : Name) : Nvme (UInt8 × NvmeRaid n) :=
  if name 0 = 0 then pure (0, raid)
  else
    match findFile raid name with
    | none => pure (0, raid)
    | some s => do
      let file :=
        { name := Function.update (raid.file s).name 0 0, startBlock := 0, endBlock := 0 }
      let raid' := countFiles (raid.setFile s file)
        ((raid.msector 0).totalFiles - 1) (raid.numFiles - 1)
      updateRaid raid'
      pure (1, raid')

def formatted (raid : NvmeRaid n) : NvmeRaid n :=
  { raid with msector := fun i => initMeta (raid.msector i) (UInt8.ofNat i) (UInt8.ofNat n) }

theorem formatRaid_returns {raid raid' : NvmeRaid n} :
    (formatRaid raid).Returns raid' ↔ raid' = formatted raid := by
  rw [formatRaid, Prog.returns_bind_const, Prog.returns_pure, formatted]

theorem diskId_toNat (hn : n ≤ maxDisks) {i : ℕ} (hi : i ≤ n) : (UInt8.ofNat i).toNat = i := by
  rw [UInt8.toNat_ofNat', Nat.mod_eq_of_lt]
  simp only [maxDisks] at hn
  omega

variable [NeZero n]

def tableAdd (raid : NvmeRaid n) (s : Slot n) (name : Name) (blsize : UInt64) : NvmeRaid n :=
  countFiles
    (raid.setFile s
      { name := name, startBlock := rightFreeBlock raid, endBlock := rightFreeBlock raid + blsize })
    ((raid.msector 0).totalFiles + 1) (raid.numFiles + 1)

def tableDel (raid : NvmeRaid n) (s : Slot n) : NvmeRaid n :=
  countFiles
    (raid.setFile s
      { name := Function.update (raid.file s).name 0 0, startBlock := 0, endBlock := 0 })
    ((raid.msector 0).totalFiles - 1) (raid.numFiles - 1)

structure Admits (raid : NvmeRaid n) (name : Name) (blsize : UInt64) : Prop where
  absent : findFile raid name = none
  room : (raid.msector 0).totalFiles.toNat ≠ maxFiles * n
  space : blsize ≤ rightFreeBlocks raid
  named : name 0 ≠ 0

theorem addFile_eq (raid : NvmeRaid n) (name : Name) (blsize : UInt64) :
    (addFile raid name blsize = pure (none, raid) ∧
        (Admits raid name blsize → freeSlot raid = none)) ∨
      ∃ s, (addFile raid name blsize = do
          updateRaid (tableAdd raid s name blsize)
          pure (some s, tableAdd raid s name blsize)) ∧
        Admits raid name blsize ∧ freeSlot raid = some s := by
  unfold addFile
  split_ifs with h₁ h₂ h₃ h₄
  · exact Or.inl ⟨rfl, fun ha => by simp [ha.absent] at h₁⟩
  · exact Or.inl ⟨rfl, fun ha => absurd h₂ ha.room⟩
  · exact Or.inl ⟨rfl, fun ha => absurd ha.space (UInt64.not_le.mpr h₃)⟩
  · exact Or.inl ⟨rfl, fun ha => absurd h₄ ha.named⟩
  · have ha : Admits raid name blsize := ⟨by simpa using h₁, h₂, UInt64.not_lt.mp h₃, h₄⟩
    cases hs : freeSlot raid with
    | none => exact Or.inl ⟨rfl, fun _ => rfl⟩
    | some s => exact Or.inr ⟨s, rfl, ha, rfl⟩

theorem addFile_of_admits {raid : NvmeRaid n} {name : Name} {blsize : UInt64} {s : Slot n}
    (ha : Admits raid name blsize) (hs : freeSlot raid = some s) :
    addFile raid name blsize = updateRaid (tableAdd raid s name blsize) >>= fun _ =>
      pure (some s, tableAdd raid s name blsize) := by
  rcases addFile_eq raid name blsize with ⟨_, hno⟩ | ⟨t, heq, _, ht⟩
  · rw [hno ha] at hs
    exact absurd hs (by simp)
  · obtain rfl := Option.some.inj (hs.symm.trans ht)
    exact heq

theorem returns_addFile {raid : NvmeRaid n} {name : Name} {blsize : UInt64} {s : Slot n}
    (ha : Admits raid name blsize) (hs : freeSlot raid = some s) :
    (addFile raid name blsize).Returns (some s, tableAdd raid s name blsize) := by
  rw [addFile_of_admits ha hs]
  exact Prog.returns_bind_const.mpr (Prog.returns_pure.mpr rfl)

theorem addFile_cases {raid raid' : NvmeRaid n} {name : Name} {blsize : UInt64}
    {ret : Option (Slot n)} (h : (addFile raid name blsize).Returns (ret, raid')) :
    (ret = none ∧ raid' = raid ∧ (Admits raid name blsize → freeSlot raid = none)) ∨
      ∃ s, ret = some s ∧ raid' = tableAdd raid s name blsize ∧
        Admits raid name blsize ∧ freeSlot raid = some s := by
  rcases addFile_eq raid name blsize with ⟨heq, hno⟩ | ⟨s, heq, ha, hs⟩
  · rw [heq, Prog.returns_pure, Prod.mk.injEq] at h
    exact Or.inl ⟨h.1, h.2, hno⟩
  · rw [heq, Prog.returns_bind_const, Prog.returns_pure, Prod.mk.injEq] at h
    exact Or.inr ⟨s, h.1, h.2, ha, hs⟩

theorem addFile_some {raid raid' : NvmeRaid n} {name : Name} {blsize : UInt64} {s : Slot n}
    (h : (addFile raid name blsize).Returns (some s, raid')) :
    raid' = tableAdd raid s name blsize ∧ Admits raid name blsize ∧ freeSlot raid = some s := by
  rcases addFile_cases h with ⟨hnone, _⟩ | ⟨t, hst, hraid, ha, hs⟩
  · exact absurd hnone (Option.some_ne_none s)
  · obtain rfl := Option.some.inj hst
    exact ⟨hraid, ha, hs⟩

theorem delFile_eq (raid : NvmeRaid n) (name : Name) :
    (delFile raid name = pure (0, raid) ∧ (name 0 ≠ 0 → findFile raid name = none)) ∨
      ∃ s, (delFile raid name = do
          updateRaid (tableDel raid s)
          pure (1, tableDel raid s)) ∧
        name 0 ≠ 0 ∧ findFile raid name = some s := by
  unfold delFile
  split_ifs with h₁
  · exact Or.inl ⟨rfl, fun hn => absurd h₁ hn⟩
  · cases hs : findFile raid name with
    | none => exact Or.inl ⟨rfl, fun _ => rfl⟩
    | some s => exact Or.inr ⟨s, rfl, h₁, rfl⟩

theorem delFile_cases {raid raid' : NvmeRaid n} {name : Name} {ret : UInt8}
    (h : (delFile raid name).Returns (ret, raid')) :
    (ret = 0 ∧ raid' = raid ∧ (name 0 ≠ 0 → findFile raid name = none)) ∨
      ∃ s, ret = 1 ∧ raid' = tableDel raid s ∧ name 0 ≠ 0 ∧ findFile raid name = some s := by
  rcases delFile_eq raid name with ⟨heq, hno⟩ | ⟨s, heq, hn, hs⟩
  · rw [heq, Prog.returns_pure, Prod.mk.injEq] at h
    exact Or.inl ⟨h.1, h.2, hno⟩
  · rw [heq, Prog.returns_bind_const, Prog.returns_pure, Prod.mk.injEq] at h
    exact Or.inr ⟨s, h.1, h.2, hn, hs⟩

end PcapReplay
