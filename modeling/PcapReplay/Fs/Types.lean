import Mathlib.Algebra.Order.Ring.Nat
import Mathlib.Data.Fintype.Basic
import Mathlib.Logic.Embedding.Basic

/-! The raid and its file table, as in `fs.h`. -/

namespace PcapReplay

def curVersion : UInt8 := 1
abbrev nameLength : ℕ := 26
abbrev maxFiles : ℕ := 12
abbrev maxDisks : ℕ := 8

def magicNumber : UInt32 := 0xCACA0FE0
def sectorLength : ℕ := 512

/-- A supersector is 128K, a stripe unit of the raid. -/
def superSectorLength : ℕ := 128 * 1024
def superSectorNum : ℕ := superSectorLength / sectorLength

@[simp] theorem sectorLength_eq : sectorLength = 512 := rfl
@[simp] theorem superSectorLength_eq : superSectorLength = 131072 := rfl
@[simp] theorem superSectorNum_eq : superSectorNum = 256 := rfl

theorem toNat_add_of_lt {a b : UInt64} (h : a.toNat + b.toNat < 2 ^ 64) :
    (a + b).toNat = a.toNat + b.toNat := by
  rw [UInt64.toNat_add, Nat.mod_eq_of_lt h]

theorem toNat_add_ofNat {a : UInt64} {k : ℕ} (h : a.toNat + k < 2 ^ 64) :
    (a + UInt64.ofNat k).toNat = a.toNat + k := by
  rw [UInt64.toNat_add, UInt64.toNat_ofNat', Nat.add_mod_mod, Nat.mod_eq_of_lt h]

-- the instance that every module finds for the index 0 of a name
instance (priority := high) : NeZero nameLength := ⟨by decide⟩

/-- The `nameLength` bytes at a `char *`, whether or not a NUL is among them. -/
abbrev Name := Fin nameLength → UInt8

structure MetaFile where
  name : Name
  startBlock : UInt64
  endBlock : UInt64

structure MetaSector where
  magic : UInt32
  version : UInt8
  diskId : UInt8
  totalDisks : UInt8
  totalFiles : UInt8
  content : Fin maxFiles → MetaFile

/-- A raid of `n` disks. `ns i` stands for the handles (`ctrlr`, `ns`, `qpair`) of `disk[i]`;
every attached namespace has its own. -/
structure NvmeRaid (n : ℕ) where
  msector : Fin n → MetaSector
  ns : Fin n ↪ ℕ
  numFiles : ℤ
  totalBlocks : UInt64

abbrev Slot (n : ℕ) := Fin n × Fin maxFiles

namespace NvmeRaid
variable {n : ℕ}

def file (raid : NvmeRaid n) (s : Slot n) : MetaFile := (raid.msector s.1).content s.2

def setFile (raid : NvmeRaid n) (s : Slot n) (f : MetaFile) : NvmeRaid n :=
  { raid with
    msector := Function.update raid.msector s.1
      { raid.msector s.1 with content := Function.update (raid.msector s.1).content s.2 f } }

@[simp] theorem file_setFile (raid : NvmeRaid n) (s t : Slot n) (f : MetaFile) :
    (raid.setFile s f).file t = if t = s then f else raid.file t := by
  obtain ⟨i, j⟩ := s
  obtain ⟨i', j'⟩ := t
  by_cases hi : i' = i
  · subst hi
    by_cases hj : j' = j <;> simp [file, setFile, hj]
  · simp [file, setFile, hi]

@[simp] theorem totalFiles_setFile (raid : NvmeRaid n) (s : Slot n) (f : MetaFile) (i : Fin n) :
    ((raid.setFile s f).msector i).totalFiles = (raid.msector i).totalFiles := by
  by_cases hi : i = s.1 <;> simp [setFile, hi]

end NvmeRaid

/-- `myRaid` after `register_ns` has run for each of `n` namespaces, `size i` being the number of
sectors of the `i`th. Everything else is still zero. -/
def attached {n : ℕ} (size : Fin n → UInt64) : NvmeRaid n where
  msector _ :=
    { magic := 0, version := 0, diskId := 0, totalDisks := 0, totalFiles := 0
      content := fun _ => { name := fun _ => 0, startBlock := 0, endBlock := 0 } }
  ns := Fin.valEmbedding
  numFiles := 0
  totalBlocks := (List.ofFn size).foldl (fun total sectors => total + sectors) 0

def slots (n : ℕ) : List (Slot n) :=
  (List.finRange n).flatMap fun i => (List.finRange maxFiles).map fun j => (i, j)

@[simp] theorem mem_slots {n : ℕ} (s : Slot n) : s ∈ slots n := by
  simp [slots]

end PcapReplay
