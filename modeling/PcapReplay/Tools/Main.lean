import PcapReplay.Cp.Neighbours
import PcapReplay.Fs.Mount
import PcapReplay.Tools.Attach

/-! The tools `format`, `ls`, `rm` and `cp`, from the attached drives to the end of `main`. -/

namespace PcapReplay
open Interaction Prog
variable {n : ℕ}

def attachedAs (ns : Fin n ↪ ℕ) (size : Fin n → UInt64) : NvmeRaid n := { attached size with ns := ns }

theorem Registered.attachedAs {myRaid : MyRaid} {ns : Fin n ↪ ℕ} {size : Fin n → UInt64}
    (h : Registered myRaid (List.ofFn fun i => ⟨ns i, true, size i, true⟩)) :
    myRaid.numdisks = n ∧ myRaid.totalBlocks = (PcapReplay.attachedAs ns size).totalBlocks ∧
      ∀ (i : Fin n) (j : Fin maxDisks), (j : ℕ) = i →
        myRaid.disk j = ⟨some ((PcapReplay.attachedAs ns size).ns i), true⟩ := by
  refine ⟨by rw [h.numdisks, List.length_ofFn], ?_, fun i j hij => ?_⟩
  · rw [h.totalBlocks, List.map_ofFn]
    rfl
  · obtain ⟨j, hj⟩ := j
    obtain rfl : j = i := hij
    rw [h.entries ⟨i, hj⟩ (by simp)]
    simp [PcapReplay.attachedAs]

/-- A line of the listing. `%26s` is given a pointer into the table: what it prints goes on to the next NUL,
and a name of 26 bytes has none. -/
structure LsLine where
  id : ℕ
  name : List UInt8
  sectors : UInt64

/-- What is printed for the name, without the blanks in front. `behind` is the memory behind the table. -/
def LsLine.printed (line : LsLine) (behind : List UInt8) : List UInt8 := cString (line.name ++ behind)

structure Listing where
  lines : List LsLine
  showing : ℤ
  used : UInt64
  total : UInt64

/-- `app_run` of `ls`; `none` where it prints that there are no files. The percentage is left out. -/
def lsRun (raid : NvmeRaid n) : Option Listing :=
  if raid.numFiles = 0 then none
  else
    some
      { lines := ((slots n).zipIdx.filter fun s => (raid.file s.1).name 0 ≠ 0).map fun s =>
          { id := s.2
            name := (raid.msector s.1.1).fromName s.1.2
            sectors := (raid.file s.1).endBlock - (raid.file s.1).startBlock }
        showing := raid.numFiles
        used := raid.totalBlocks - rightFreeBlocks raid
        total := raid.totalBlocks }

variable [NeZero n]

def rmRun (raid : NvmeRaid n) : List Name → Nvme (List Bool × NvmeRaid n)
  | [] => pure ([], raid)
  | file :: files => do
    let (ret, raid) ← delFile raid file
    let (rets, raid) ← rmRun raid files
    pure ((ret ≠ 0) :: rets, raid)

inductive Tool where
  | format
  | ls
  | rm (files : List Name)
  | cpIn (toRaid : Name) (originSize : UInt64)
  | cpOut (fromRaid : Name)

inductive Report where
  | nothing
  | listing (l : Option Listing)
  | removed (ok : List Bool)
  /-- The size of the file that is made, unless the raid has none of that name. -/
  | copied (bytes : Option UInt64)

namespace Tool

def Accepted : Tool → Prop
  | rm files => files ≠ []
  | _ => True

def appInit (raid : NvmeRaid n) : Tool → Nvme (NvmeRaid n)
  | format => formatRaid raid
  | _ => pure raid

/-- The system file is mapped at `map`; `none` where the process has not returned from `app_run`. -/
def appRun (raid : NvmeRaid n) (rounds : ℕ) (map : Ptr) : Tool → Nvme (Option (Report × NvmeRaid n))
  | format => pure (some (.nothing, raid))
  | ls => pure (some (.listing (lsRun raid), raid))
  | rm files => do
    let (ok, raid) ← rmRun raid files
    pure (some (.removed ok, raid))
  | cpIn toRaid originSize => do
    match ← copyIn raid rounds toRaid map originSize with
    | none => pure none
    | some raid => pure (some (.nothing, raid))
  | cpOut fromRaid => do
    match ← copyOut raid rounds fromRaid map with
    | none => pure none
    | some bytes => pure (some (.copied bytes, raid))

/-- `main` behind the enumeration of the drives; `none` also where the mount exits. -/
def main (qsort : Qsort n) (raid : NvmeRaid n) (rounds : ℕ) (map : Ptr) (tool : Tool) :
    Nvme (Option (Report × NvmeRaid n)) := do
  let raid ← tool.appInit raid
  match ← createRaid qsort raid with
  | none => pure none
  | some raid => tool.appRun raid rounds map

end Tool
end PcapReplay
