import PcapReplay.Fs.Addressing
import PcapReplay.Lib.LittleEndian
import Mathlib.Logic.Function.Basic

/-! The capture writer of `spcap.c`. A run is `none` from the moment at which it touches memory
outside a staging buffer. -/

namespace PcapReplay
open LittleEndian
variable {n : ℕ}

def numBufs : ℕ := 3

def buffSize : ℕ := superSectorLength * numBufs

@[simp] theorem buffSize_eq : buffSize = 393216 := rfl

structure SuperWrite (n : ℕ) where
  disk : Fin n
  lba : UInt64
  data : Fin superSectorLength → UInt8

/-- `buffs d` is what the staging buffer of disk `d` holds, or `none` for NULL, and `currPtr d` an
offset into it. `wrote` lists the calls of `sio_write`, whose codes are not looked at. -/
structure Spcap (n : ℕ) where
  file : MetaFile
  buffs : Fin n → Option (ℕ → UInt8)
  currPtr : Fin n → ℕ
  curlba : Fin n → UInt64
  dataWrote : Fin n → ℕ
  wrote : List (SuperWrite n)

/-- What `pcap_next` returns: the header and the bytes at the packet. -/
structure Packet where
  len : UInt32
  caplen : UInt32
  payload : ℕ → UInt8

def spcapHeader (nsw8 size esize : ℕ) (a : ℕ) : UInt8 :=
  if a < 4 then byte nsw8 a
  else if a < 6 then byte size (a - 4)
  else byte esize (a - 6)

def headerLength : ℕ := 8

def copied (buff : ℕ → UInt8) (start len : ℕ) (payload : ℕ → UInt8) (a : ℕ) : UInt8 :=
  if start ≤ a ∧ a < start + len then payload (a - start) else buff a

namespace Spcap

def put (sp : Spcap n) (d : Fin n) (toWrite : ℕ) (payload : ℕ → UInt8) : Option (Spcap n) :=
  match sp.buffs d with
  | none => none
  | some buff =>
    if buffSize < sp.currPtr d + toWrite then none
    else
      some { sp with
        buffs := Function.update sp.buffs d (some (copied buff (sp.currPtr d) toWrite payload))
        dataWrote := Function.update sp.dataWrote d (sp.dataWrote d + toWrite)
        currPtr := Function.update sp.currPtr d (sp.currPtr d + toWrite) }

/-- `sio_write` of the supersector that begins `back` bytes before `currPtr`, and the advance
after it. -/
def store (sp : Spcap n) (d : Fin n) (back : ℕ) : Option (Spcap n) :=
  match sp.buffs d with
  | none => none
  | some buff =>
    let start := sp.currPtr d - back
    if sp.currPtr d < back ∨ buffSize < start + superSectorLength then none
    else
      some { sp with
        wrote := sp.wrote ++ [⟨d, sp.curlba d, fun a => buff (start + a)⟩]
        curlba := Function.update sp.curlba d (sp.curlba d + UInt64.ofNat superSectorNum)
        file := { sp.file with endBlock := sp.file.endBlock + UInt64.ofNat superSectorNum }
        currPtr := if sp.currPtr d = buffSize then Function.update sp.currPtr d 0 else sp.currPtr }

end Spcap

section init
variable [NeZero n]

def initDisk (startBlock : UInt64) (i : ℕ) : Fin n :=
  superGetdisk n (startBlock + UInt64.ofNat (i * superSectorNum))

def initLba (n : ℕ) (startBlock : UInt64) (i : ℕ) : UInt64 :=
  superGetdisklba n (startBlock + UInt64.ofNat (i * superSectorNum))

/-- The loop of `initSpcap`; `zmalloc i` says whether its `i`th allocation succeeds. -/
def initLoop (zmalloc : ℕ → Bool) : List ℕ → Spcap n → ℤ × Spcap n
  | [], sp => (0, sp)
  | i :: is, sp =>
    let currentlba := initLba n sp.file.startBlock i
    let currentDsk := initDisk sp.file.startBlock i
    let sp := { sp with
      buffs := Function.update sp.buffs currentDsk (if zmalloc i then some fun _ => 0 else none)
      currPtr := Function.update sp.currPtr currentDsk 0 }
    if zmalloc i then
      initLoop zmalloc is { sp with
        dataWrote := Function.update sp.dataWrote currentDsk 0
        curlba := Function.update sp.curlba currentDsk currentlba }
    else (-1, sp)

def blank (file : MetaFile) : Spcap n where
  file := file
  buffs _ := none
  currPtr _ := 0
  curlba _ := 0
  dataWrote _ := 0
  wrote := []

def initSpcap (zmalloc : ℕ → Bool) (file : MetaFile) : ℤ × Spcap n :=
  initLoop zmalloc (List.range n) (blank file)

end init

def spcapDstDisk [NeZero n] (dataWrote : Fin n → ℕ) : Fin n :=
  (List.finRange n).foldl (fun diskId i => if dataWrote i < dataWrote diskId then i else diskId) 0

def flushDisk (sp : Spcap n) (d : Fin n) : Option (Spcap n) :=
  if sp.dataWrote d % superSectorLength ≠ 0 then sp.store d (sp.dataWrote d % superSectorLength)
  else some sp

def flushBuffs (sp : Spcap n) : Option (Spcap n) := (List.finRange n).foldlM flushDisk sp

def writeBuff (sp : Spcap n) (d : Fin n) (size : ℕ) (payload : ℕ → UInt8) : Option (Spcap n) :=
  let used := sp.dataWrote d % superSectorLength
  let toWrite := if superSectorLength < used + size then superSectorLength - used else size
  (sp.put d toWrite payload).bind fun sp =>
    -- the source negates `dataWrote` before it takes the remainder
    (if (if sp.dataWrote d = 0 then 1 else 0) % superSectorLength ≠ 0 then
      sp.store d superSectorLength else some sp).bind fun sp =>
    -- the rest is taken from the start of the payload again
    if _h : size - toWrite = 0 then some sp else writeBuff sp d (size - toWrite) payload
termination_by size
decreasing_by
  have hused : used < superSectorLength := Nat.mod_lt _ (by decide)
  simp only [toWrite] at _h ⊢
  split_ifs at _h ⊢ <;> omega

def freeSpcap (sp : Spcap n) : Option (Spcap n) :=
  ((List.finRange n).foldlM (fun sp d => writeBuff sp d headerLength (spcapHeader 0 0 0)) sp).bind
    flushBuffs

variable [NeZero n]

def writePkt (sp : Spcap n) (nsw8 size esize : ℕ) (payload : ℕ → UInt8) : Option (Spcap n) :=
  let dstDisk := spcapDstDisk sp.dataWrote
  (writeBuff sp dstDisk headerLength (spcapHeader nsw8 size esize)).bind fun sp =>
    writeBuff sp dstDisk size payload

def writePCAPPkt (sp : Spcap n) (p : Packet) : Option (Spcap n) :=
  writePkt sp 0 p.len.toNat p.caplen.toNat p.payload

/-- The pcap branch of `cp`, up to the metadata update. -/
def importPcap (zmalloc : ℕ → Bool) (file : MetaFile) (pkts : List Packet) : Option (Spcap n) :=
  let file := { file with endBlock := file.startBlock }
  (pkts.foldlM writePCAPPkt (initSpcap zmalloc file).2).bind freeSpcap

end PcapReplay
