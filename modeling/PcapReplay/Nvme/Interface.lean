import PcapReplay.Fs.Layout
import PcapReplay.Lib.Program
import PcapReplay.Lib.Dma

/-! What the programs ask of the machine: the calls into SPDK, the two task counters, and the
copies between buffers. -/

namespace PcapReplay
open Interaction

inductive Space where
  | mem (buf : ℕ)
  | disk (ns : ℕ)
deriving DecidableEq

structure Ptr where
  buf : ℕ
  off : ℕ
deriving DecidableEq

def Ptr.add (p : Ptr) (bytes : ℕ) : Ptr := { p with off := p.off + bytes }

inductive Dir where
  | read
  | write
deriving DecidableEq

structure Command where
  dir : Dir
  ns : ℕ
  payload : Ptr
  lba : UInt64
  lbaCount : UInt32
deriving DecidableEq

def Command.xfer (c : Command) : Dma.Xfer Space :=
  match c.dir with
  | .read =>
    { src := .disk c.ns, srcOff := c.lba.toNat * sectorLength
      dst := .mem c.payload.buf, dstOff := c.payload.off
      len := c.lbaCount.toNat * sectorLength }
  | .write =>
    { src := .mem c.payload.buf, srcOff := c.payload.off
      dst := .disk c.ns, dstOff := c.lba.toNat * sectorLength
      len := c.lbaCount.toNat * sectorLength }

def memXfer (dst src : Ptr) (len : ℕ) : Dma.Xfer Space where
  src := .mem src.buf
  srcOff := src.off
  dst := .mem dst.buf
  dstOff := dst.off
  len := len

inductive Op where
  /-- Submit a command that counts in `task_completed` when it completes. -/
  | cmd (c : Command)
  /-- `task_scheduled++`. -/
  | schedule
  /-- `spdk_nvme_qpair_process_completions`. -/
  | process (ns : ℕ)
  /-- `task_scheduled > task_completed`. -/
  | waiting
  /-- `spdk_malloc`, and `spdk_zmalloc` when `zero` is set. -/
  | malloc (len : ℕ) (zero : Bool)
  | memcpy (dst src : Ptr) (len : ℕ)
  /-- A one sector command and the wait for it: the code, and the bytes then in the buffer. -/
  | readWait (ns : ℕ) (lba : UInt64)
  | writeWait (ns : ℕ) (lba : UInt64) (data : Sector)

@[reducible] def Ans : Op → Type
  | .cmd _ => ℤ
  | .schedule => Unit
  | .process _ => Unit
  | .waiting => Bool
  | .malloc _ _ => Option ℕ
  | .memcpy _ _ _ => Unit
  | .readWait _ _ => ℤ × Sector
  | .writeWait _ _ _ => ℤ

instance (o : Op) : Inhabited (Ans o) := by
  cases o <;> exact ⟨default⟩

abbrev Nvme := Prog Op Ans

def Op.ask (o : Op) : Nvme (Ans o) := Prog.ask o

def cmd (c : Command) : Nvme ℤ := (Op.cmd c).ask
def schedule : Nvme Unit := Op.schedule.ask
def process (ns : ℕ) : Nvme Unit := (Op.process ns).ask
def waiting : Nvme Bool := Op.waiting.ask
def spdkMalloc (len : ℕ) : Nvme (Option ℕ) := (Op.malloc len false).ask
def spdkZmalloc (len : ℕ) : Nvme (Option ℕ) := (Op.malloc len true).ask
def memcpy (dst src : Ptr) (len : ℕ) : Nvme Unit := (Op.memcpy dst src len).ask

def sioRead (ns : ℕ) (lba : UInt64) : Nvme (ℤ × Sector) := (Op.readWait ns lba).ask
def sioWrite (ns : ℕ) (lba : UInt64) (data : Sector) : Nvme ℤ := (Op.writeWait ns lba data).ask

/-- `sio_read_pinit` of sector 0 into `payload`: the code and the payload left behind. The
pinned buffer is copied whatever the read returned. -/
def sioReadPinit (ns : ℕ) (payload : MetaSector) : Nvme (ℤ × MetaSector) := do
  match ← spdkMalloc sectorLength with
  | none => pure (-1, payload)
  | some _ =>
    let r ← sioRead ns 0
    pure (r.1, .ofBytes r.2)

def sioWritePinit (ns : ℕ) (payload : MetaSector) : Nvme ℤ := do
  match ← spdkMalloc sectorLength with
  | none => pure (-1)
  | some _ => sioWrite ns 0 payload.toBytes

end PcapReplay
