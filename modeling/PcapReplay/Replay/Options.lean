import PcapReplay.Replay.Fields
import PcapReplay.Replay.Params

/-! The parsers of the command line options. What a parser does to the parameters and the code it
returns, or `none` when it leaves an array. -/

namespace PcapReplay
variable {ports lcores : UInt32}

def strchr : Text → Char → Option Text
  | [], _ => none
  | x :: s, c => if x = c then some (x :: s) else strchr s c

def strnlen (s : Text) (maxlen : ℕ) : ℕ := min s.length maxlen

theorem strnlen_eq_iff (s : Text) (max : ℕ) : strnlen s (max + 1) = max + 1 ↔ ¬ s.length ≤ max := by
  unfold strnlen
  omega

theorem strchr_some {s p : Text} {c : Char} (h : strchr s c = some p) :
    (∃ q, p = c :: q) ∧ p.length ≤ s.length := by
  induction s with
  | nil => exact absurd h (by simp [strchr])
  | cons x s ih =>
    rw [strchr] at h
    split_ifs at h with hx
    · obtain rfl := Option.some.inj h
      exact ⟨⟨s, by rw [hx]⟩, le_rfl⟩
    · obtain ⟨hp, hlen⟩ := ih h
      exact ⟨hp, hlen.trans (Nat.le_succ _)⟩

theorem strchr_closing {s p p' : Text} (h : strchr s '(' = some p) (h' : strchr p ')' = some p') :
    p'.length ≤ p.tail.length ∧ p'.length < s.length := by
  obtain ⟨⟨q, rfl⟩, hlen⟩ := strchr_some h
  rw [strchr, if_neg (by decide)] at h'
  obtain ⟨_, hlen'⟩ := strchr_some h'
  exact ⟨hlen', Nat.lt_of_le_of_lt hlen' hlen⟩

structure Tuple where
  port : UInt32
  queue : UInt32
  lcore : UInt32
  nvme : Option UInt32

namespace Side

def numVals : Side → ℕ
  | .rx => 3
  | .tx => 4

def tuple : Side → ℤ × List UInt32 → Option Tuple
  | .rx, (3, [port, queue, lcore]) => some { port, queue, lcore, nvme := none }
  | .tx, (4, [port, queue, nvme, lcore]) => some { port, queue, lcore, nvme := some nvme }
  | _, _ => none

end Side

namespace Replay

def setMask (replay : Replay ports lcores) (side : Side) (port : Fin ports.toNat)
    (queue : Fin maxQueuesPerNicPort) : Replay ports lcores :=
  { replay with
    nicQueueMask := fun s p q =>
      if s = side ∧ p = port ∧ q = queue then 1 else replay.nicQueueMask s p q }

def setNvme (replay : Replay ports lcores) (port : Fin ports.toNat) (queue : Fin maxQueuesPerNicPort) :
    Option UInt32 → Replay ports lcores
  | none => replay
  | some nvme =>
    { replay with
      nicTxQueueNvme := fun p q =>
        if p = port ∧ q = queue then nvme.toUInt8 else replay.nicTxQueueNvme p q }

def setLcore (replay : Replay ports lcores) (lcore : Fin lcores.toNat) (lp : LcoreParams) :
    Replay ports lcores :=
  { replay with lcoreParams := Function.update replay.lcoreParams lcore lp }

def assignQueue (replay : Replay ports lcores) (side : Side) (t : Tuple) (lcore : Fin lcores.toNat) :
    ℤ × Replay ports lcores :=
  let lp := replay.lcoreParams lcore
  let io := lp.io side
  if lp.type = .worker then (-7, replay)
  else
    let typed := replay.setLcore lcore { lp with type := .io }
    if ∃ q ∈ io.queues, q.port.toNat = t.port.toNat ∧ q.queue.toNat = t.queue.toNat then (-8, typed)
    else if h : maxNicQueuesPerIoLcore ≤ io.nNicQueues then (-9, typed)
    else
      (0, replay.setLcore lcore
        { type := .io
          io := Function.update lp.io side
            (io.push (Nat.not_le.mp h) { port := t.port.toUInt8, queue := t.queue.toUInt8 }) })

def storeTuple (replay : Replay ports lcores) (enabled : UInt32 → Bool) (side : Side) (t : Tuple) :
    ℤ × Replay ports lcores :=
  if h : ports.toNat ≤ t.port.toNat ∨ maxQueuesPerNicPort ≤ t.queue.toNat then (-3, replay)
  else
    let port : Fin ports.toNat := ⟨t.port.toNat, Nat.not_le.mp fun hp => h (Or.inl hp)⟩
    let queue : Fin maxQueuesPerNicPort := ⟨t.queue.toNat, Nat.not_le.mp fun hq => h (Or.inr hq)⟩
    if replay.nicQueueMask side port queue ≠ 0 then (-4, replay)
    else
      let masked := (replay.setMask side port queue).setNvme port queue t.nvme
      if enabled t.lcore = false then (-5, masked)
      else if hl : lcores.toNat ≤ t.lcore.toNat then (-6, masked)
      else masked.assignQueue side t ⟨t.lcore.toNat, Nat.not_le.mp hl⟩

end Replay

def maxChars : ℕ := 4096
def maxTuples : ℕ := 128

section parsers
variable (strsplit : Strsplit) (enabled : UInt32 → Bool)

def parseTuples (side : Side) (p0 : Text) (nTuples : ℕ) (replay : Replay ports lcores) :
    Option (ℤ × Replay ports lcores) :=
  match _h : strchr p0 '(' with
  | none => some (if nTuples = 0 then -11 else 0, replay)
  | some p =>
    match _h' : strchr p ')' with
    | none => some (-2, replay)
    | some p0' =>
      match strToUnsignedVals strsplit p.tail (p.tail.length - p0'.length) ',' side.numVals with
      | none => none
      | some r =>
        match side.tuple r with
        | none => some (-2, replay)
        | some t =>
          let stored := replay.storeTuple enabled side t
          if stored.1 ≠ 0 then some stored
          else if maxTuples < nTuples + 1 then some (-10, stored.2)
          else parseTuples side p0' (nTuples + 1) stored.2
termination_by p0.length
decreasing_by exact (strchr_closing _h _h').2

def parseArg (side : Side) (arg : Text) (replay : Replay ports lcores) : Option (ℤ × Replay ports lcores) :=
  if strnlen arg (maxChars + 1) = maxChars + 1 then some (-1, replay)
  else parseTuples strsplit enabled side arg 0 replay

def parseArgRx : Text → Replay ports lcores → Option (ℤ × Replay ports lcores) :=
  parseArg strsplit enabled .rx

def parseArgTx : Text → Replay ports lcores → Option (ℤ × Replay ports lcores) :=
  parseArg strsplit enabled .tx

def storePair (sizes : Side → UInt32) : List UInt32 → Side → UInt32
  | [] => sizes
  | [rx] => Function.update sizes .rx rx
  | rx :: tx :: _ => Function.update (Function.update sizes .rx rx) .tx tx

def maxSizeChars : ℕ := 63

def mbufArraySize : UInt32 := 512

def parseArgRsz (arg : Text) (replay : Replay ports lcores) : Option (ℤ × Replay ports lcores) :=
  if strnlen arg (maxSizeChars + 1) = maxSizeChars + 1 then some (-1, replay)
  else
    match strToUnsignedVals strsplit arg maxSizeChars ',' 2 with
    | none => none
    | some (ret, stored) =>
      let sizes := storePair replay.nicRingSize stored
      let replay := { replay with nicRingSize := sizes }
      if ret ≠ 2 then some (-2, replay)
      else if sizes .rx = 0 ∨ sizes .tx = 0 then some (-3, replay)
      else some (0, replay)

def parseArgBsz (arg : Text) (replay : Replay ports lcores) : Option (ℤ × Replay ports lcores) :=
  if strnlen arg (maxSizeChars + 1) = maxSizeChars + 1 then some (-1, replay)
  else
    match strToUnsignedVals strsplit arg maxSizeChars ',' 2 with
    | none => none
    | some (ret, stored) =>
      let sizes := storePair replay.burstSizeIo stored
      let replay := { replay with burstSizeIo := sizes }
      if ret ≠ 2 then some (-2, replay)
      else if sizes .rx = 0 ∨ sizes .tx = 0 then some (-7, replay)
      else if mbufArraySize < sizes .rx ∨ mbufArraySize < sizes .tx then some (-8, replay)
      else some (0, replay)

end parsers
end PcapReplay
