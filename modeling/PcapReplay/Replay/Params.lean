import Mathlib.Data.Fintype.Fin
import Mathlib.Logic.Function.Basic
import Mathlib.Data.List.FinRange

/-! The parameters of the replay program, and what is asked of them. -/

namespace PcapReplay

inductive LcoreType where
  | disabled
  | io
  | worker
  | workerSlave
deriving DecidableEq

inductive Side where
  | rx
  | tx
deriving DecidableEq

/-- `REPLAY_MAX_RX_QUEUES_PER_NIC_PORT` and `REPLAY_MAX_TX_QUEUES_PER_NIC_PORT`. -/
def maxQueuesPerNicPort : ℕ := 128

/-- `REPLAY_MAX_NIC_RX_QUEUES_PER_IO_LCORE`, `REPLAY_MAX_NIC_TX_QUEUES_PER_IO_LCORE`, and
`REPLAY_MAX_NIC_TX_PORTS_PER_IO_LCORE`, which is the length of the sending array. -/
def maxNicQueuesPerIoLcore : ℕ := 16

structure NicQueue where
  port : UInt8
  queue : UInt8
deriving DecidableEq

structure IoSide where
  nicQueues : Fin maxNicQueuesPerIoLcore → NicQueue
  nNicQueues : ℕ

structure LcoreParams where
  io : Side → IoSide
  type : LcoreType

/-- `struct replay_params`, with `REPLAY_MAX_NIC_PORTS` ports and `REPLAY_MAX_LCORES` lcores. -/
structure Replay (ports lcores : UInt32) where
  lcoreParams : Fin lcores.toNat → LcoreParams
  nicQueueMask : Side → Fin ports.toNat → Fin maxQueuesPerNicPort → UInt8
  nicTxQueueNvme : Fin ports.toNat → Fin maxQueuesPerNicPort → UInt8
  nicRingSize : Side → UInt32
  burstSizeIo : Side → UInt32

namespace IoSide

def queues (io : IoSide) : List NicQueue := (List.ofFn io.nicQueues).take io.nNicQueues

def push (io : IoSide) (h : io.nNicQueues < maxNicQueuesPerIoLcore) (q : NicQueue) : IoSide where
  nicQueues := Function.update io.nicQueues ⟨io.nNicQueues, h⟩ q
  nNicQueues := io.nNicQueues + 1

theorem length_queues {io : IoSide} (h : io.nNicQueues ≤ maxNicQueuesPerIoLcore) :
    io.queues.length = io.nNicQueues := by
  rw [queues, List.length_take, List.length_ofFn, Nat.min_eq_left h]

theorem mem_queues_iff {io : IoSide} {q : NicQueue} :
    q ∈ io.queues ↔ ∃ i : Fin maxNicQueuesPerIoLcore, ↑i < io.nNicQueues ∧ io.nicQueues i = q := by
  rw [queues, List.mem_take_iff_getElem]
  simp only [List.length_ofFn, List.getElem_ofFn]
  constructor
  · rintro ⟨i, hi, rfl⟩
    exact ⟨⟨i, (lt_min_iff.mp hi).2⟩, (lt_min_iff.mp hi).1, rfl⟩
  · rintro ⟨i, hi, rfl⟩
    exact ⟨i, lt_min hi i.isLt, rfl⟩

@[simp] theorem nNicQueues_push (io : IoSide) (h : io.nNicQueues < maxNicQueuesPerIoLcore) (q : NicQueue) :
    (io.push h q).nNicQueues = io.nNicQueues + 1 := rfl

@[simp] theorem queues_push (io : IoSide) (h : io.nNicQueues < maxNicQueuesPerIoLcore) (q : NicQueue) :
    (io.push h q).queues = io.queues ++ [q] := by
  have hlen : io.queues.length = io.nNicQueues := length_queues h.le
  have hlen' : (io.push h q).queues.length = io.nNicQueues + 1 := length_queues h
  apply List.ext_getElem
  · rw [hlen', List.length_append, hlen, List.length_singleton]
  · intro i h₁ h₂
    rw [hlen'] at h₁
    simp only [queues, push, List.getElem_take, List.getElem_ofFn]
    rcases Nat.lt_or_eq_of_le (Nat.le_of_lt_succ h₁) with hi | hi
    · have hne : (⟨i, hi.trans h⟩ : Fin maxNicQueuesPerIoLcore) ≠ ⟨io.nNicQueues, h⟩ := by
        rw [Ne, Fin.mk.injEq]
        exact hi.ne
      rw [Function.update_of_ne hne, List.getElem_append_left (by rw [← queues, hlen]; exact hi)]
      simp
    · subst hi
      rw [Function.update_self, List.getElem_append_right (by rw [← queues, hlen])]
      simp

end IoSide

namespace Replay
variable {ports lcores : UInt32}

def zero (ports lcores : UInt32) : Replay ports lcores where
  lcoreParams _ := { io := fun _ => { nicQueues := fun _ => ⟨0, 0⟩, nNicQueues := 0 }, type := .disabled }
  nicQueueMask _ _ _ := 0
  nicTxQueueNvme _ _ := 0
  nicRingSize _ := 0
  burstSizeIo _ := 0

/-- `replay_get_nic_rx_queues_per_port` and `replay_get_nic_tx_queues_per_port`. -/
def getNicQueuesPerPort (replay : Replay ports lcores) (side : Side) (port : UInt8) : ℤ :=
  if h : ports.toNat ≤ port.toNat then -1
  else (List.finRange maxQueuesPerNicPort).countP fun queue =>
    replay.nicQueueMask side ⟨port.toNat, Nat.not_le.mp h⟩ queue = 1

/-- `replay_get_lcore_for_nic_rx` and `replay_get_lcore_for_nic_tx`: the lcore when the code is 0,
`none` when it is -1. -/
def getLcoreForNic (replay : Replay ports lcores) (side : Side) (port queue : UInt8) :
    Option (Fin lcores.toNat) :=
  (List.finRange lcores.toNat).find? fun lcore =>
    let lp := replay.lcoreParams lcore
    lp.type = .io ∧ ∃ q ∈ (lp.io side).queues, q.port = port ∧ q.queue = queue

end Replay
end PcapReplay
