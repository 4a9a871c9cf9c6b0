import PcapReplay.Lib.Trace
import PcapReplay.Replay.Options

/-! The loops of an lcore that receives and sends packets, over the calls into DPDK. -/

namespace PcapReplay
open Interaction Prog
variable {ports lcores : UInt32}

abbrev Mbuf := ℕ

/-- The arrays of an lcore that the loops index. -/
inductive IoArray where
  | nicQueues (side : Side)
  | mbufIn
  | mbufOut
deriving DecidableEq

def maxNicTxPortsPerIoLcore : ℕ := 16

def IoArray.length : IoArray → ℕ
  | nicQueues _ => maxNicQueuesPerIoLcore
  | mbufIn => mbufArraySize.toNat
  | mbufOut => maxNicTxPortsPerIoLcore

inductive IoOp where
  | rxBurst (port queue : UInt8) (nbPkts : UInt16)
  | ctrlmbufAlloc
  | txBurst (port queue : UInt8) (txPkts : List Mbuf) (nbPkts : UInt16)
  | mbufFree (m : Mbuf)
  | index (a : IoArray) (i : ℕ)

abbrev IoAns : IoOp → Type
  | .rxBurst _ _ _ => List Mbuf
  | .ctrlmbufAlloc => Option Mbuf
  | .txBurst _ _ _ _ => UInt16
  | .mbufFree _ => Unit
  | .index _ _ => Unit

abbrev Io (α : Type) := Prog IoOp IoAns α

abbrev IoTrace := List ((o : IoOp) × IoAns o)

/-- No burst is larger than what was asked for or offered. -/
def BurstContract : (o : IoOp) → IoAns o → Prop
  | .rxBurst _ _ nbPkts, pkts => pkts.length ≤ nbPkts.toNat
  | .ctrlmbufAlloc, _ => True
  | .txBurst _ _ _ nbPkts, nPkts => nPkts.toNat ≤ nbPkts.toNat
  | .mbufFree _, _ => True
  | .index _ _, _ => True

abbrev rteEthRxBurst (port queue : UInt8) (nbPkts : UInt16) : Io (List Mbuf) :=
  ask (IoOp.rxBurst port queue nbPkts)

abbrev rteCtrlmbufAlloc : Io (Option Mbuf) := ask IoOp.ctrlmbufAlloc

abbrev rteEthTxBurst (port queue : UInt8) (txPkts : List Mbuf) (nbPkts : UInt16) : Io UInt16 :=
  ask (IoOp.txBurst port queue txPkts nbPkts)

abbrev rteMbufFree (m : Mbuf) : Io Unit := ask (IoOp.mbufFree m)

abbrev indexArray (a : IoArray) (i : ℕ) : Io Unit := ask (IoOp.index a i)

theorem toUInt16_toNat {b : UInt32} (h : b.toNat ≤ 512) : b.toUInt16.toNat = b.toNat := by
  rw [UInt32.toNat_toUInt16]
  exact Nat.mod_eq_of_lt (Nat.lt_of_le_of_lt h (by decide))

/-- A pass over `nic_queues`. What lies behind the array is unknown, and the pass ends there. -/
def overQueues (io : IoSide) (side : Side) (body : NicQueue → Io Unit) : List ℕ → Io Unit
  | [] => pure ()
  | i :: is => do
    indexArray (.nicQueues side) i
    if h : i < maxNicQueuesPerIoLcore then
      body (io.nicQueues ⟨i, h⟩)
      overQueues io side body is
    else pure ()

def dropAll : ℕ → List Mbuf → Io Unit
  | _, [] => pure ()
  | j, pkt :: pkts => do
    indexArray .mbufIn j
    rteMbufFree pkt
    dropAll (j + 1) pkts

def rxQueue (bszRd : UInt32) (q : NicQueue) : Io Unit := do
  let pkts ← rteEthRxBurst q.port q.queue bszRd.toUInt16
  dropAll 0 pkts

def replayLcoreIoRx (io : IoSide) (bszRd : UInt32) : Io Unit :=
  overQueues io .rx (rxQueue bszRd) (List.range io.nNicQueues)

/-- `while (n_pkts < n_mbufs)`, which counts `n_mbufs` down. -/
def freeUnsent (tmpbuf : Mbuf) (nPkts : ℕ) : ℕ → Io Unit
  | 0 => pure ()
  | nMbufs + 1 =>
    if nPkts < nMbufs + 1 then do
      rteMbufFree tmpbuf
      freeUnsent tmpbuf nPkts nMbufs
    else pure ()

def txQueue (bszTxWr : UInt32) (q : NicQueue) : Io Unit := do
  match ← rteCtrlmbufAlloc with
  | none => pure ()
  | some tmpbuf =>
    -- the burst begins at the address of the one pointer
    let nPkts ← rteEthTxBurst q.port q.queue [tmpbuf] bszTxWr.toUInt16
    if nPkts.toNat < bszTxWr.toNat then freeUnsent tmpbuf nPkts.toNat bszTxWr.toNat
    else indexArray .mbufOut q.port.toNat

def replayLcoreIoTx (io : IoSide) (bszTxWr : UInt32) : Io Unit :=
  overQueues io .tx (txQueue bszTxWr) (List.range io.nNicQueues)

def ifQueues (io : IoSide) (pass : Io Unit) : Io Unit := if 0 < io.nNicQueues then pass else pure ()

/-- So many rounds of the loop, which has no end. -/
def replayLcoreMainLoopIo (replay : Replay ports lcores) (lcore : Fin lcores.toNat) : ℕ → Io Unit
  | 0 => pure ()
  | rounds + 1 => do
    let lp := (replay.lcoreParams lcore).io
    ifQueues (lp .rx) (replayLcoreIoRx (lp .rx) (replay.burstSizeIo .rx))
    ifQueues (lp .tx) (replayLcoreIoTx (lp .tx) (replay.burstSizeIo .tx))
    replayLcoreMainLoopIo replay lcore rounds

def eagerNic : (o : IoOp) → IoAns o
  | .rxBurst _ _ _ => []
  | .ctrlmbufAlloc => some 0
  | .txBurst _ _ _ nbPkts => nbPkts
  | .mbufFree _ => ()
  | .index _ _ => ()

theorem eagerNic_contract (o : IoOp) : BurstContract o (eagerNic o) := by
  cases o with
  | rxBurst _ _ nbPkts => exact Nat.zero_le nbPkts.toNat
  | ctrlmbufAlloc => trivial
  | txBurst _ _ _ nbPkts => exact le_refl nbPkts.toNat
  | mbufFree _ => trivial
  | index _ _ => trivial

def eagerTrace (p : Io Unit) : IoTrace := (dry eagerNic p).1.map fun o => ⟨o, eagerNic o⟩

theorem traces_eager (p : Io Unit) : Traces p (eagerTrace p) () := traces_dry eagerNic p

theorem eagerTrace_contract (p : Io Unit) : ∀ e ∈ eagerTrace p, BurstContract e.1 e.2 := by
  intro e he
  obtain ⟨o, _, rfl⟩ := List.mem_map.mp he
  exact eagerNic_contract o

section eager
variable {o : IoOp}

theorem mem_eagerTrace {p : Io Unit} (h : o ∈ (dry eagerNic p).1) : ⟨o, eagerNic o⟩ ∈ eagerTrace p :=
  List.mem_map_of_mem h

theorem mem_dry_overQueues {io : IoSide} {side : Side} {body : NicQueue → Io Unit} {is : List ℕ}
    (his : ∀ i ∈ is, i < maxNicQueuesPerIoLcore) {i : Fin maxNicQueuesPerIoLcore} (hi : ↑i ∈ is)
    (ho : o ∈ (dry eagerNic (body (io.nicQueues i))).1) :
    o ∈ (dry eagerNic (overQueues io side body is)).1 := by
  induction is with
  | nil => exact absurd hi List.not_mem_nil
  | cons j is ih =>
    rw [List.forall_mem_cons] at his
    rw [overQueues, dif_pos his.1, dry_bind, dry_bind]
    apply List.mem_append_right
    rcases List.mem_cons.mp hi with heq | hlater
    · apply List.mem_append_left
      subst heq
      exact ho
    · exact List.mem_append_right _ (ih his.2 hlater)

theorem mem_dry_mainLoopIo {replay : Replay ports lcores} {lcore : Fin lcores.toNat}
    (hroom : ((replay.lcoreParams lcore).io .tx).nNicQueues ≤ maxNicQueuesPerIoLcore)
    {i : Fin maxNicQueuesPerIoLcore} (hi : ↑i < ((replay.lcoreParams lcore).io .tx).nNicQueues)
    (ho : o ∈ (dry eagerNic
      (txQueue (replay.burstSizeIo .tx) (((replay.lcoreParams lcore).io .tx).nicQueues i))).1) :
    o ∈ (dry eagerNic (replayLcoreMainLoopIo replay lcore 1)).1 := by
  have hpass : o ∈ (dry eagerNic (ifQueues ((replay.lcoreParams lcore).io .tx)
      (replayLcoreIoTx ((replay.lcoreParams lcore).io .tx) (replay.burstSizeIo .tx)))).1 := by
    rw [ifQueues, if_pos (Nat.zero_lt_of_lt hi)]
    apply mem_dry_overQueues
    · exact fun j hj => lt_of_lt_of_le (List.mem_range.mp hj) hroom
    · exact List.mem_range.mpr hi
    · exact ho
  unfold replayLcoreMainLoopIo
  rw [dry_bind, dry_bind]
  exact List.mem_append_right _ (List.mem_append_left _ hpass)

end eager
end PcapReplay
