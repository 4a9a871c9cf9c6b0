import PcapReplay.Replay.Configured
import PcapReplay.Replay.Runtime

/-! The indices in the loops of an lcore against the lengths of its arrays. -/

namespace PcapReplay
open Interaction Prog Tokens
variable {ports lcores : UInt32}

def IoOp.InBounds : IoOp → Prop
  | .rxBurst _ _ _ => True
  | .ctrlmbufAlloc => True
  | .txBurst _ _ _ _ => True
  | .mbufFree _ => True
  | .index a i => i < a.length

/-- No burst call within its contract leads the program out of an array. -/
def StaysInBounds (p : Io Unit) : Prop := EnsuresIf BurstContract IoOp.InBounds p

theorem StaysInBounds.bind {p : Io Unit} {f : Unit → Io Unit} (hp : StaysInBounds p)
    (hf : StaysInBounds (f ())) : StaysInBounds (p >>= f) := EnsuresIf.bind hp fun _ => hf

theorem staysInBounds_pure : StaysInBounds (pure ()) := ensuresIf_pure ()

theorem dropAll_inBounds {j : ℕ} {pkts : List Mbuf} (h : j + pkts.length ≤ mbufArraySize.toNat) :
    StaysInBounds (dropAll j pkts) := by
  induction pkts generalizing j with
  | nil => exact staysInBounds_pure
  | cons pkt pkts ih =>
    rw [List.length_cons, Nat.add_comm pkts.length 1, ← Nat.add_assoc] at h
    have hj : j < mbufArraySize.toNat := Nat.lt_of_lt_of_le (Nat.lt_succ_self j) (Nat.le_of_add_right_le h)
    exact EnsuresIf.call hj fun _ _ => EnsuresIf.call trivial fun _ _ => ih h

theorem rxQueue_inBounds {bszRd : UInt32} (h : bszRd.toNat ≤ mbufArraySize.toNat) (q : NicQueue) :
    StaysInBounds (rxQueue bszRd q) := by
  apply EnsuresIf.call trivial
  intro pkts hpkts
  apply dropAll_inBounds
  have hcast : bszRd.toUInt16.toNat ≤ bszRd.toNat := by
    rw [UInt32.toNat_toUInt16]
    exact Nat.mod_le _ _
  rw [Nat.zero_add]
  exact (hpkts.trans hcast).trans h

theorem freeUnsent_inBounds (tmpbuf : Mbuf) (nPkts nMbufs : ℕ) :
    StaysInBounds (freeUnsent tmpbuf nPkts nMbufs) := by
  induction nMbufs with
  | zero => exact staysInBounds_pure
  | succ nMbufs ih =>
    unfold freeUnsent
    split_ifs
    · exact EnsuresIf.call trivial fun _ _ => ih
    · exact staysInBounds_pure

theorem txQueue_inBounds (bszTxWr : UInt32) {q : NicQueue} (h : q.port.toNat < maxNicTxPortsPerIoLcore) :
    StaysInBounds (txQueue bszTxWr q) := by
  apply EnsuresIf.call trivial
  intro alloc _
  cases alloc with
  | none => exact staysInBounds_pure
  | some tmpbuf =>
    apply EnsuresIf.call trivial
    intro nPkts _
    split_ifs
    · exact freeUnsent_inBounds tmpbuf _ _
    · exact EnsuresIf.call h fun _ _ => staysInBounds_pure

theorem overQueues_inBounds {io : IoSide} {side : Side} {body : NicQueue → Io Unit} {is : List ℕ}
    (his : ∀ i ∈ is, i < maxNicQueuesPerIoLcore)
    (hbody : ∀ i : Fin maxNicQueuesPerIoLcore, ↑i ∈ is → StaysInBounds (body (io.nicQueues i))) :
    StaysInBounds (overQueues io side body is) := by
  induction is with
  | nil => exact staysInBounds_pure
  | cons i is ih =>
    rw [List.forall_mem_cons] at his
    have hi : (IoOp.index (.nicQueues side) i).InBounds := his.1
    rw [overQueues, dif_pos his.1]
    apply EnsuresIf.call hi
    intro _ _
    apply StaysInBounds.bind
    · exact hbody ⟨i, his.1⟩ List.mem_cons_self
    · exact ih his.2 fun j hj => hbody j (List.mem_cons_of_mem i hj)

theorem pass_inBounds {io : IoSide} {side : Side} {body : NicQueue → Io Unit}
    (hroom : io.nNicQueues ≤ maxNicQueuesPerIoLcore) (hbody : ∀ q ∈ io.queues, StaysInBounds (body q)) :
    StaysInBounds (ifQueues io (overQueues io side body (List.range io.nNicQueues))) := by
  unfold ifQueues
  split_ifs
  · apply overQueues_inBounds
    · exact fun i hi => Nat.lt_of_lt_of_le (List.mem_range.mp hi) hroom
    · exact fun i hi => hbody _ (IoSide.mem_queues_iff.mpr ⟨i, List.mem_range.mp hi, rfl⟩)
  · exact staysInBounds_pure

theorem mainLoopIo_inBounds {replay : Replay ports lcores} {lcore : Fin lcores.toNat}
    (hroom : ∀ side, ((replay.lcoreParams lcore).io side).nNicQueues ≤ maxNicQueuesPerIoLcore)
    (hburst : (replay.burstSizeIo .rx).toNat ≤ mbufArraySize.toNat)
    (hports : ∀ q ∈ ((replay.lcoreParams lcore).io .tx).queues, q.port.toNat < maxNicTxPortsPerIoLcore)
    (rounds : ℕ) : StaysInBounds (replayLcoreMainLoopIo replay lcore rounds) := by
  induction rounds with
  | zero => exact staysInBounds_pure
  | succ rounds ih =>
    apply StaysInBounds.bind
    · exact pass_inBounds (hroom .rx) fun q _ => rxQueue_inBounds hburst q
    · apply StaysInBounds.bind
      · exact pass_inBounds (hroom .tx) fun q hq => txQueue_inBounds _ (hports q hq)
      · exact ih

theorem mem_dry_txQueue {bszTxWr : UInt32} (hmax : bszTxWr.toNat ≤ 512) (q : NicQueue) :
    IoOp.index .mbufOut q.port.toNat ∈ (dry eagerNic (txQueue bszTxWr q)).1 := by
  have hcount := toUInt16_toNat hmax
  have hsent : (dry eagerNic (txQueue bszTxWr q)).1 = .ctrlmbufAlloc ::
      .txBurst q.port q.queue [0] bszTxWr.toUInt16 :: [.index .mbufOut q.port.toNat] := by
    show IoOp.ctrlmbufAlloc :: IoOp.txBurst q.port q.queue [0] bszTxWr.toUInt16 ::
      (dry eagerNic (if bszTxWr.toUInt16.toNat < bszTxWr.toNat
        then freeUnsent 0 bszTxWr.toUInt16.toNat bszTxWr.toNat else indexArray .mbufOut q.port.toNat)).1 = _
    rw [if_neg (by rw [hcount]; exact lt_irrefl _)]
    rfl
  rw [hsent]
  exact List.mem_cons_of_mem _ (List.mem_cons_of_mem _ List.mem_cons_self)

section accepted
variable {strsplit : Strsplit} {enabled : UInt32 → Bool} {args : List (Opt × Text)}
  {replay : Replay 32 lcores}

theorem Configured.room (h : Configured strsplit enabled args replay) (lcore : Fin lcores.toNat)
    (side : Side) : ((replay.lcoreParams lcore).io side).nNicQueues ≤ maxNicQueuesPerIoLcore := by
  obtain ⟨k, ha⟩ := h.agrees (by decide) side
  exact ha.room lcore

theorem Configured.reaches_port (h : Configured strsplit enabled args replay) {tuple : Tuple}
    (ht : tuple ∈ allTuples strsplit .tx args) : ∃ lcore,
    ⟨.index .mbufOut tuple.port.toNat, ()⟩ ∈ eagerTrace (replayLcoreMainLoopIo replay lcore 1) := by
  obtain ⟨lcore, q, hq, hport, _⟩ := (h.queued_iff (by decide)).mpr ⟨tuple, ht, rfl, rfl⟩
  obtain ⟨i, hi, rfl⟩ := IoSide.mem_queues_iff.mp hq
  refine ⟨lcore, mem_eagerTrace (mem_dry_mainLoopIo (h.room lcore .tx) hi ?_)⟩
  rw [← hport]
  exact mem_dry_txQueue (h.burst .tx).2 _

/-- The loops stay in their arrays, whatever the network does, when every port to send on is small
enough for the array of the lcore. -/
theorem configured_inBounds_iff (h : Configured strsplit enabled args replay) :
    (∀ lcore rounds t, Traces (replayLcoreMainLoopIo replay lcore rounds) t () →
      (∀ e ∈ t, BurstContract e.1 e.2) → ∀ e ∈ t, e.1.InBounds) ↔
    ∀ tuple ∈ allTuples strsplit .tx args, tuple.port.toNat < maxNicTxPortsPerIoLcore := by
  constructor
  · intro hall tuple ht
    obtain ⟨lcore, hreached⟩ := h.reaches_port ht
    exact hall lcore 1 _ (traces_eager _) (eagerTrace_contract _) _ hreached
  · intro hports lcore rounds t ht hc
    have hsmall : ∀ q ∈ ((replay.lcoreParams lcore).io .tx).queues,
        q.port.toNat < maxNicTxPortsPerIoLcore := by
      intro q hq
      obtain ⟨tuple, htuple, hport, _⟩ := (h.queued_iff (by decide)).mp ⟨lcore, q, hq, rfl, rfl⟩
      rw [← hport]
      exact hports tuple htuple
    exact (mainLoopIo_inBounds (h.room lcore) (h.burst .rx).2 hsmall rounds).traces ht hc

theorem configured_inBounds_port_zero : ∃ replay : Replay 32 128,
    Configured split (fun _ => true) [(.queues .tx, ['(', '0', ',', '0', ',', '0', ',', '1', ')'])] replay ∧
    ∀ lcore rounds t, Traces (replayLcoreMainLoopIo replay lcore rounds) t () →
      (∀ e ∈ t, BurstContract e.1 e.2) → ∀ e ∈ t, e.1.InBounds := by
  have harg : parentheses ['(', '0', ',', '0', ',', '0', ',', '1', ')'] =
      ([['0', ',', '0', ',', '0', ',', '1']], true) :=
    @parentheses_one ['0', ',', '0', ',', '0', ',', '1'] (by decide)
  obtain ⟨replay, hconfigured, htuples⟩ := @configured_one 32 128 split (fun _ => true) _ _
    ⟨0, 0, 1, some 0⟩ .tx (by decide) harg rfl rfl
  refine ⟨replay, hconfigured, (configured_inBounds_iff hconfigured).mpr ?_⟩
  rw [htuples, List.forall_mem_singleton]
  decide

theorem configured_not_inBounds : ∃ replay : Replay 32 128,
    Configured split (fun _ => true) [(.queues .tx, ['(', '1', '6', ',', '0', ',', '0', ',', '1', ')'])]
      replay ∧
    ∃ lcore t, Traces (replayLcoreMainLoopIo replay lcore 1) t () ∧ (∀ e ∈ t, BurstContract e.1 e.2) ∧
      ∃ e ∈ t, ¬ e.1.InBounds := by
  have harg : parentheses ['(', '1', '6', ',', '0', ',', '0', ',', '1', ')'] =
      ([['1', '6', ',', '0', ',', '0', ',', '1']], true) :=
    @parentheses_one ['1', '6', ',', '0', ',', '0', ',', '1'] (by decide)
  obtain ⟨replay, hconfigured, htuples⟩ := @configured_one 32 128 split (fun _ => true) _ _
    ⟨16, 0, 1, some 0⟩ .tx (by decide) harg rfl rfl
  have hmem : ⟨16, 0, 1, some 0⟩ ∈ allTuples split .tx
      [(.queues .tx, ['(', '1', '6', ',', '0', ',', '0', ',', '1', ')'])] := by
    rw [htuples]
    exact List.mem_cons_self
  obtain ⟨lcore, hreached⟩ := hconfigured.reaches_port hmem
  exact ⟨replay, hconfigured, lcore, _, traces_eager _, eagerTrace_contract _, _, hreached,
    Nat.lt_irrefl 16⟩

end accepted
end PcapReplay
