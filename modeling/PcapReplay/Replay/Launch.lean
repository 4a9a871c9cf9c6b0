import PcapReplay.Lib.Pool
import PcapReplay.Replay.Configured
import PcapReplay.Replay.Transmit

/-! The lcores that have been launched, each somewhere in its loop, and the mbufs that they share. -/

namespace PcapReplay
open Interaction Prog Custody Tokens Finset
variable {ports lcores : UInt32}

def replayLcoreMainLoop (replay : Replay ports lcores) (lcore : Fin lcores.toNat) (rounds : ℕ) : Io Unit :=
  if (replay.lcoreParams lcore).type = .io then replayLcoreMainLoopIo replay lcore rounds else pure ()

abbrev LcoresTrace (lcores : UInt32) := List (Fin lcores.toNat × ((o : IoOp) × IoAns o))

/-- `app_run`, some time after the launch: an lcore that was launched has made some first calls of
its loop, and no other lcore has made a call. -/
structure Running (launched : Fin lcores.toNat → Prop) (replay : Replay ports lcores)
    (t : LcoresTrace lcores) : Prop where
  loop : ∀ lcore, launched lcore → ∃ rounds t', Traces (replayLcoreMainLoop replay lcore rounds) t' () ∧
    ofWorker lcore t <+: t'
  idle : ∀ lcore, ¬ launched lcore → ofWorker lcore t = []

def custodyOfLcores (t : LcoresTrace lcores) : List (Fin lcores.toNat × Event Mbuf) :=
  t.filterMap fun e => (custodyEvent e.2).map fun seen => (e.1, seen)

def heldMbufs (lcore : Fin lcores.toNat) (t : LcoresTrace lcores) : Option (Multiset Mbuf) :=
  run 0 (custodyEvents (ofWorker lcore t))

/-- The mbufs, and where they are: in the pools and with the NICs, or with one of the lcores, which
have few. -/
structure Owned (mbufs : Multiset Mbuf) (few : ℕ) (t : LcoresTrace lcores) (rest : Multiset Mbuf)
    (held : Fin lcores.toNat → Multiset Mbuf) : Prop where
  pool : runPool mbufs (custodyOfLcores t) = some rest
  lcores : ∀ lcore, heldMbufs lcore t = some (held lcore)
  all : rest + ∑ lcore, held lcore = mbufs
  few : ∀ lcore, (held lcore).card ≤ few

def IoOp.Uses (m : Mbuf) : IoOp → Prop
  | .rxBurst _ _ _ => False
  | .ctrlmbufAlloc => False
  | .txBurst _ _ txPkts nbPkts => m ∈ txPkts.take nbPkts.toNat
  | .mbufFree m' => m = m'
  | .index _ _ => False

def IoOp.Asks (most : ℕ) : IoOp → Prop
  | .rxBurst _ _ nbPkts => nbPkts.toNat ≤ most
  | .ctrlmbufAlloc => True
  | .txBurst _ _ _ _ => True
  | .mbufFree _ => True
  | .index _ _ => True

section asks
variable {P : IoOp → Prop}

theorem overQueues_ensures {io : IoSide} {side : Side} {body : NicQueue → Io Unit} {is : List ℕ}
    (hindex : ∀ a i, P (.index a i)) (hbody : ∀ q, Ensures P (fun _ => True) (body q)) :
    Ensures P (fun _ => True) (overQueues io side body is) := by
  induction is with
  | nil => exact ensures_pure trivial
  | cons i is ih =>
    rw [overQueues]
    apply (ensures_ask (hindex _ i)).bind
    intro _ _
    split_ifs with hi
    · exact (hbody _).bind fun _ _ => ih
    · exact ensures_pure trivial

theorem mainLoopIo_ensures {replay : Replay ports lcores} {lcore : Fin lcores.toNat}
    (hindex : ∀ a i, P (.index a i))
    (hrx : ∀ q, Ensures P (fun _ => True) (rxQueue (replay.burstSizeIo .rx) q))
    (htx : 0 < ((replay.lcoreParams lcore).io .tx).nNicQueues →
      ∀ q, Ensures P (fun _ => True) (txQueue (replay.burstSizeIo .tx) q)) (rounds : ℕ) :
    Ensures P (fun _ => True) (replayLcoreMainLoopIo replay lcore rounds) := by
  have hpass : ∀ (io : IoSide) (side : Side) (body : NicQueue → Io Unit),
      (0 < io.nNicQueues → ∀ q, Ensures P (fun _ => True) (body q)) →
      Ensures P (fun _ => True) (ifQueues io (overQueues io side body (List.range io.nNicQueues))) := by
    intro io side body hbody
    unfold ifQueues
    split_ifs with hqueues
    · exact overQueues_ensures hindex (hbody hqueues)
    · exact ensures_pure trivial
  induction rounds with
  | zero => exact ensures_pure trivial
  | succ rounds ih =>
    apply (hpass _ .rx _ fun _ => hrx).bind
    intro _ _
    apply (hpass _ .tx _ htx).bind
    exact fun _ _ => ih

theorem dropAll_ensures (hindex : ∀ a i, P (.index a i)) (hfree : ∀ m, P (.mbufFree m)) (j : ℕ)
    (pkts : List Mbuf) : Ensures P (fun _ => True) (dropAll j pkts) := by
  induction pkts generalizing j with
  | nil => exact ensures_pure trivial
  | cons pkt pkts ih =>
    apply (ensures_ask (hindex _ j)).bind
    intro _ _
    apply (ensures_ask (hfree pkt)).bind
    exact fun _ _ => ih (j + 1)

theorem freeUnsent_ensures (hfree : ∀ m, P (.mbufFree m)) (tmpbuf : Mbuf) (nPkts nMbufs : ℕ) :
    Ensures P (fun _ => True) (freeUnsent tmpbuf nPkts nMbufs) := by
  induction nMbufs with
  | zero => exact ensures_pure trivial
  | succ nMbufs ih =>
    unfold freeUnsent
    split_ifs
    · exact (ensures_ask (hfree tmpbuf)).bind fun _ _ => ih
    · exact ensures_pure trivial

end asks

theorem rxQueue_asks (bszRd : UInt32) (q : NicQueue) :
    Ensures (IoOp.Asks bszRd.toNat) (fun _ => True) (rxQueue bszRd q) := by
  have hcast : bszRd.toUInt16.toNat ≤ bszRd.toNat := by
    rw [UInt32.toNat_toUInt16]
    exact Nat.mod_le _ _
  have hburst : IoOp.Asks bszRd.toNat (.rxBurst q.port q.queue bszRd.toUInt16) := hcast
  apply (ensures_ask hburst).bind
  exact fun pkts _ => dropAll_ensures (fun _ _ => trivial) (fun _ => trivial) 0 pkts

theorem txQueue_asks (most : ℕ) (bszTxWr : UInt32) (q : NicQueue) :
    Ensures (IoOp.Asks most) (fun _ => True) (txQueue bszTxWr q) := by
  apply (ensures_ask (o := IoOp.ctrlmbufAlloc) trivial).bind
  intro alloc _
  cases alloc with
  | none => exact ensures_pure trivial
  | some tmpbuf =>
    apply (ensures_ask (o := IoOp.txBurst q.port q.queue [tmpbuf] bszTxWr.toUInt16) trivial).bind
    intro nPkts _
    split_ifs
    · exact freeUnsent_ensures (fun _ => trivial) _ _ _
    · exact ensures_ask trivial

theorem mainLoop_asks (replay : Replay ports lcores) (lcore : Fin lcores.toNat) (rounds : ℕ) :
    Ensures (IoOp.Asks (replay.burstSizeIo .rx).toNat) (fun _ => True)
      (replayLcoreMainLoop replay lcore rounds) := by
  unfold replayLcoreMainLoop
  split_ifs
  · exact mainLoopIo_ensures (fun _ _ => trivial) (rxQueue_asks _) (fun _ => txQueue_asks _ _) rounds
  · exact ensures_pure trivial

theorem length_of_take {most : ℕ} {t : IoTrace} (hasks : ∀ e ∈ t, IoOp.Asks most e.1)
    (hc : ∀ e ∈ t, BurstContract e.1 e.2) {pkts : List Mbuf} (h : Event.take pkts ∈ custodyEvents t) :
    pkts.length ≤ max most 1 := by
  obtain ⟨⟨o, r⟩, hmem, hevent⟩ := List.mem_filterMap.mp h
  cases o with
  | rxBurst port queue nbPkts =>
    obtain rfl := Event.take.inj (Option.some.inj hevent)
    have hburst : r.length ≤ nbPkts.toNat := hc _ hmem
    exact (hburst.trans (hasks _ hmem)).trans (le_max_left _ _)
  | ctrlmbufAlloc =>
    cases r with
    | none => exact absurd hevent (by simp [custodyEvent])
    | some m =>
      obtain rfl := Event.take.inj (Option.some.inj hevent)
      exact le_max_right _ _
  | txBurst port queue txPkts nbPkts => exact absurd (Option.some.inj hevent) (by simp)
  | mbufFree m => exact absurd (Option.some.inj hevent) (by simp)
  | index a i => exact absurd hevent (by simp [custodyEvent])

def SendsSingly (replay : Replay ports lcores) : Prop :=
  replay.burstSizeIo .tx = 1 ∨ ∀ lcore, ((replay.lcoreParams lcore).io .tx).nNicQueues = 0

theorem rxQueue_not_alloc (bszRd : UInt32) (q : NicQueue) :
    Ensures (fun o => o ≠ .ctrlmbufAlloc) (fun _ => True) (rxQueue bszRd q) := by
  apply (ensures_ask (o := IoOp.rxBurst q.port q.queue bszRd.toUInt16) IoOp.noConfusion).bind
  exact fun pkts _ => dropAll_ensures (fun _ _ => IoOp.noConfusion) (fun _ => IoOp.noConfusion) 0 pkts

theorem SendsSingly.onePacket {replay : Replay ports lcores} (h : SendsSingly replay)
    {lcore : Fin lcores.toNat} {rounds : ℕ} {t : IoTrace}
    (ht : Traces (replayLcoreMainLoopIo replay lcore rounds) t ()) :
    OnePacket (replay.burstSizeIo .tx) t := by
  rcases h with hone | hnone
  · exact Or.inl hone
  · right
    intro m hm
    have hensures : Ensures (fun o => o ≠ .ctrlmbufAlloc) (fun _ => True)
        (replayLcoreMainLoopIo replay lcore rounds) :=
      mainLoopIo_ensures (fun _ _ => IoOp.noConfusion) (rxQueue_not_alloc (replay.burstSizeIo .rx))
        (fun hpos => absurd (hnone lcore) hpos.ne') rounds
    exact (hensures.traces ht).2 _ hm rfl

theorem SendsSingly.settles {replay : Replay ports lcores} (h : SendsSingly replay)
    (hburst : ∀ side, 1 ≤ (replay.burstSizeIo side).toNat ∧ (replay.burstSizeIo side).toNat ≤ 512)
    {lcore : Fin lcores.toNat} {rounds : ℕ} {t : IoTrace}
    (ht : Traces (replayLcoreMainLoop replay lcore rounds) t ()) (hc : ∀ e ∈ t, BurstContract e.1 e.2) :
    run 0 (custodyEvents t) = some 0 := by
  unfold replayLcoreMainLoop at ht
  split_ifs at ht
  · exact (mainLoopIo_judged (hburst .tx).1 (hburst .tx).2 ht hc).settles (h.onePacket ht)
  · obtain ⟨rfl, _⟩ := traces_pure.mp ht
    rfl

section running
variable {launched : Fin lcores.toNat → Prop} {replay : Replay ports lcores} {t t₁ : LcoresTrace lcores}

theorem Running.before (h : Running launched replay t) (hpre : t₁ <+: t) : Running launched replay t₁ := by
  obtain ⟨t₂, rfl⟩ := hpre
  constructor
  · intro lcore hlaunched
    obtain ⟨rounds, t', ht', hpart⟩ := h.loop lcore hlaunched
    rw [ofWorker_append] at hpart
    exact ⟨rounds, t', ht', (List.prefix_append _ _).trans hpart⟩
  · intro lcore hidle
    have hnone := h.idle lcore hidle
    rw [ofWorker_append] at hnone
    exact (List.append_eq_nil_iff.mp hnone).1

theorem contract_ofWorker (hc : ∀ e ∈ t, BurstContract e.2.1 e.2.2) (lcore : Fin lcores.toNat) :
    ∀ e ∈ ofWorker lcore t, BurstContract e.1 e.2 :=
  fun e he => hc (lcore, e) (mem_ofWorker.mp he)

theorem Running.part (h : Running launched replay t) (hc : ∀ e ∈ t, BurstContract e.2.1 e.2.2)
    (lcore : Fin lcores.toNat) : ∃ rounds t', Traces (replayLcoreMainLoop replay lcore rounds) t' () ∧
      ofWorker lcore t <+: t' ∧ ∀ e ∈ t', BurstContract e.1 e.2 := by
  by_cases hlaunched : launched lcore
  · obtain ⟨rounds, t', ht', hpre⟩ := h.loop lcore hlaunched
    obtain ⟨t'', _, ht'', hpre', hc'⟩ :=
      ht'.continued eagerNic_contract hpre (contract_ofWorker hc lcore)
    exact ⟨rounds, t'', ht'', hpre', hc'⟩
  · rw [h.idle lcore hlaunched]
    refine ⟨0, [], ?_, List.nil_prefix, fun e he => absurd he List.not_mem_nil⟩
    unfold replayLcoreMainLoop
    split_ifs
    · exact .done ()
    · exact .done ()

theorem Running.held (h : Running launched replay t) (hc : ∀ e ∈ t, BurstContract e.2.1 e.2.2)
    (hburst : ∀ side, 1 ≤ (replay.burstSizeIo side).toNat ∧ (replay.burstSizeIo side).toNat ≤ 512)
    (hsends : SendsSingly replay) (lcore : Fin lcores.toNat) :
    ∃ held, heldMbufs lcore t = some held ∧ held.card ≤ (replay.burstSizeIo .rx).toNat := by
  obtain ⟨rounds, t', ht', ⟨t₂, rfl⟩, hc'⟩ := h.part hc lcore
  have hsettles := hsends.settles hburst ht' hc'
  rw [custodyEvents_append, run_append] at hsettles
  obtain ⟨held, hheld, _⟩ := Option.bind_eq_some_iff.mp hsettles
  refine ⟨held, hheld, run_card_le hheld ?_ (Nat.zero_le _)⟩
  intro pkts
  have hasks := ((mainLoop_asks replay lcore rounds).traces ht').2
  rw [← max_eq_left (hburst .rx).1]
  exact length_of_take (fun e he => hasks e (List.mem_append_left _ he)) (contract_ofWorker hc lcore)

theorem ofWorker_custody (lcore : Fin lcores.toNat) (t : LcoresTrace lcores) :
    ofWorker lcore (custodyOfLcores t) = custodyEvents (ofWorker lcore t) :=
  ofWorker_filterMap custodyEvent lcore t

theorem Running.owned (h : Running launched replay t) (hc : ∀ e ∈ t, BurstContract e.2.1 e.2.2)
    (hburst : ∀ side, 1 ≤ (replay.burstSizeIo side).toNat ∧ (replay.burstSizeIo side).toNat ≤ 512)
    (hsends : SendsSingly replay) {mbufs rest : Multiset Mbuf}
    (hpool : runPool mbufs (custodyOfLcores t) = some rest) :
    ∃ held, Owned mbufs (replay.burstSizeIo .rx).toNat t rest held := by
  choose held hheld hfew using h.held hc hburst hsends
  refine ⟨held, hpool, hheld, ?_, hfew⟩
  have hrun : ∀ lcore, run 0 (ofWorker lcore (custodyOfLcores t)) = some (held lcore) := by
    intro lcore
    rw [ofWorker_custody]
    exact hheld lcore
  rw [runPool_balance hpool hrun, sum_const_zero, add_zero]

end running

theorem mem_of_uses {held held' : Multiset Mbuf} {e : (o : IoOp) × IoAns o} {m : Mbuf} (huses : e.1.Uses m)
    (hrun : run held (custodyEvents [e]) = some held') : m ∈ held := by
  obtain ⟨o, r⟩ := e
  cases o with
  | rxBurst port queue nbPkts => exact huses.elim
  | ctrlmbufAlloc => exact huses.elim
  | txBurst port queue txPkts nbPkts =>
    obtain ⟨now, hnext, _⟩ := Option.bind_eq_some_iff.mp hrun
    rw [next] at hnext
    split_ifs at hnext with hheld
    have hmem : m ∈ txPkts := List.mem_of_mem_take huses
    exact Multiset.mem_of_le hheld.2 (Multiset.mem_coe.mpr hmem)
  | mbufFree m' =>
    obtain ⟨now, hnext, _⟩ := Option.bind_eq_some_iff.mp hrun
    rw [next] at hnext
    split_ifs at hnext with hheld
    obtain rfl : m = m' := huses
    exact hheld
  | index a i => exact huses.elim

structure OwnedThroughout (replay : Replay ports lcores) (mbufs rest : Multiset Mbuf)
    (t : LcoresTrace lcores) : Prop where
  owned : ∃ held, Owned mbufs (replay.burstSizeIo .rx).toNat t rest held
  alone : ∀ t₁ t₂ lcore e m, t = t₁ ++ (lcore, e) :: t₂ → e.1.Uses m → ∃ rest₁ held₁,
    Owned mbufs (replay.burstSizeIo .rx).toNat t₁ rest₁ held₁ ∧
    (held₁ lcore).count m = 1 ∧ m ∉ rest₁ ∧ ∀ other, other ≠ lcore → m ∉ held₁ other

theorem Running.ownedThroughout {launched : Fin lcores.toNat → Prop} {replay : Replay ports lcores}
    {t : LcoresTrace lcores} (ht : Running launched replay t) (hc : ∀ e ∈ t, BurstContract e.2.1 e.2.2)
    (hburst : ∀ side, 1 ≤ (replay.burstSizeIo side).toNat ∧ (replay.burstSizeIo side).toNat ≤ 512)
    (hsends : SendsSingly replay) {mbufs rest : Multiset Mbuf} (honce : mbufs.Nodup)
    (hpool : runPool mbufs (custodyOfLcores t) = some rest) : OwnedThroughout replay mbufs rest t := by
  refine ⟨ht.owned hc hburst hsends hpool, ?_⟩
  rintro t₁ t₂ lcore e m rfl huses
  have hsplit : custodyOfLcores (t₁ ++ (lcore, e) :: t₂) =
      custodyOfLcores t₁ ++ custodyOfLcores ((lcore, e) :: t₂) := List.filterMap_append
  rw [hsplit, runPool_append] at hpool
  obtain ⟨rest₁, hpool₁, _⟩ := Option.bind_eq_some_iff.mp hpool
  have hc₁ : ∀ e ∈ t₁, BurstContract e.2.1 e.2.2 := fun e he => hc e (List.mem_append_left _ he)
  obtain ⟨held₁, howned⟩ := (ht.before (List.prefix_append _ _)).owned hc₁ hburst hsends hpool₁
  refine ⟨rest₁, held₁, howned, sole_holder honce howned.all ?_⟩
  -- the call itself is still within the rights of the lcore
  have hnow : t₁ ++ [(lcore, e)] <+: t₁ ++ (lcore, e) :: t₂ :=
    ⟨t₂, by rw [List.append_assoc, List.singleton_append]⟩
  have hcnow : ∀ e' ∈ t₁ ++ [(lcore, e)], BurstContract e'.2.1 e'.2.2 := fun e' he' => hc e' (hnow.subset he')
  obtain ⟨held₂, hheld₂, _⟩ := (ht.before hnow).held hcnow hburst hsends lcore
  have hpart : ofWorker lcore (t₁ ++ [(lcore, e)]) = ofWorker lcore t₁ ++ [e] := by
    rw [ofWorker_append, ofWorker_cons_self]
    rfl
  rw [heldMbufs, hpart, custodyEvents_append, run_append] at hheld₂
  have hbefore := howned.lcores lcore
  rw [heldMbufs] at hbefore
  rw [hbefore] at hheld₂
  exact mem_of_uses huses hheld₂

section eager
variable {replay : Replay ports lcores} {lcore : Fin lcores.toNat}

def alone (lcore : Fin lcores.toNat) (t : IoTrace) : LcoresTrace lcores := t.map fun e => (lcore, e)

theorem ofWorker_alone (lcore : Fin lcores.toNat) (t : IoTrace) : ofWorker lcore (alone lcore t) = t := by
  induction t with
  | nil => rfl
  | cons e t ih =>
    show ofWorker lcore ((lcore, e) :: alone lcore t) = e :: t
    rw [ofWorker_cons_self, ih]

theorem ofWorker_alone_of_ne {other : Fin lcores.toNat} (h : other ≠ lcore) (t : IoTrace) :
    ofWorker other (alone lcore t) = [] := by
  induction t with
  | nil => rfl
  | cons e t ih =>
    show ofWorker other ((lcore, e) :: alone lcore t) = []
    rw [ofWorker_cons_of_ne h.symm, ih]

theorem running_alone {rounds : ℕ} {t : IoTrace}
    (ht : Traces (replayLcoreMainLoop replay lcore rounds) t ()) :
    Running (fun l => l = lcore) replay (alone lcore t) := by
  constructor
  · rintro l rfl
    refine ⟨rounds, t, ht, ?_⟩
    rw [ofWorker_alone]
  · exact fun l hl => ofWorker_alone_of_ne hl t

def Recycles (lcore : Fin lcores.toNat) (p : Io Unit) : Prop :=
  runPool {0} (custodyOfLcores (alone lcore (eagerTrace p))) = some {0}

theorem Recycles.bind {p : Io Unit} {f : Unit → Io Unit} (hp : Recycles lcore p)
    (hf : Recycles lcore (f ())) : Recycles lcore (p >>= f) := by
  unfold Recycles eagerTrace at *
  rw [dry_bind, List.map_append, alone, List.map_append, custodyOfLcores, List.filterMap_append,
    runPool_append]
  exact (congrArg (Option.bind · _) hp).trans hf

theorem returned_pure (lcore : Fin lcores.toNat) : Recycles lcore (pure ()) := rfl

theorem returned_index (a : IoArray) (i : ℕ) : Recycles lcore (indexArray a i) := rfl

theorem rxQueue_returned (bszRd : UInt32) (q : NicQueue) : Recycles lcore (rxQueue bszRd q) := by
  have hnone : give {0} (.take ([] : List Mbuf)) = some {0} := by
    rw [give, if_pos (show (([] : List Mbuf) : Multiset Mbuf) ≤ {0} from Multiset.zero_le _)]
    exact congrArg some (tsub_zero _)
  show (give {0} (.take [])).bind some = _
  rw [hnone, Option.bind_some]

theorem dry_txQueue {bszTxWr : UInt32} (hmax : bszTxWr.toNat ≤ 512) (q : NicQueue) :
    (dry eagerNic (txQueue bszTxWr q)).1 = [.ctrlmbufAlloc,
      .txBurst q.port q.queue [0] bszTxWr.toUInt16, .index .mbufOut q.port.toNat] := by
  have hsent : ¬ bszTxWr.toUInt16.toNat < bszTxWr.toNat := by
    rw [toUInt16_toNat hmax]
    exact lt_irrefl _
  show IoOp.ctrlmbufAlloc :: IoOp.txBurst q.port q.queue [0] bszTxWr.toUInt16 ::
    (dry eagerNic (if bszTxWr.toUInt16.toNat < bszTxWr.toNat
      then freeUnsent 0 bszTxWr.toUInt16.toNat bszTxWr.toNat else indexArray .mbufOut q.port.toNat)).1 = _
  rw [if_neg hsent]
  rfl

theorem txQueue_returned {bszTxWr : UInt32} (hpos : 1 ≤ bszTxWr.toNat) (hmax : bszTxWr.toNat ≤ 512)
    (q : NicQueue) : Recycles lcore (txQueue bszTxWr q) := by
  have htaken : [(0 : Mbuf)].take bszTxWr.toUInt16.toNat = [0] := by
    apply List.take_of_length_le
    rw [toUInt16_toNat hmax]
    exact hpos
  unfold Recycles eagerTrace
  rw [dry_txQueue hmax]
  show (give {0} (.take [0])).bind (fun pool => (give pool (.hand [0] _ _)).bind some) = some {0}
  rw [give, if_pos (show ((([0] : List Mbuf)) : Multiset Mbuf) ≤ {0} from le_rfl), Option.bind_some, give,
    Option.bind_some]
  show some (({0} : Multiset Mbuf) - {0} + ([(0 : Mbuf)].take bszTxWr.toUInt16.toNat : List Mbuf)) = _
  have hgone : ({0} : Multiset Mbuf) - {0} = 0 := rfl
  rw [htaken, hgone, zero_add]
  rfl

theorem ifQueues_returned {io : IoSide} {side : Side} {body : NicQueue → Io Unit}
    (hbody : ∀ q, Recycles lcore (body q)) :
    Recycles lcore (ifQueues io (overQueues io side body (List.range io.nNicQueues))) := by
  have hover : ∀ is, Recycles lcore (overQueues io side body is) := by
    intro is
    induction is with
    | nil => exact returned_pure lcore
    | cons i is ih =>
      rw [overQueues]
      apply (returned_index _ i).bind
      split_ifs
      · exact (hbody _).bind ih
      · exact returned_pure lcore
  unfold ifQueues
  split_ifs
  · exact hover _
  · exact returned_pure lcore

theorem mainLoopIo_returned
    (hburst : 1 ≤ (replay.burstSizeIo .tx).toNat ∧ (replay.burstSizeIo .tx).toNat ≤ 512) (rounds : ℕ) :
    Recycles lcore (replayLcoreMainLoopIo replay lcore rounds) := by
  induction rounds with
  | zero => exact returned_pure lcore
  | succ rounds ih =>
    apply (ifQueues_returned (rxQueue_returned _)).bind
    exact (ifQueues_returned (txQueue_returned hburst.1 hburst.2)).bind ih

theorem not_ownedThroughout {k : ℕ} (ha : Agrees .tx k replay)
    (hburst : 1 ≤ (replay.burstSizeIo .tx).toNat ∧ (replay.burstSizeIo .tx).toNat ≤ 512)
    (hmany : replay.burstSizeIo .tx ≠ 1) (hqueues : ((replay.lcoreParams lcore).io .tx).nNicQueues ≠ 0) :
    ∃ t, Running (fun l => l = lcore) replay t ∧ (∀ e ∈ t, BurstContract e.2.1 e.2.2) ∧
      runPool {0} (custodyOfLcores t) = some {0} ∧ ¬ OwnedThroughout replay {0} {0} t := by
  have hpos : 0 < ((replay.lcoreParams lcore).io .tx).nNicQueues := Nat.pos_of_ne_zero hqueues
  have hroom := ha.room lcore
  have hio : (replay.lcoreParams lcore).type = .io := by
    apply ha.io
    apply List.ne_nil_of_length_pos
    rw [IoSide.length_queues hroom]
    exact hpos
  set t := eagerTrace (replayLcoreMainLoopIo replay lcore 1)
  have ht : Traces (replayLcoreMainLoopIo replay lcore 1) t () := traces_eager _
  have hc := eagerTrace_contract (replayLcoreMainLoopIo replay lcore 1)
  refine ⟨alone lcore t, @running_alone _ _ _ _ 1 _ ?_, ?_, mainLoopIo_returned hburst 1, ?_⟩
  · rw [replayLcoreMainLoop, if_pos hio]
    exact ht
  · intro e he
    obtain ⟨e', he', rfl⟩ := List.mem_map.mp he
    exact hc e' he'
  · rintro ⟨⟨held, howned⟩, _⟩
    have hheld := howned.lcores lcore
    rw [heldMbufs, ofWorker_alone, (mainLoopIo_judged hburst.1 hburst.2 ht hc).fails] at hheld
    · exact absurd hheld (by simp)
    · rintro (hone | hnone)
      · exact hmany hone
      · apply hnone 0
        apply mem_eagerTrace
        apply @mem_dry_mainLoopIo _ _ .ctrlmbufAlloc _ _ hroom ⟨0, by decide⟩ hpos
        rw [dry_txQueue hburst.2]
        exact List.mem_cons_self

end eager

/-- Whatever the lcores do at the same time, each mbuf has one owner, exactly when packets are sent
singly. -/
theorem lcores_own_mbufs_iff {strsplit : Strsplit} {enabled : UInt32 → Bool} {args : List (Opt × Text)}
    {replay : Replay ports lcores} (hports : ports.toNat ≤ 256)
    (hconfigured : Configured strsplit enabled args replay) :
    (∀ launched t mbufs rest, Running launched replay t → (∀ e ∈ t, BurstContract e.2.1 e.2.2) →
      mbufs.Nodup → runPool mbufs (custodyOfLcores t) = some rest → OwnedThroughout replay mbufs rest t) ↔
    SendsSingly replay := by
  constructor
  · intro hall
    by_contra hnot
    rw [SendsSingly, not_or, not_forall] at hnot
    obtain ⟨hmany, lcore, hqueues⟩ := hnot
    obtain ⟨k, ha⟩ := hconfigured.agrees hports .tx
    obtain ⟨t, ht, hc, hpool, hfails⟩ := not_ownedThroughout ha (hconfigured.burst .tx) hmany hqueues
    exact hfails (hall _ t {0} {0} ht hc (Multiset.nodup_singleton 0) hpool)
  · intro hsends launched t mbufs rest ht hc honce hpool
    exact ht.ownedThroughout hc hconfigured.burst hsends honce hpool

theorem lcores_own_mbufs_one_packet : ∃ replay : Replay 32 128,
    Configured split (fun _ => true) [(.queues .tx, ['(', '0', ',', '0', ',', '0', ',', '1', ')']),
      (.bsz, ['1', '4', '4', ',', '1'])] replay ∧
    ∀ launched t mbufs rest, Running launched replay t → (∀ e ∈ t, BurstContract e.2.1 e.2.2) →
      mbufs.Nodup → runPool mbufs (custodyOfLcores t) = some rest → OwnedThroughout replay mbufs rest t := by
  have harg : parentheses ['(', '0', ',', '0', ',', '0', ',', '1', ')'] =
      ([['0', ',', '0', ',', '0', ',', '1']], true) :=
    @parentheses_one ['0', ',', '0', ',', '0', ',', '1'] (by decide)
  have htx : parseOpt split (fun _ => true) (.queues .tx) _ (Replay.zero 32 128) = _ :=
    @parseArg_one 32 128 split (fun _ => true) .tx _ _ ⟨0, 0, 1, some 0⟩ (Replay.zero 32 128) (by decide) harg
      rfl rfl
  have hbsz : parseOpt split (fun _ => true) .bsz ['1', '4', '4', ',', '1']
      ((Replay.zero 32 128).storeTuple (fun _ => true) .tx ⟨0, 0, 1, some 0⟩).2 = some (0, oneQueue 1) := rfl
  have hconfigured := configured_two htx hbsz
  refine ⟨_, hconfigured, (lcores_own_mbufs_iff (by decide) hconfigured).mpr ?_⟩
  exact Or.inl rfl

end PcapReplay
