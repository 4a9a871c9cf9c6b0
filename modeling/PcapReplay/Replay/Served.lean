import PcapReplay.Replay.Launch
import PcapReplay.Replay.Nics

/-! The queues that the initialisation sets up, and the lcores that serve them in every round. -/

namespace PcapReplay
open Interaction Prog Custody Tokens
variable {ports lcores : UInt32} {α β : Type}

structure QueueLists (replay : Replay ports lcores) : Prop where
  inRange : ∀ lcore side, ∀ q ∈ ((replay.lcoreParams lcore).io side).queues,
    q.port.toNat < ports.toNat ∧ q.queue.toNat < maxQueuesPerNicPort
  inUse : ∀ lcore, (replay.lcoreParams lcore).type = .disabled ∨ (replay.lcoreParams lcore).type = .io ∧
    ∃ side, ((replay.lcoreParams lcore).io side).queues ≠ []

section configured
variable {strsplit : Strsplit} {enabled : UInt32 → Bool} {args : List (Opt × Text)}
  {replay : Replay ports lcores} (hports : ports.toNat ≤ 256) (h : Configured strsplit enabled args replay)
include hports h

theorem Configured.queueLists : QueueLists replay := by
  apply h.induct
  · constructor
    · exact fun _ _ _ hq => absurd hq List.not_mem_nil
    · exact fun _ => Or.inl rfl
  · intro side t replay replay' port queue lcore hstored hI
    constructor
    · intro l s q hq
      rw [hstored.queues] at hq
      split_ifs at hq with hl
      · rcases List.mem_append.mp hq with hold | hnew
        · exact hI.inRange l s q hold
        · rw [hstored.nicQueue_eq hports, List.mem_singleton] at hnew
          obtain ⟨hp, hc⟩ := nicQueue_toNat hports port queue
          rw [hnew, hp, hc]
          exact ⟨port.isLt, queue.isLt⟩
      · exact hI.inRange l s q hq
    · intro l
      rw [hstored.type]
      split_ifs with hl
      · refine Or.inr ⟨rfl, side, ?_⟩
        rw [hstored.queues, if_pos ⟨hl, rfl⟩]
        exact List.append_ne_nil_of_right_ne_nil _ (List.cons_ne_nil _ _)
      · rcases hI.inUse l with hidle | ⟨hio, s, hs⟩
        · exact Or.inl hidle
        · refine Or.inr ⟨hio, s, ?_⟩
          rw [hstored.queues, if_neg fun hc => hl hc.1]
          exact hs
  · exact fun _ _ _ hI => ⟨hI.inRange, hI.inUse⟩

theorem Configured.lookup_iff (side : Side) (q : NicQueue) (lcore : Fin lcores.toNat) :
    q ∈ ((replay.lcoreParams lcore).io side).queues ↔ ∃ (port : Fin ports.toNat)
      (queue : Fin maxQueuesPerNicPort), q = nicQueue port queue ∧
        replay.getLcoreForNic side (UInt8.ofNat port) (UInt8.ofNat queue) = some lcore := by
  obtain ⟨k, ha⟩ := h.agrees hports side
  constructor
  · intro hq
    obtain ⟨hp, hc⟩ := (h.queueLists hports).inRange lcore side q hq
    have heq : q = nicQueue ⟨q.port.toNat, hp⟩ ⟨q.queue.toNat, hc⟩ := eq_nicQueue hports rfl rfl
    refine ⟨_, _, heq, ?_⟩
    rw [heq] at hq
    obtain ⟨i, hplace⟩ := (exists_holdsQueue_iff hports lcore).mpr hq
    obtain ⟨found, hfound⟩ := ha.lookup_exists hports hplace
    obtain ⟨_, j, hplace'⟩ := lookup_holdsQueue hports hfound
    have honly := (ha.mask_iff hports).mp (ha.mask_of_holdsQueue hports hplace)
    have hsame : (found, j) = (lcore, i) := honly.unique hplace' hplace
    have hlcore : found = lcore := congrArg Prod.fst hsame
    rw [hfound, hlcore]
  · rintro ⟨port, queue, rfl, hfound⟩
    obtain ⟨_, hplace⟩ := lookup_holdsQueue hports hfound
    exact (exists_holdsQueue_iff hports lcore).mp hplace

theorem Configured.queues_nodup (side : Side) (lcore : Fin lcores.toNat) :
    ((replay.lcoreParams lcore).io side).queues.Nodup := by
  obtain ⟨k, ha⟩ := h.agrees hports side
  rw [List.nodup_iff_count_le_one]
  intro q
  by_cases hq : q ∈ ((replay.lcoreParams lcore).io side).queues
  · obtain ⟨port, queue, rfl, _⟩ := (h.lookup_iff hports side q lcore).mp hq
    have hle := (ha.counted port queue).le.trans (ha.small port queue)
    exact (Finset.single_le_sum (fun _ _ => Nat.zero_le _) (Finset.mem_univ lcore)).trans hle
  · rw [List.count_eq_zero_of_not_mem hq]
    exact Nat.zero_le 1

theorem Configured.lookup_found (side : Side) (port : Fin ports.toNat) (queue : Fin maxQueuesPerNicPort)
    (hmask : replay.nicQueueMask side port queue ≠ 0) :
    ∃ lcore, replay.getLcoreForNic side (UInt8.ofNat port) (UInt8.ofNat queue) = some lcore := by
  obtain ⟨k, ha⟩ := h.agrees hports side
  obtain ⟨place, _, hplace, _⟩ :=
    (ha.queuesAgree hports).found port queue (h.mask_small hports side port queue hmask)
  exact ⟨place.1, hplace⟩

theorem Configured.lookup_notFound (side : Side) (port : Fin ports.toNat) (queue : Fin maxQueuesPerNicPort)
    (hmask : replay.nicQueueMask side port queue ≠ 1) :
    replay.getLcoreForNic side (UInt8.ofNat port) (UInt8.ofNat queue) = none := by
  obtain ⟨k, ha⟩ := h.agrees hports side
  exact (ha.queuesAgree hports).notFound port queue hmask

end configured

def NicOp.setup : NicOp → Option (Side × NicQueue × ℕ)
  | .devConfigure _ _ _ => none
  | .promiscuousEnable _ => none
  | .queueSetup side port queue _ lcore => some (side, ⟨port, queue⟩, lcore)
  | .devStart _ => none

def setups (t : List ((o : NicOp) × NicAns o)) : List (Side × NicQueue × ℕ) :=
  t.filterMap fun e => e.1.setup

theorem setups_append (t₁ t₂ : List ((o : NicOp) × NicAns o)) : setups (t₁ ++ t₂) = setups t₁ ++ setups t₂ :=
  List.filterMap_append

def foundQueues (replay : Replay ports lcores) (side : Side) (port : Fin ports.toNat)
    (queues : List (Fin maxQueuesPerNicPort)) : List (Side × NicQueue × ℕ) :=
  queues.filterMap fun queue : Fin maxQueuesPerNicPort =>
    (replay.getLcoreForNic side (UInt8.ofNat port) (UInt8.ofNat queue)).map
      fun lcore : Fin lcores.toNat => (side, nicQueue port queue, (lcore : ℕ))

theorem traces_andThen_some {p : Nic (Option α)} {f : α → Nic (Option β)} {t : List ((o : NicOp) × NicAns o)}
    {b : β} (h : Traces (andThen p f) t (some b)) :
    ∃ t₁ t₂ a, t = t₁ ++ t₂ ∧ Traces p t₁ (some a) ∧ Traces (f a) t₂ (some b) := by
  obtain ⟨t₁, t₂, a, rfl, h₁, h₂⟩ := traces_bind.mp h
  cases a with
  | none => exact absurd (traces_pure.mp h₂).2 (by simp)
  | some a => exact ⟨t₁, t₂, a, rfl, h₁, h₂⟩

theorem traces_orPanic_some {p : Nic ℤ} {f : Nic (Option α)}
    {t : List ((o : NicOp) × NicAns o)} {a : α} (h : Traces (orPanic p f) t (some a)) :
    ∃ t₁ t₂ ret, t = t₁ ++ t₂ ∧ Traces p t₁ ret ∧ Traces f t₂ (some a) := by
  obtain ⟨t₁, t₂, ret, rfl, h₁, h₂⟩ := traces_bind.mp h
  split_ifs at h₂
  · exact absurd (traces_pure.mp h₂).2 (by simp)
  · exact ⟨t₁, t₂, ret, rfl, h₁, h₂⟩

theorem drop_finRange_of_le {n i : ℕ} (h : n ≤ i) : (List.finRange n).drop i = [] := by
  apply List.drop_eq_nil_of_le
  rw [List.length_finRange]
  exact h

section initialised
variable {replay : Replay ports lcores} {side : Side} {port : Fin ports.toNat}
  (hfound : ∀ side port (queue : Fin maxQueuesPerNicPort), replay.nicQueueMask side port queue ≠ 0 →
    ∃ lcore, replay.getLcoreForNic side (UInt8.ofNat port) (UInt8.ofNat queue) = some lcore)
  (hnone : ∀ side port (queue : Fin maxQueuesPerNicPort), replay.nicQueueMask side port queue ≠ 1 →
    replay.getLcoreForNic side (UInt8.ofNat port) (UInt8.ofNat queue) = none)
include hfound hnone

theorem setupQueues_setups {queues : List (Fin maxQueuesPerNicPort)} {lcore last : ℕ}
    {t : List ((o : NicOp) × NicAns o)}
    (ht : Traces (setupQueues replay side port queues lcore) t (some last)) :
    setups t = foundQueues replay side port queues := by
  induction queues generalizing lcore t with
  | nil =>
    obtain ⟨rfl, _⟩ := traces_pure.mp ht
    rfl
  | cons queue queues ih =>
    rw [setupQueues] at ht
    split_ifs at ht with hmask
    · have hskip := hnone side port queue (by rw [hmask]; decide)
      rw [foundQueues, List.filterMap_cons_none (by rw [hskip]; rfl)]
      exact ih ht
    · obtain ⟨l, hl⟩ := hfound side port queue hmask
      obtain ⟨t₁, t₂, ret, rfl, h₁, h₂⟩ := traces_orPanic_some ht
      obtain rfl := traces_ask.mp h₁
      rw [foundQueues, List.filterMap_cons_some (b := (side, nicQueue port queue, (l : ℕ))) (by rw [hl]; rfl),
        setups_append, ih h₂, hl]
      rfl

theorem initPort_setups (hports : ports.toNat ≤ 256) {lcore last : ℕ} {t : List ((o : NicOp) × NicAns o)}
    (ht : Traces (initPort replay port lcore) t (some last)) :
    setups t = foundQueues replay .rx port (List.finRange maxQueuesPerNicPort) ++
      foundQueues replay .tx port (List.finRange maxQueuesPerNicPort) := by
  unfold initPort at ht
  split_ifs at ht with hzero
  · obtain ⟨rfl, _⟩ := traces_pure.mp ht
    have hempty : ∀ side, foundQueues replay side port (List.finRange maxQueuesPerNicPort) = [] := by
      intro side
      apply List.filterMap_eq_nil_iff.mpr
      intro queue _
      rw [hnone side port queue, Option.map_none]
      intro hmask
      have hcard := (nQueues_eq hports replay side port).1
      have hcount : (nQueues replay side port).toNat = 0 := by
        cases side with
        | rx => rw [hzero.1]; rfl
        | tx => rw [hzero.2]; rfl
      rw [hcount] at hcard
      have hmem := Finset.card_eq_zero.mp hcard.symm ▸
        Finset.mem_filter.mpr ⟨Finset.mem_univ queue, hmask⟩
      exact Finset.notMem_empty queue hmem
    rw [hempty, hempty]
    rfl
  · obtain ⟨t₁, t', _, rfl, h₁, ht'⟩ := traces_orPanic_some ht
    obtain rfl := traces_ask.mp h₁
    obtain ⟨t₂, t'', _, rfl, h₂, ht''⟩ := traces_bind.mp ht'
    obtain rfl := traces_ask.mp h₂
    obtain ⟨t₃, t₄, _, rfl, h₃, h₄⟩ := traces_andThen_some ht''
    obtain ⟨t₅, t₆, _, rfl, h₅, h₆⟩ := traces_andThen_some h₄
    obtain ⟨t₇, t₈, _, rfl, h₇, h₈⟩ := traces_orPanic_some h₆
    obtain rfl := traces_ask.mp h₇
    obtain ⟨rfl, _⟩ := traces_pure.mp h₈
    have hstart : setups
        ([⟨.devStart (UInt8.ofNat port), ‹_›⟩] ++ ([] : List ((o : NicOp) × NicAns o))) = [] := rfl
    rw [setups_append, setups_append, setups_append, setups_append, setupQueues_setups hfound hnone h₃,
      setupQueues_setups hfound hnone h₅, hstart, List.append_nil]
    rfl

theorem initPorts_setups (hports : ports.toNat ≤ 255) {rounds : ℕ} {first : UInt8} {lcore last : ℕ}
    {t : List ((o : NicOp) × NicAns o)} (hrounds : ports.toNat ≤ first.toNat + rounds)
    (ht : Traces (initPorts replay rounds first lcore) t (some last)) :
    setups t = ((List.finRange ports.toNat).drop first.toNat).flatMap fun port =>
      foundQueues replay .rx port (List.finRange maxQueuesPerNicPort) ++
        foundQueues replay .tx port (List.finRange maxQueuesPerNicPort) := by
  induction rounds generalizing first lcore t with
  | zero =>
    obtain ⟨rfl, _⟩ := traces_pure.mp ht
    rw [drop_finRange_of_le (i := first.toNat) hrounds]
    rfl
  | succ rounds ih =>
    rw [initPorts] at ht
    split_ifs at ht with hlt
    · obtain ⟨t₁, t₂, _, rfl, h₁, h₂⟩ := traces_andThen_some ht
      have hsucc : (first + 1).toNat = first.toNat + 1 := by
        rw [UInt8.toNat_add, UInt8.toNat_one]
        omega
      have hnext := ih (by rw [hsucc]; omega) h₂
      have hlen : first.toNat < (List.finRange ports.toNat).length := by
        rw [List.length_finRange]
        exact hlt
      rw [List.drop_eq_getElem_cons hlen, List.flatMap_cons, setups_append, hnext, hsucc,
        initPort_setups hfound hnone (by omega) h₁, List.getElem_finRange]
      rfl
    · obtain ⟨rfl, _⟩ := traces_pure.mp ht
      rw [drop_finRange_of_le (Nat.not_lt.mp hlt)]
      rfl

end initialised

section setups
variable {strsplit : Strsplit} {enabled : UInt32 → Bool} {args : List (Opt × Text)}
  {replay : Replay ports lcores} (hports : ports.toNat ≤ 255) (h : Configured strsplit enabled args replay)
include hports h

theorem Configured.setups_eq {rounds last : ℕ} {t : List ((o : NicOp) × NicAns o)}
    (hrounds : ports.toNat ≤ rounds) (ht : Traces (replayInitNics replay rounds) t (some last)) :
    setups t = (List.finRange ports.toNat).flatMap fun port =>
      foundQueues replay .rx port (List.finRange maxQueuesPerNicPort) ++
        foundQueues replay .tx port (List.finRange maxQueuesPerNicPort) := by
  have hle : ports.toNat ≤ 256 := by omega
  apply initPorts_setups (h.lookup_found hle) (h.lookup_notFound hle) hports _ ht
  rw [UInt8.toNat_zero, Nat.zero_add]
  exact hrounds

omit hports h in
theorem mem_foundQueues {side s : Side} {port : Fin ports.toNat} {q : NicQueue} {l : ℕ} :
    (s, q, l) ∈ foundQueues replay side port (List.finRange maxQueuesPerNicPort) ↔
      s = side ∧ ∃ (queue : Fin maxQueuesPerNicPort) (lcore : Fin lcores.toNat),
        q = nicQueue port queue ∧ l = lcore ∧
          replay.getLcoreForNic side (UInt8.ofNat port) (UInt8.ofNat queue) = some lcore := by
  rw [foundQueues, List.mem_filterMap]
  constructor
  · rintro ⟨queue, _, hq⟩
    obtain ⟨lcore, hlcore, heq⟩ := Option.map_eq_some_iff.mp hq
    obtain ⟨rfl, hrest⟩ := Prod.mk.inj heq
    obtain ⟨rfl, rfl⟩ := Prod.mk.inj hrest
    exact ⟨rfl, queue, lcore, rfl, rfl, hlcore⟩
  · rintro ⟨rfl, queue, lcore, rfl, rfl, hlcore⟩
    exact ⟨queue, List.mem_finRange queue, by rw [hlcore]; rfl⟩

theorem Configured.mem_setups_iff {rounds last : ℕ} {t : List ((o : NicOp) × NicAns o)}
    (hrounds : ports.toNat ≤ rounds) (ht : Traces (replayInitNics replay rounds) t (some last)) {side : Side}
    {q : NicQueue} {lcore : Fin lcores.toNat} :
    (side, q, (lcore : ℕ)) ∈ setups t ↔ q ∈ ((replay.lcoreParams lcore).io side).queues := by
  rw [h.setups_eq hports hrounds ht, List.mem_flatMap, h.lookup_iff (by omega)]
  simp only [List.mem_finRange, true_and, List.mem_append, mem_foundQueues]
  constructor
  · rintro ⟨port, ⟨rfl, queue, l, hq, hl, hfound⟩ | ⟨rfl, queue, l, hq, hl, hfound⟩⟩
    · rw [Fin.ext hl]
      exact ⟨port, queue, hq, hfound⟩
    · rw [Fin.ext hl]
      exact ⟨port, queue, hq, hfound⟩
  · rintro ⟨port, queue, hq, hfound⟩
    refine ⟨port, ?_⟩
    cases side with
    | rx => exact Or.inl ⟨rfl, queue, lcore, hq, rfl, hfound⟩
    | tx => exact Or.inr ⟨rfl, queue, lcore, hq, rfl, hfound⟩

omit h in
theorem foundQueues_keys_nodup (side : Side) (port : Fin ports.toNat) :
    ((foundQueues replay side port (List.finRange maxQueuesPerNicPort)).map fun s => (s.1, s.2.1)).Nodup := by
  have hkeys : ((foundQueues replay side port (List.finRange maxQueuesPerNicPort)).map
      fun s => (s.1, s.2.1)).Sublist
      ((List.finRange maxQueuesPerNicPort).map fun queue => (side, nicQueue port queue)) := by
    induction List.finRange maxQueuesPerNicPort with
    | nil => exact List.Sublist.slnil
    | cons queue queues ih =>
      rw [foundQueues, List.filterMap_cons]
      split
      · exact ih.cons _
      · next b hb =>
        obtain ⟨lcore, _, rfl⟩ := Option.map_eq_some_iff.mp hb
        exact ih.cons_cons _
  apply hkeys.nodup
  apply (List.nodup_finRange _).map
  intro queue queue' heq
  exact ((nicQueue_inj (by omega)).mp (Prod.mk.inj heq).2).2

omit hports h in
theorem mem_foundQueues_keys {side : Side} {port : Fin ports.toNat} {key : Side × NicQueue}
    (hkey : key ∈ (foundQueues replay side port (List.finRange maxQueuesPerNicPort)).map
      fun s => (s.1, s.2.1)) :
    ∃ queue, key = (side, nicQueue port queue) := by
  obtain ⟨⟨s, q, l⟩, hmem, rfl⟩ := List.mem_map.mp hkey
  obtain ⟨rfl, queue, _, rfl, _⟩ := mem_foundQueues.mp hmem
  exact ⟨queue, rfl⟩

theorem Configured.setups_nodup {rounds last : ℕ} {t : List ((o : NicOp) × NicAns o)}
    (hrounds : ports.toNat ≤ rounds) (ht : Traces (replayInitNics replay rounds) t (some last)) :
    ((setups t).map fun s => (s.1, s.2.1)).Nodup := by
  rw [h.setups_eq hports hrounds ht, List.map_flatMap, List.nodup_flatMap]
  simp only [List.map_append]
  constructor
  · intro port _
    rw [List.nodup_append]
    refine ⟨foundQueues_keys_nodup hports .rx port, foundQueues_keys_nodup hports .tx port, ?_⟩
    rintro key hrx _ htx rfl
    obtain ⟨_, rfl⟩ := mem_foundQueues_keys hrx
    obtain ⟨_, hsides⟩ := mem_foundQueues_keys htx
    exact absurd (Prod.mk.inj hsides).1 (by decide)
  · apply (List.nodup_finRange _).imp
    intro port port' hne key hkey hkey'
    have hnamed : ∀ p : Fin ports.toNat,
        key ∈ (foundQueues replay .rx p (List.finRange maxQueuesPerNicPort)).map (fun s => (s.1, s.2.1)) ++
          (foundQueues replay .tx p (List.finRange maxQueuesPerNicPort)).map (fun s => (s.1, s.2.1)) →
        ∃ queue, key.2 = nicQueue p queue := by
      intro p hp
      rcases List.mem_append.mp hp with hrx | htx
      · obtain ⟨queue, rfl⟩ := mem_foundQueues_keys hrx
        exact ⟨queue, rfl⟩
      · obtain ⟨queue, rfl⟩ := mem_foundQueues_keys htx
        exact ⟨queue, rfl⟩
    obtain ⟨queue, hqueue⟩ := hnamed port hkey
    obtain ⟨queue', hqueue'⟩ := hnamed port' hkey'
    exact hne ((nicQueue_inj (by omega)).mp (hqueue.symm.trans hqueue')).1

end setups

def IoOp.burst : IoOp → Option (Side × NicQueue)
  | .rxBurst port queue _ => some (.rx, ⟨port, queue⟩)
  | .ctrlmbufAlloc => none
  | .txBurst port queue _ _ => some (.tx, ⟨port, queue⟩)
  | .mbufFree _ => none
  | .index _ _ => none

def bursts (side : Side) (t : IoTrace) : List NicQueue :=
  t.filterMap fun e => e.1.burst.bind fun b => if b.1 = side then some b.2 else none

def allocation : ((o : IoOp) × IoAns o) → Option (Option Mbuf)
  | ⟨.rxBurst _ _ _, _⟩ => none
  | ⟨.ctrlmbufAlloc, m⟩ => some m
  | ⟨.txBurst _ _ _ _, _⟩ => none
  | ⟨.mbufFree _, _⟩ => none
  | ⟨.index _ _, _⟩ => none

def allocations (t : IoTrace) : List (Option Mbuf) := t.filterMap allocation

structure TakesTurns (rx tx : List NicQueue) (t : IoTrace) : Prop where
  polled : bursts .rx t = rx
  allocated : (allocations t).length = tx.length
  sent : bursts .tx t = (tx.zip (allocations t)).filterMap fun turn => turn.2.map fun _ => turn.1

section turns
variable {rx tx rx' tx' : List NicQueue} {t t' : IoTrace}

theorem TakesTurns.append (h : TakesTurns rx tx t) (h' : TakesTurns rx' tx' t') :
    TakesTurns (rx ++ rx') (tx ++ tx') (t ++ t') := by
  have hbursts : ∀ side, bursts side (t ++ t') = bursts side t ++ bursts side t' :=
    fun _ => List.filterMap_append
  have hallocs : allocations (t ++ t') = allocations t ++ allocations t' := List.filterMap_append
  constructor
  · rw [hbursts, h.polled, h'.polled]
  · rw [hallocs, List.length_append, List.length_append, h.allocated, h'.allocated]
  · rw [hbursts, hallocs, List.zip_append h.allocated.symm, List.filterMap_append, h.sent, h'.sent]

def IoOp.Quiet (o : IoOp) : Prop := o.burst = none ∧ o ≠ .ctrlmbufAlloc

theorem takesTurns_quiet (h : ∀ e ∈ t, e.1.Quiet) : TakesTurns [] [] t := by
  have hbursts : ∀ side, bursts side t = [] := by
    intro side
    apply List.filterMap_eq_nil_iff.mpr
    intro e he
    rw [(h e he).1]
    rfl
  have hallocs : allocations t = [] := by
    apply List.filterMap_eq_nil_iff.mpr
    rintro ⟨o, r⟩ he
    cases o with
    | rxBurst port queue nbPkts => rfl
    | ctrlmbufAlloc => exact absurd rfl (h _ he).2
    | txBurst port queue txPkts nbPkts => rfl
    | mbufFree m => rfl
    | index a i => rfl
  exact ⟨hbursts .rx, congrArg List.length hallocs, hbursts .tx⟩

theorem rxQueue_turn {bszRd : UInt32} {q : NicQueue} {r : Unit} (ht : Traces (rxQueue bszRd q) t r) :
    TakesTurns [q] [] t := by
  obtain ⟨t₁, t₂, pkts, rfl, h₁, h₂⟩ := traces_bind.mp ht
  obtain rfl := traces_ask.mp h₁
  have hquiet : Ensures IoOp.Quiet (fun _ => True) (dropAll 0 pkts) :=
    dropAll_ensures (fun _ _ => ⟨rfl, IoOp.noConfusion⟩) (fun _ => ⟨rfl, IoOp.noConfusion⟩) 0 pkts
  have hpoll : TakesTurns [q] [] [⟨.rxBurst q.port q.queue bszRd.toUInt16, pkts⟩] := ⟨rfl, rfl, rfl⟩
  exact hpoll.append (takesTurns_quiet (hquiet.traces h₂).2)

theorem txQueue_turn {bszTxWr : UInt32} {q : NicQueue} {r : Unit} (ht : Traces (txQueue bszTxWr q) t r) :
    TakesTurns [] [q] t := by
  obtain ⟨t₁, t₂, alloc, rfl, h₁, h₂⟩ := traces_bind.mp ht
  obtain rfl := traces_ask.mp h₁
  cases alloc with
  | none =>
    obtain ⟨rfl, _⟩ := traces_pure.mp h₂
    exact ⟨rfl, rfl, rfl⟩
  | some m =>
    obtain ⟨t₃, t₄, nPkts, rfl, h₃, h₄⟩ := traces_bind.mp h₂
    obtain rfl := traces_ask.mp h₃
    have hquiet : ∀ e ∈ t₄, e.1.Quiet := by
      split_ifs at h₄
      · exact ((freeUnsent_ensures (fun _ => ⟨rfl, IoOp.noConfusion⟩) m _ _).traces h₄).2
      · obtain rfl := traces_ask.mp h₄
        intro e he
        obtain rfl := List.mem_singleton.mp he
        exact ⟨rfl, IoOp.noConfusion⟩
    have hsend : TakesTurns [] [q] ([⟨.ctrlmbufAlloc, some m⟩] ++
        [⟨.txBurst q.port q.queue [m] bszTxWr.toUInt16, nPkts⟩]) := ⟨rfl, rfl, rfl⟩
    rw [← List.append_assoc]
    exact hsend.append (takesTurns_quiet hquiet)

theorem overQueues_turns {io : IoSide} {side : Side} {body : NicQueue → Io Unit} {is : List ℕ} {r : Unit}
    {rxOf txOf : NicQueue → List NicQueue}
    (hbody : ∀ q t r, Traces (body q) t r → TakesTurns (rxOf q) (txOf q) t)
    (his : ∀ i ∈ is, i < maxNicQueuesPerIoLcore) (ht : Traces (overQueues io side body is) t r) :
    TakesTurns ((is.filterMap fun i => (List.ofFn io.nicQueues)[i]?).flatMap rxOf)
      ((is.filterMap fun i => (List.ofFn io.nicQueues)[i]?).flatMap txOf) t := by
  induction is generalizing t with
  | nil =>
    obtain ⟨rfl, _⟩ := traces_pure.mp ht
    exact ⟨rfl, rfl, rfl⟩
  | cons i is ih =>
    rw [List.forall_mem_cons] at his
    rw [overQueues, dif_pos his.1] at ht
    obtain ⟨t₁, t', _, rfl, h₁, ht'⟩ := traces_bind.mp ht
    obtain ⟨t₂, t₃, _, rfl, h₂, h₃⟩ := traces_bind.mp ht'
    obtain rfl := traces_ask.mp h₁
    have hindex : TakesTurns [] [] [⟨.index (.nicQueues side) i, ()⟩] := ⟨rfl, rfl, rfl⟩
    have hget : (List.ofFn io.nicQueues)[i]? = some (io.nicQueues ⟨i, his.1⟩) := by
      rw [List.getElem?_eq_getElem (by rw [List.length_ofFn]; exact his.1), List.getElem_ofFn]
    rw [List.filterMap_cons_some hget, List.flatMap_cons, List.flatMap_cons]
    exact hindex.append ((hbody _ t₂ _ h₂).append (ih his.2 h₃))

theorem filterMap_range_getElem? (xs : List α) (n : ℕ) :
    ((List.range n).filterMap fun i => xs[i]?) = xs.take n := by
  induction n with
  | zero => rfl
  | succ n ih =>
    rw [List.range_succ, List.filterMap_append, ih, List.take_add_one]
    apply congrArg (xs.take n ++ ·)
    rw [List.filterMap_cons, List.filterMap_nil]
    cases xs[n]? with
    | none => rfl
    | some x => rfl

theorem ifQueues_turns {io : IoSide} {side : Side} {body : NicQueue → Io Unit} {r : Unit}
    {rxOf txOf : NicQueue → List NicQueue} (hroom : io.nNicQueues ≤ maxNicQueuesPerIoLcore)
    (hbody : ∀ q t r, Traces (body q) t r → TakesTurns (rxOf q) (txOf q) t)
    (ht : Traces (ifQueues io (overQueues io side body (List.range io.nNicQueues))) t r) :
    TakesTurns (io.queues.flatMap rxOf) (io.queues.flatMap txOf) t := by
  unfold ifQueues at ht
  split_ifs at ht with hpos
  · have hturns := overQueues_turns hbody (fun i hi => lt_of_lt_of_le (List.mem_range.mp hi) hroom) ht
    rw [filterMap_range_getElem?] at hturns
    exact hturns
  · obtain ⟨rfl, _⟩ := traces_pure.mp ht
    have hempty : io.queues = [] := by
      rw [IoSide.queues, Nat.eq_zero_of_not_pos hpos, List.take_zero]
    rw [hempty]
    exact ⟨rfl, rfl, rfl⟩

theorem mainLoopIo_turns {replay : Replay ports lcores} {lcore : Fin lcores.toNat} {rounds : ℕ} {r : Unit}
    (hroom : ∀ side, ((replay.lcoreParams lcore).io side).nNicQueues ≤ maxNicQueuesPerIoLcore)
    (ht : Traces (replayLcoreMainLoopIo replay lcore rounds) t r) :
    TakesTurns (List.replicate rounds ((replay.lcoreParams lcore).io .rx).queues).flatten
      (List.replicate rounds ((replay.lcoreParams lcore).io .tx).queues).flatten t := by
  induction rounds generalizing t with
  | zero =>
    obtain ⟨rfl, _⟩ := traces_pure.mp ht
    exact ⟨rfl, rfl, rfl⟩
  | succ rounds ih =>
    obtain ⟨t₁, t', _, rfl, h₁, ht'⟩ := traces_bind.mp ht
    obtain ⟨t₂, t₃, _, rfl, h₂, h₃⟩ := traces_bind.mp ht'
    have hrx : TakesTurns (((replay.lcoreParams lcore).io .rx).queues.flatMap fun q => [q])
        (((replay.lcoreParams lcore).io .rx).queues.flatMap fun _ => []) t₁ :=
      ifQueues_turns (hroom .rx) (fun _ _ _ h => rxQueue_turn h) h₁
    have htx : TakesTurns (((replay.lcoreParams lcore).io .tx).queues.flatMap fun _ => [])
        (((replay.lcoreParams lcore).io .tx).queues.flatMap fun q => [q]) t₂ :=
      ifQueues_turns (hroom .tx) (fun _ _ _ h => txQueue_turn h) h₂
    have hround := hrx.append (htx.append (ih h₃))
    have hnone : ∀ qs : List NicQueue, (qs.flatMap fun _ => ([] : List NicQueue)) = [] :=
      fun _ => List.flatMap_eq_nil_iff.mpr fun _ _ => rfl
    simp only [List.flatMap_singleton', hnone, List.nil_append] at hround
    rw [List.replicate_succ, List.replicate_succ, List.flatten_cons, List.flatten_cons]
    exact hround

end turns

def setUpFor (side : Side) (lcore : ℕ) (t : List ((o : NicOp) × NicAns o)) : List NicQueue :=
  (setups t).filterMap fun s => if s.1 = side ∧ s.2.2 = lcore then some s.2.1 else none

theorem mem_setUpFor {side : Side} {lcore : ℕ} {t : List ((o : NicOp) × NicAns o)} {q : NicQueue} :
    q ∈ setUpFor side lcore t ↔ (side, q, lcore) ∈ setups t := by
  rw [setUpFor, List.mem_filterMap]
  constructor
  · rintro ⟨⟨s, q', l⟩, hmem, hq⟩
    split_ifs at hq with hs
    obtain ⟨rfl, rfl⟩ : s = side ∧ l = lcore := hs
    obtain rfl := Option.some.inj hq
    exact hmem
  · exact fun h => ⟨_, h, if_pos ⟨rfl, rfl⟩⟩

theorem setUpFor_nodup {side : Side} {lcore : ℕ} {t : List ((o : NicOp) × NicAns o)}
    (h : ((setups t).map fun s => (s.1, s.2.1)).Nodup) : (setUpFor side lcore t).Nodup := by
  have hkeys : ((setUpFor side lcore t).map fun q => (side, q)).Sublist
      ((setups t).map fun s => (s.1, s.2.1)) := by
    unfold setUpFor
    induction setups t with
    | nil => exact List.Sublist.slnil
    | cons s ss ih =>
      rw [List.filterMap_cons]
      by_cases hs : s.1 = side ∧ s.2.2 = lcore
      · rw [if_pos hs, List.map_cons, List.map_cons, hs.1]
        exact ih.cons_cons _
      · rw [if_neg hs]
        exact ih.cons _
  exact (hkeys.nodup h).of_map _

structure ServedAsSetUp (replay : Replay ports lcores) (ti : List ((o : NicOp) × NicAns o)) : Prop where
  once : ((setups ti).map fun s => (s.1, s.2.1)).Nodup
  turns : ∀ lcore : Fin lcores.toNat, ∃ rx tx : List NicQueue,
    rx.Perm (setUpFor .rx lcore ti) ∧ tx.Perm (setUpFor .tx lcore ti) ∧
    ∀ rounds t, Traces (replayLcoreMainLoop replay lcore rounds) t () →
      TakesTurns (List.replicate rounds rx).flatten (List.replicate rounds tx).flatten t
  exclusive : ∀ launched t, Running launched replay t → ∀ lcore e side q, (lcore, e) ∈ t →
    e.1.burst = some (side, q) → (side, q, (lcore : ℕ)) ∈ setups ti ∧
    ∀ other e', (other, e') ∈ t → e'.1.burst = some (side, q) → other = lcore

theorem mem_bursts {t : IoTrace} {e : (o : IoOp) × IoAns o} {side : Side} {q : NicQueue} (he : e ∈ t)
    (hb : e.1.burst = some (side, q)) : q ∈ bursts side t :=
  List.mem_filterMap.mpr ⟨e, he, by rw [hb, Option.bind_some, if_pos rfl]⟩

theorem setups_inj {t : List ((o : NicOp) × NicAns o)} (h : ((setups t).map fun s => (s.1, s.2.1)).Nodup)
    {side : Side} {q : NicQueue} {l l' : ℕ} (hl : (side, q, l) ∈ setups t) (hl' : (side, q, l') ∈ setups t) :
    l = l' := by
  have hsame := List.inj_on_of_nodup_map h hl hl' rfl
  exact (Prod.mk.inj (Prod.mk.inj hsame).2).2

theorem mem_of_turns {rx tx : List NicQueue} {rounds : ℕ} {t : IoTrace} {q : NicQueue} {side : Side}
    (h : TakesTurns (List.replicate rounds rx).flatten (List.replicate rounds tx).flatten t)
    (hq : q ∈ bursts side t) : side = .rx ∧ q ∈ rx ∨ side = .tx ∧ q ∈ tx := by
  have hround : ∀ qs : List NicQueue, q ∈ (List.replicate rounds qs).flatten → q ∈ qs := by
    intro qs hmem
    obtain ⟨qs', hqs', hmem'⟩ := List.mem_flatten.mp hmem
    rwa [List.eq_of_mem_replicate hqs'] at hmem'
  cases side with
  | rx =>
    rw [h.polled] at hq
    exact Or.inl ⟨rfl, hround rx hq⟩
  | tx =>
    rw [h.sent] at hq
    obtain ⟨turn, hturn, hsome⟩ := List.mem_filterMap.mp hq
    obtain ⟨_, _, rfl⟩ := Option.map_eq_some_iff.mp hsome
    exact Or.inr ⟨rfl, hround tx (List.of_mem_zip hturn).1⟩

/-- After options that are accepted and an initialisation without panic, the lcores serve exactly the
queues that have been set up for them. -/
theorem queues_served_as_set_up {strsplit : Strsplit} {enabled : UInt32 → Bool} {args : List (Opt × Text)}
    {replay : Replay ports lcores} (hports : ports.toNat ≤ 255)
    (hconfigured : Configured strsplit enabled args replay) {inits last : ℕ}
    {ti : List ((o : NicOp) × NicAns o)} (hinits : ports.toNat ≤ inits)
    (hinit : Traces (replayInitNics replay inits) ti (some last)) :
    ServedAsSetUp replay ti := by
  have hle : ports.toNat ≤ 256 := by omega
  have hmem := fun side q lcore =>
    @Configured.mem_setups_iff _ _ _ _ _ _ hports hconfigured _ _ _ hinits hinit side q lcore
  have honce := hconfigured.setups_nodup hports hinits hinit
  have hperm : ∀ side lcore,
      ((replay.lcoreParams lcore).io side).queues.Perm (setUpFor side lcore ti) := by
    intro side lcore
    rw [List.perm_ext_iff_of_nodup (hconfigured.queues_nodup hle side lcore) (setUpFor_nodup honce)]
    intro q
    rw [mem_setUpFor, hmem]
  have hturns : ∀ lcore rounds t, Traces (replayLcoreMainLoop replay lcore rounds) t () →
      TakesTurns (List.replicate rounds ((replay.lcoreParams lcore).io .rx).queues).flatten
        (List.replicate rounds ((replay.lcoreParams lcore).io .tx).queues).flatten t := by
    intro lcore rounds t ht
    unfold replayLcoreMainLoop at ht
    split_ifs at ht with hio
    · exact mainLoopIo_turns (fun side => (hconfigured.agrees hle side).elim fun _ ha => ha.room lcore) ht
    · obtain ⟨rfl, _⟩ := traces_pure.mp ht
      -- an lcore without the type has no queues
      have hempty : ∀ side, ((replay.lcoreParams lcore).io side).queues = [] := by
        intro side
        obtain ⟨k, ha⟩ := hconfigured.agrees hle side
        by_contra hne
        exact hio (ha.io lcore hne)
      rw [hempty, hempty, List.flatten_replicate_nil]
      exact ⟨rfl, rfl, rfl⟩
  refine ⟨honce, fun lcore => ⟨_, _, hperm .rx lcore, hperm .tx lcore, hturns lcore⟩, ?_⟩
  intro launched t ht lcore e side q he hb
  have hserves : ∀ lcore e, (lcore, e) ∈ t → e.1.burst = some (side, q) →
      (side, q, (lcore : ℕ)) ∈ setups ti := by
    intro lcore e he hb
    by_cases hlaunched : launched lcore
    · obtain ⟨rounds, t', ht', hpre⟩ := ht.loop lcore hlaunched
      have hserved := mem_bursts (hpre.subset (mem_ofWorker.mpr he)) hb
      rw [hmem]
      rcases mem_of_turns (hturns lcore rounds t' ht') hserved with ⟨rfl, hq⟩ | ⟨rfl, hq⟩
      · exact hq
      · exact hq
    · have hpart := mem_ofWorker.mpr he
      rw [ht.idle lcore hlaunched] at hpart
      exact absurd hpart List.not_mem_nil
  refine ⟨hserves lcore e he hb, fun other e' he' hb' => ?_⟩
  exact Fin.ext (setups_inj honce (hserves other e' he' hb') (hserves lcore e he hb))

theorem dry_initPorts_some {replay : Replay ports lcores} (hports : ports.toNat ≤ 256)
    (hsmall : ∀ side port queue, replay.nicQueueMask side port queue ≠ 0 →
      replay.nicQueueMask side port queue = 1) (rounds : ℕ) (first : UInt8) (lcore : ℕ) :
    ∃ last, (dry okNic (initPorts replay rounds first lcore)).2 = some last := by
  induction rounds generalizing first lcore with
  | zero => exact ⟨lcore, rfl⟩
  | succ rounds ih =>
    rw [initPorts]
    split_ifs with hlt
    · obtain ⟨l, hl⟩ := (@dry_initPort _ _ replay ⟨first.toNat, hlt⟩ (fun _ _ => 0) [] hports
        (fun side => hsmall side _) lcore).1
      rw [dry_andThen hl]
      exact ih (first + 1) l
    · exact ⟨lcore, rfl⟩

theorem Configured.initNics_runs {strsplit : Strsplit} {enabled : UInt32 → Bool} {args : List (Opt × Text)}
    {replay : Replay ports lcores} (hports : ports.toNat ≤ 256) (h : Configured strsplit enabled args replay)
    (rounds : ℕ) : ∃ t last, Traces (replayInitNics replay rounds) t (some last) := by
  obtain ⟨last, hlast⟩ := dry_initPorts_some hports (h.mask_small hports) rounds 0 0
  have ht := traces_dry okNic (replayInitNics replay rounds)
  rw [replayInitNics, hlast] at ht
  exact ⟨_, last, ht⟩

theorem queues_served_two_lcores : ∃ (replay : Replay 32 128) (ti : List ((o : NicOp) × NicAns o)) (last : ℕ),
    Configured split (fun _ => true) [(.queues .rx, ['(', '0', ',', '0', ',', '1', ')']),
      (.queues .tx, ['(', '0', ',', '0', ',', '0', ',', '2', ')'])] replay ∧
    Traces (replayInitNics replay 32) ti (some last) ∧ ServedAsSetUp replay ti := by
  have hrx : parentheses ['(', '0', ',', '0', ',', '1', ')'] = ([['0', ',', '0', ',', '1']], true) :=
    @parentheses_one ['0', ',', '0', ',', '1'] (by decide)
  have htx : parentheses ['(', '0', ',', '0', ',', '0', ',', '2', ')'] =
      ([['0', ',', '0', ',', '0', ',', '2']], true) :=
    @parentheses_one ['0', ',', '0', ',', '0', ',', '2'] (by decide)
  have hfirst : parseOpt split (fun _ => true) (.queues .rx) _ (Replay.zero 32 128) = _ :=
    @parseArg_one 32 128 split (fun _ => true) .rx _ _ ⟨0, 0, 1, none⟩ (Replay.zero 32 128) (by decide) hrx
      rfl rfl
  have hsecond : parseOpt split (fun _ => true) (.queues .tx) _
      ((Replay.zero 32 128).storeTuple (fun _ => true) .rx ⟨0, 0, 1, none⟩).2 = _ :=
    @parseArg_one 32 128 split (fun _ => true) .tx _ _ ⟨0, 0, 2, some 0⟩ _ (by decide) htx rfl rfl
  have h := configured_two hfirst hsecond
  obtain ⟨ti, last, hinit⟩ := h.initNics_runs (by decide) 32
  exact ⟨_, ti, last, h, hinit, queues_served_as_set_up (by decide) h (by decide) hinit⟩

end PcapReplay
