import PcapReplay.Lib.Script
import PcapReplay.Replay.Links
import PcapReplay.Replay.Pools

/-! The whole initialisation, and the calls that it makes. -/

namespace PcapReplay
open Interaction Prog Tokens
variable {ports lcores : UInt32}

inductive StartOp where
  | pool (o : PoolOp)
  | nic (o : NicOp)
  | link (o : LinkOp)

@[reducible] def StartAns : StartOp → Type
  | .pool o => PoolAns o
  | .nic o => NicAns o
  | .link o => LinkAns o

abbrev Start (α : Type) := Prog StartOp StartAns α

abbrev StartTrace := List ((o : StartOp) × StartAns o)

def PoolIo.start {α : Type} (p : PoolIo α) : Start α := @embed PoolOp α StartOp StartAns .pool p

def Nic.start {α : Type} (p : Nic α) : Start α := @embed NicOp α StartOp StartAns .nic p

def Link.start {α : Type} (p : Link α) : Start α := @embed LinkOp α StartOp StartAns .link p

def replayInitRingsTx (replay : Replay ports lcores) : Bool :=
  (List.finRange lcores.toNat).all fun lcore =>
    (replay.lcoreParams lcore).type ≠ .worker ∨ (List.finRange ports.toNat).all fun port =>
      replay.getNicQueuesPerPort .tx (UInt8.ofNat port) = 0 ∨
        (replay.getLcoreForNic .tx (UInt8.ofNat port) 0).isSome

/-- The initialisation up to the timer library; `none` is an `rte_panic`. The check of the links is the
end of `replay_init_nics`. -/
def replayInit (replay : Replay ports lcores) (socketOf : Fin lcores.toNat → ℕ) (rounds : ℕ) :
    Start (Option (Pools lcores)) := do
  match ← PoolIo.start (replayInitMbufPools replay socketOf) with
  | none => pure none
  | some p =>
    if replayInitRingsTx replay = false then pure none
    else do
      match ← Nic.start (replayInitNics replay rounds) with
      | none => pure none
      | some _ => do
        Link.start (checkAllPortsLinkStatus replay ports.toUInt8 0xffffffff)
        pure (some p)

def PoolOp.Fails : (o : PoolOp) → PoolAns o → Prop
  | .mempoolCreate _, pool => pool = none
  | .behindPools _, _ => False

def NicOp.Fails : (o : NicOp) → NicAns o → Prop
  | .devConfigure _ _ _, ret => (ret : ℤ) < 0
  | .promiscuousEnable _, _ => False
  | .queueSetup _ _ _ _ _, ret => (ret : ℤ) < 0
  | .devStart _, ret => (ret : ℤ) < 0

def StartOp.Fails : (o : StartOp) → StartAns o → Prop
  | .pool o, r => o.Fails r
  | .nic o, r => o.Fails r
  | .link _, _ => False

section plan
variable (replay : Replay ports lcores) (socketOf : Fin lcores.toNat → ℕ)

def poolPlan : List PoolOp :=
  ((List.finRange maxSockets).filter fun socket : Fin maxSockets => replay.isSocketUsed socketOf socket).map
      (fun socket : Fin maxSockets => PoolOp.mempoolCreate socket) ++
    ((List.finRange lcores.toNat).filter fun lcore : Fin lcores.toNat =>
      (replay.lcoreParams lcore).type ≠ .disabled ∧ maxSockets ≤ socketOf lcore).map
      fun lcore : Fin lcores.toNat => PoolOp.behindPools (socketOf lcore)

def queuePlan (side : Side) (port : Fin ports.toNat) (queues : List (Fin maxQueuesPerNicPort)) : List NicOp :=
  queues.filterMap fun queue : Fin maxQueuesPerNicPort =>
    (replay.getLcoreForNic side (UInt8.ofNat port) (UInt8.ofNat queue)).map fun lcore : Fin lcores.toNat =>
      .queueSetup side (UInt8.ofNat port) (UInt8.ofNat queue) (replay.nicRingSize side).toUInt16 lcore

def portPlan (port : Fin ports.toNat) : List NicOp :=
  if nQueues replay .rx port = 0 ∧ nQueues replay .tx port = 0 then []
  else
    .devConfigure (UInt8.ofNat port) (nQueues replay .rx port).toUInt8 (nQueues replay .tx port).toUInt8 ::
      .promiscuousEnable (UInt8.ofNat port) ::
      (queuePlan replay .rx port (List.finRange maxQueuesPerNicPort) ++
        (queuePlan replay .tx port (List.finRange maxQueuesPerNicPort) ++ [.devStart (UInt8.ofNat port)]))

def startPlan : List StartOp :=
  (poolPlan replay socketOf).map .pool ++ ((List.finRange ports.toNat).flatMap (portPlan replay)).map .nic

/-- All calls of the plan have been made, none has failed, and the links have been reported. -/
def Initialised (t : StartTrace) : Prop :=
  ∃ (calls : StartTrace) (links : LinkTrace), t = calls ++ links.map (fun e => ⟨.link e.1, e.2⟩) ∧
    Completes StartOp.Fails (startPlan replay socketOf) calls ∧
    LinksReported (((List.range ports.toUInt8.toNat).map UInt8.ofNat).filter (replay.linkChecked 0xffffffff)) links

end plan

section pools
variable {replay : Replay ports lcores} {socketOf : Fin lcores.toNat → ℕ}

theorem obeys_createPools (sockets : List (Fin maxSockets)) (p : Pools lcores) :
    Obeys PoolOp.Fails ((sockets.filter fun socket : Fin maxSockets => replay.isSocketUsed socketOf socket).map
      fun socket : Fin maxSockets => PoolOp.mempoolCreate socket)
      (createPools replay socketOf sockets p) := by
  induction sockets generalizing p with
  | nil => exact obeys_pure _
  | cons socket sockets ih =>
    rw [createPools]
    split_ifs with hused
    · rw [List.filter_cons_of_neg (by rw [hused]; decide)]
      exact ih p
    · have hused : replay.isSocketUsed socketOf socket = true := Bool.eq_true_of_not_eq_false hused
      rw [List.filter_cons_of_pos (by rw [hused]), List.map_cons]
      apply obeys_ask
      · rintro pool rfl
        rfl
      · intro pool hpool
        obtain ⟨a, rfl⟩ := Option.ne_none_iff_exists'.mp hpool
        exact ih _

theorem obeys_assignPools (order : List (Fin lcores.toNat)) (p : Pools lcores) :
    Obeys PoolOp.Fails ((order.filter fun lcore : Fin lcores.toNat =>
      (replay.lcoreParams lcore).type ≠ .disabled ∧ maxSockets ≤ socketOf lcore).map
      fun lcore : Fin lcores.toNat => PoolOp.behindPools (socketOf lcore))
      (assignPools replay socketOf order p >>= fun p => pure (some p)) := by
  induction order generalizing p with
  | nil => exact obeys_pure _
  | cons lcore order ih =>
    rw [assignPools]
    split_ifs with htype
    · rw [List.filter_cons_of_neg (by simp [htype])]
      exact ih p
    · rw [bind_assoc, poolOfSocket]
      split_ifs with hsocket
      · rw [List.filter_cons_of_neg (by simp [hsocket]), pure_bind]
        exact ih _
      · rw [List.filter_cons_of_pos (by simp [htype, Nat.not_lt.mp hsocket]), List.map_cons]
        exact obeys_ask (fun _ hr => hr.elim) fun _ _ => ih _

theorem obeys_initMbufPools :
    Obeys PoolOp.Fails (poolPlan replay socketOf) (replayInitMbufPools replay socketOf) :=
  (obeys_createPools _ _).bind rfl fun p => obeys_assignPools _ p

end pools

section nics
variable {strsplit : Strsplit} {enabled : UInt32 → Bool} {args : List (Opt × Text)}
  {replay : Replay ports lcores} (hports : ports.toNat ≤ 255) (h : Configured strsplit enabled args replay)
include hports h

theorem Configured.obeys_setupQueues (side : Side) (port : Fin ports.toNat)
    (queues : List (Fin maxQueuesPerNicPort)) (lcore : ℕ) :
    Obeys NicOp.Fails (queuePlan replay side port queues)
      (setupQueues replay side port queues lcore) := by
  have hle : ports.toNat ≤ 256 := by omega
  induction queues generalizing lcore with
  | nil => exact obeys_pure _
  | cons queue queues ih =>
    rw [setupQueues]
    split_ifs with hmask
    · have hskip := h.lookup_notFound hle side port queue (by rw [hmask]; decide)
      rw [queuePlan, List.filterMap_cons_none (by rw [hskip]; rfl)]
      exact ih lcore
    · obtain ⟨l, hl⟩ := h.lookup_found hle side port queue hmask
      rw [queuePlan, List.filterMap_cons_some (by rw [hl]; rfl)]
      simp only [hl]
      apply obeys_ask
      · exact fun _ hret => if_pos hret
      · intro ret hret
        have hret : ¬ (ret : ℤ) < 0 := hret
        rw [if_neg hret]
        exact ih _

theorem Configured.obeys_initPort (port : Fin ports.toNat) (lcore : ℕ) :
    Obeys NicOp.Fails (portPlan replay port) (initPort replay port lcore) := by
  unfold initPort portPlan
  split_ifs with hzero
  · exact obeys_pure _
  · apply obeys_ask
    · exact fun _ hr => if_pos hr
    · intro ret hret
      have hret : ¬ (ret : ℤ) < 0 := hret
      rw [if_neg hret]
      apply obeys_ask
      · exact fun _ hr => hr.elim
      · intro _ _
        refine (h.obeys_setupQueues hports .rx port _ lcore).bind rfl fun lcore => ?_
        refine (h.obeys_setupQueues hports .tx port _ lcore).bind rfl fun lcore => ?_
        apply obeys_ask
        · exact fun _ hret => if_pos hret
        · intro ret hret
          have hret : ¬ (ret : ℤ) < 0 := hret
          rw [if_neg hret]
          exact obeys_pure _

theorem Configured.obeys_initPorts {rounds : ℕ} {first : UInt8} (lcore : ℕ)
    (hrounds : ports.toNat ≤ first.toNat + rounds) :
    Obeys NicOp.Fails (((List.finRange ports.toNat).drop first.toNat).flatMap (portPlan replay))
      (initPorts replay rounds first lcore) := by
  induction rounds generalizing first lcore with
  | zero =>
    rw [drop_finRange_of_le (show ports.toNat ≤ first.toNat from hrounds)]
    exact obeys_pure _
  | succ rounds ih =>
    rw [initPorts]
    split_ifs with hlt
    · have hsucc : (first + 1).toNat = first.toNat + 1 := by
        rw [UInt8.toNat_add, UInt8.toNat_one]
        omega
      have hlen : first.toNat < (List.finRange ports.toNat).length := by
        rw [List.length_finRange]
        exact hlt
      rw [List.drop_eq_getElem_cons hlen, List.flatMap_cons, List.getElem_finRange, ← hsucc]
      exact (h.obeys_initPort hports _ lcore).bind rfl fun lcore => ih lcore (by rw [hsucc]; omega)
    · rw [drop_finRange_of_le (Nat.not_lt.mp hlt)]
      exact obeys_pure _

theorem Configured.obeys_initNics {rounds : ℕ} (hrounds : ports.toNat ≤ rounds) :
    Obeys NicOp.Fails ((List.finRange ports.toNat).flatMap (portPlan replay))
      (replayInitNics replay rounds) := by
  have hzero : ports.toNat ≤ (0 : UInt8).toNat + rounds := by
    rw [UInt8.toNat_zero, Nat.zero_add]
    exact hrounds
  exact h.obeys_initPorts hports 0 hzero

theorem Configured.ringsTx : replayInitRingsTx replay = true := by
  apply List.all_eq_true.mpr
  intro lcore _
  apply decide_eq_true
  left
  rcases (h.queueLists (by omega)).inUse lcore with hidle | ⟨hio, _⟩
  · rw [hidle]
    decide
  · rw [hio]
    decide

end nics

/-- After options that are accepted the initialisation makes the calls of its plan, in that order, and
reports the links at the end, or a call fails and is the last one. -/
theorem startup_follows_plan {strsplit : Strsplit} {enabled : UInt32 → Bool} {args : List (Opt × Text)}
    {replay : Replay ports lcores} (hports : ports.toNat ≤ 255) (h : Configured strsplit enabled args replay)
    (socketOf : Fin lcores.toNat → ℕ) {rounds : ℕ} (hrounds : ports.toNat ≤ rounds) {t : StartTrace}
    {r : Option (Pools lcores)} (ht : Traces (replayInit replay socketOf rounds) t r) :
    (∃ p, r = some p) ∧ Initialised replay socketOf t ∨
      r = none ∧ Breaks StartOp.Fails (startPlan replay socketOf) t := by
  have hpools : Obeys StartOp.Fails ((poolPlan replay socketOf).map .pool)
      (PoolIo.start (replayInitMbufPools replay socketOf)) := Obeys.embed obeys_initMbufPools
  have hnics : Obeys StartOp.Fails (((List.finRange ports.toNat).flatMap (portPlan replay)).map .nic)
      (Nic.start (replayInitNics replay rounds)) := Obeys.embed (h.obeys_initNics hports hrounds)
  unfold replayInit at ht
  rcases hpools.traces_bind ht rfl with ⟨hr, hbreaks⟩ | ⟨t₁, t', p, rfl, hfirst, ht'⟩
  · exact Or.inr ⟨hr, hbreaks.append _⟩
  · have hgo : ¬ replayInitRingsTx replay = false := by
      rw [h.ringsTx hports]
      decide
    simp only [if_neg hgo] at ht'
    rcases hnics.traces_bind ht' rfl with ⟨hr, hbreaks⟩ | ⟨t₂, t₃, _, rfl, hsecond, h₃⟩
    · exact Or.inr ⟨hr, hfirst.breaks hbreaks⟩
    · obtain ⟨t₄, t₅, _, rfl, h₄, h₅⟩ := traces_bind.mp h₃
      obtain ⟨rfl, rfl⟩ := traces_pure.mp h₅
      obtain ⟨links, rfl, hlinks⟩ := traces_embed.mp h₄
      refine Or.inl ⟨⟨p, rfl⟩, t₁ ++ t₂, links, ?_, hfirst.append hsecond, links_reported _ _ _ hlinks⟩
      rw [List.append_nil, List.append_assoc]

def goodAnswers : (o : StartOp) → StartAns o
  | .pool (.mempoolCreate socket) => some socket
  | .pool (.behindPools _) => none
  | .nic (.devConfigure _ _ _) => (0 : ℤ)
  | .nic (.promiscuousEnable _) => ()
  | .nic (.queueSetup _ _ _ _ _) => (0 : ℤ)
  | .nic (.devStart _) => (0 : ℤ)
  | .link o => downLinks o

theorem goodAnswers_not_fails : ∀ o : StartOp, ¬ o.Fails (goodAnswers o)
  | .pool (.mempoolCreate socket) => Option.some_ne_none socket
  | .pool (.behindPools _) => not_false
  | .nic (.devConfigure _ _ _) => Int.lt_irrefl 0
  | .nic (.promiscuousEnable _) => not_false
  | .nic (.queueSetup _ _ _ _ _) => Int.lt_irrefl 0
  | .nic (.devStart _) => Int.lt_irrefl 0
  | .link _ => not_false

theorem startup_follows_plan_one : ∃ replay : Replay 32 128,
    Configured split (fun _ => true) [(.queues .tx, ['(', '0', ',', '0', ',', '0', ',', '1', ')'])] replay ∧
    ∃ t r, Traces (replayInit replay (fun _ => 0) 32) t r ∧ Initialised replay (fun _ => 0) t := by
  have harg : parentheses ['(', '0', ',', '0', ',', '0', ',', '1', ')'] =
      ([['0', ',', '0', ',', '0', ',', '1']], true) :=
    @parentheses_one ['0', ',', '0', ',', '0', ',', '1'] (by decide)
  obtain ⟨replay, h, _⟩ := @configured_one 32 128 split (fun _ => true) _ _ ⟨0, 0, 1, some 0⟩ .tx
    (by decide) harg rfl rfl
  have hports : (32 : UInt32).toNat ≤ 255 := by decide
  have hrounds : (32 : UInt32).toNat ≤ 32 := by decide
  have ht := traces_dry goodAnswers (replayInit replay (fun _ => 0) 32)
  refine ⟨replay, h, _, _, ht, ?_⟩
  rcases startup_follows_plan hports h (fun _ => 0) hrounds ht with ⟨_, hall⟩ | ⟨_, _, t₁, e, hsplit, he, _⟩
  · exact hall
  · have hmem := List.mem_append_right t₁ (List.mem_singleton_self e)
    rw [← hsplit] at hmem
    obtain ⟨o, _, rfl⟩ := List.mem_map.mp hmem
    exact absurd he (goodAnswers_not_fails o)

end PcapReplay
