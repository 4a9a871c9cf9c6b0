import PcapReplay.Replay.Served

/-! The mbuf pools of the sockets, and the pools that the lcores use. -/

namespace PcapReplay
open Interaction Prog Tokens
variable {ports lcores : UInt32}

abbrev Mempool := ℕ

def maxSockets : ℕ := 2

inductive PoolOp where
  | mempoolCreate (socket : ℕ)
  /-- An element of `pools` is read that lies behind the array. -/
  | behindPools (socket : ℕ)

abbrev PoolAns : PoolOp → Type
  | .mempoolCreate _ => Option Mempool
  | .behindPools _ => Option Mempool

abbrev PoolIo (α : Type) := Prog PoolOp PoolAns α

abbrev PoolTrace := List ((o : PoolOp) × PoolAns o)

abbrev rteMempoolCreate (socket : ℕ) : PoolIo (Option Mempool) := ask (PoolOp.mempoolCreate socket)

structure Pools (lcores : UInt32) where
  pools : Fin maxSockets → Option Mempool
  lcorePool : Fin lcores.toNat → Option Mempool

def Replay.isSocketUsed (replay : Replay ports lcores) (socketOf : Fin lcores.toNat → ℕ) (socket : ℕ) :
    Bool :=
  (List.finRange lcores.toNat).any fun lcore =>
    (replay.lcoreParams lcore).type ≠ .disabled ∧ socket = socketOf lcore

section init
variable (replay : Replay ports lcores) (socketOf : Fin lcores.toNat → ℕ)

def createPools : List (Fin maxSockets) → Pools lcores → PoolIo (Option (Pools lcores))
  | [], p => pure (some p)
  | socket :: sockets, p =>
    if replay.isSocketUsed socketOf socket = false then createPools sockets p
    else do
      match ← rteMempoolCreate socket with
      | none => pure none
      | some pool => createPools sockets { p with pools := Function.update p.pools socket (some pool) }

def poolOfSocket (p : Pools lcores) (socket : ℕ) : PoolIo (Option Mempool) :=
  if h : socket < maxSockets then pure (p.pools ⟨socket, h⟩) else ask (PoolOp.behindPools socket)

def assignPools : List (Fin lcores.toNat) → Pools lcores → PoolIo (Pools lcores)
  | [], p => pure p
  | lcore :: rest, p =>
    if (replay.lcoreParams lcore).type = .disabled then assignPools rest p
    else do
      let pool ← poolOfSocket p (socketOf lcore)
      assignPools rest { p with lcorePool := Function.update p.lcorePool lcore pool }

def replayInitMbufPools : PoolIo (Option (Pools lcores)) := do
  match ← createPools replay socketOf (List.finRange maxSockets)
    { pools := fun _ => none, lcorePool := fun _ => none } with
  | none => pure none
  | some p => do
    let p ← assignPools replay socketOf (List.finRange lcores.toNat) p
    pure (some p)

end init

section loops
variable {replay : Replay ports lcores} {socketOf : Fin lcores.toNat → ℕ}

theorem isSocketUsed_iff (socket : ℕ) : replay.isSocketUsed socketOf socket = true ↔
    ∃ lcore, (replay.lcoreParams lcore).type ≠ .disabled ∧ socketOf lcore = socket := by
  unfold Replay.isSocketUsed
  rw [List.any_eq_true]
  simp only [List.mem_finRange, true_and, decide_eq_true_eq, @eq_comm _ socket]

theorem createPools_created {sockets : List (Fin maxSockets)} {before p : Pools lcores} {t : PoolTrace}
    (ht : Traces (createPools replay socketOf sockets before) t (some p)) :
    p.lcorePool = before.lcorePool ∧ (∀ socket r, ⟨.behindPools socket, r⟩ ∉ t) ∧
    (∀ socket, socket ∉ sockets ∨ replay.isSocketUsed socketOf socket = false →
      p.pools socket = before.pools socket) ∧
    ∀ socket ∈ sockets, replay.isSocketUsed socketOf socket = true → (p.pools socket).isSome := by
  induction sockets generalizing before t with
  | nil =>
    obtain ⟨rfl, hp⟩ := traces_pure.mp ht
    obtain rfl := Option.some.inj hp
    exact ⟨rfl, fun _ _ => List.not_mem_nil, fun _ _ => rfl, fun _ h => absurd h List.not_mem_nil⟩
  | cons socket sockets ih =>
    rw [createPools] at ht
    split_ifs at ht with hused
    · obtain ⟨hlcores, hinside, hsame, hcreated⟩ := ih ht
      refine ⟨hlcores, hinside, fun s hs => hsame s ?_, fun s hs hs' => ?_⟩
      · exact hs.imp_left fun hnot hmem => hnot (List.mem_cons_of_mem socket hmem)
      · rcases List.mem_cons.mp hs with rfl | hlater
        · rw [hused] at hs'
          exact absurd hs' Bool.false_ne_true
        · exact hcreated s hlater hs'
    · obtain ⟨t₁, t₂, answer, rfl, h₁, h₂⟩ := traces_bind.mp ht
      obtain rfl := traces_ask.mp h₁
      cases answer with
      | none => exact absurd (traces_pure.mp h₂).2 (by simp)
      | some pool =>
        obtain ⟨hlcores, hinside, hsame, hcreated⟩ := ih h₂
        refine ⟨hlcores, fun s r hmem => ?_, fun s hs => ?_, fun s hs hs' => ?_⟩
        · rcases List.mem_append.mp hmem with hnow | hlater
          · exact absurd (List.mem_singleton.mp hnow) (by simp)
          · exact hinside s r hlater
        · have hne : s ≠ socket := by
            rintro rfl
            exact hs.elim (fun h => h List.mem_cons_self) hused
          rw [hsame s (hs.imp_left fun hnot hmem => hnot (List.mem_cons_of_mem socket hmem))]
          exact Function.update_of_ne hne _ _
        · by_cases hmem : s ∈ sockets
          · exact hcreated s hmem hs'
          · obtain rfl := (List.mem_cons.mp hs).resolve_right hmem
            rw [hsame s (Or.inl hmem)]
            show (Function.update before.pools s (some pool) s).isSome
            rw [Function.update_self]
            rfl

theorem assignPools_assigned {order : List (Fin lcores.toNat)} {before p : Pools lcores} {t : PoolTrace}
    (horder : order.Nodup) (ht : Traces (assignPools replay socketOf order before) t p) :
    p.pools = before.pools ∧ (∀ lcore, lcore ∉ order → p.lcorePool lcore = before.lcorePool lcore) ∧
    (∀ lcore ∈ order, (replay.lcoreParams lcore).type ≠ .disabled → ∀ h : socketOf lcore < maxSockets,
      p.lcorePool lcore = before.pools ⟨socketOf lcore, h⟩) ∧
    ((∀ socket r, ⟨.behindPools socket, r⟩ ∉ t) ↔
      ∀ lcore ∈ order, (replay.lcoreParams lcore).type ≠ .disabled → socketOf lcore < maxSockets) := by
  induction order generalizing before t with
  | nil =>
    obtain ⟨rfl, rfl⟩ := traces_pure.mp ht
    exact ⟨rfl, fun _ _ => rfl, fun _ h => absurd h List.not_mem_nil,
      iff_of_true (fun _ _ => List.not_mem_nil) fun _ h => absurd h List.not_mem_nil⟩
  | cons lcore order ih =>
    rw [List.nodup_cons] at horder
    rw [assignPools] at ht
    split_ifs at ht with htype
    · obtain ⟨hpools, hothers, hassigned, hinside⟩ := ih horder.2 ht
      refine ⟨hpools, fun l hl => hothers l fun hmem => hl (List.mem_cons_of_mem lcore hmem), ?_, ?_⟩
      · intro l hl hl'
        rcases List.mem_cons.mp hl with rfl | hlater
        · exact absurd htype hl'
        · exact hassigned l hlater hl'
      · rw [hinside, List.forall_mem_cons]
        exact ⟨fun h => ⟨fun hl => absurd htype hl, h⟩, fun h => h.2⟩
    · obtain ⟨t₁, t₂, pool, rfl, h₁, h₂⟩ := traces_bind.mp ht
      obtain ⟨hpools, hothers, hassigned, hinside⟩ := ih horder.2 h₂
      have hlcore : p.lcorePool lcore = pool := by
        rw [hothers lcore horder.1]
        exact Function.update_self _ _ _
      refine ⟨hpools, fun l hl => ?_, fun l hl hl' hsocket => ?_, ?_⟩
      · rw [hothers l fun hmem => hl (List.mem_cons_of_mem lcore hmem)]
        apply Function.update_of_ne
        rintro rfl
        exact hl List.mem_cons_self
      · rcases List.mem_cons.mp hl with rfl | hlater
        · rw [hlcore]
          rw [poolOfSocket, dif_pos hsocket] at h₁
          exact (traces_pure.mp h₁).2
        · exact hassigned l hlater hl' hsocket
      · rw [List.forall_mem_cons, ← hinside]
        unfold poolOfSocket at h₁
        split_ifs at h₁ with hsocket
        · obtain ⟨rfl, _⟩ := traces_pure.mp h₁
          exact ⟨fun h => ⟨fun _ => hsocket, h⟩, fun h => h.2⟩
        · obtain rfl := traces_ask.mp h₁
          constructor
          · exact fun h => absurd (List.mem_append_left _ List.mem_cons_self) (h _ _)
          · exact fun h => absurd (h.1 htype) hsocket

end loops

def Serves (replay : Replay ports lcores) (lcore : Fin lcores.toNat) : Prop :=
  ∃ side, ((replay.lcoreParams lcore).io side).queues ≠ []

structure PoolsInPlace (replay : Replay ports lcores) (socketOf : Fin lcores.toNat → ℕ) (t : PoolTrace)
    (p : Pools lcores) : Prop where
  inside : ∀ socket r, ⟨.behindPools socket, r⟩ ∉ t
  receives : ∀ lcore, ((replay.lcoreParams lcore).io .rx).queues ≠ [] →
    ∃ h : socketOf lcore < maxSockets, p.lcorePool lcore = p.pools ⟨socketOf lcore, h⟩ ∧
      (p.pools ⟨socketOf lcore, h⟩).isSome
  sends : ∀ lcore, ((replay.lcoreParams lcore).io .tx).queues ≠ [] → (p.pools ⟨0, by decide⟩).isSome

/-- The pools are in place after an initialisation without panic exactly when every lcore with queues
lies on one of the sockets, and one of them on the first socket if packets are sent at all. -/
theorem pools_in_place_iff {strsplit : Strsplit} {enabled : UInt32 → Bool} {args : List (Opt × Text)}
    {replay : Replay ports lcores} (hports : ports.toNat ≤ 256)
    (hconfigured : Configured strsplit enabled args replay) (socketOf : Fin lcores.toNat → ℕ) {t : PoolTrace}
    {p : Pools lcores} (ht : Traces (replayInitMbufPools replay socketOf) t (some p)) :
    PoolsInPlace replay socketOf t p ↔
      (∀ lcore, Serves replay lcore → socketOf lcore < maxSockets) ∧
      ((∃ lcore, ((replay.lcoreParams lcore).io .tx).queues ≠ []) →
        ∃ lcore, Serves replay lcore ∧ socketOf lcore = 0) := by
  have hserves : ∀ lcore, (replay.lcoreParams lcore).type ≠ .disabled ↔ Serves replay lcore := by
    intro lcore
    rcases (hconfigured.queueLists hports).inUse lcore with hidle | ⟨hio, hqueues⟩
    · apply iff_of_false (not_not.mpr hidle)
      rintro ⟨side, hne⟩
      obtain ⟨k, ha⟩ := hconfigured.agrees hports side
      rw [ha.io lcore hne] at hidle
      exact absurd hidle (by decide)
    · rw [hio]
      exact iff_of_true (by decide) hqueues
  obtain ⟨t₁, t', created, rfl, h₁, ht'⟩ := traces_bind.mp ht
  cases created with
  | none => exact absurd (traces_pure.mp ht').2 (by simp)
  | some before =>
    obtain ⟨t₂, t₃, after, rfl, h₂, h₃⟩ := traces_bind.mp ht'
    obtain ⟨rfl, hp⟩ := traces_pure.mp h₃
    obtain rfl := Option.some.inj hp
    obtain ⟨_, hinside₁, hunused, hcreated⟩ := createPools_created h₁
    obtain ⟨hpools, _, hassigned, hinside₂⟩ := assignPools_assigned (List.nodup_finRange _) h₂
    simp only [List.mem_finRange, true_implies] at hassigned hinside₂ hcreated
    have hinside : (∀ socket r, ⟨.behindPools socket, r⟩ ∉ t₁ ++ (t₂ ++ [])) ↔
        ∀ lcore, Serves replay lcore → socketOf lcore < maxSockets := by
      simp only [← hserves, ← hinside₂, List.mem_append, List.append_nil, not_or]
      exact ⟨fun h socket r => (h socket r).2, fun h socket r => ⟨hinside₁ socket r, h socket r⟩⟩
    have hfirst : (p.pools ⟨0, by decide⟩).isSome ↔ ∃ lcore, Serves replay lcore ∧ socketOf lcore = 0 := by
      simp only [← hserves, hpools]
      rw [← isSocketUsed_iff]
      constructor
      · intro hsome
        by_contra hnot
        rw [hunused _ (Or.inr (Bool.eq_false_of_not_eq_true hnot))] at hsome
        exact Bool.false_ne_true hsome
      · exact hcreated ⟨0, by decide⟩
    constructor
    · rintro ⟨hin, _, hsends⟩
      exact ⟨hinside.mp hin, fun ⟨lcore, hlcore⟩ => hfirst.mp (hsends lcore hlcore)⟩
    · rintro ⟨hsockets, hsending⟩
      refine ⟨hinside.mpr hsockets, fun lcore hlcore => ?_, fun lcore hlcore => ?_⟩
      · have hlt := hsockets lcore ⟨.rx, hlcore⟩
        have htype := (hserves lcore).mpr ⟨.rx, hlcore⟩
        refine ⟨hlt, ?_, ?_⟩
        · rw [hpools]
          exact hassigned lcore htype hlt
        · rw [hpools]
          exact hcreated ⟨socketOf lcore, hlt⟩ ((isSocketUsed_iff _).mpr ⟨lcore, htype, rfl⟩)
      · exact hfirst.mpr (hsending ⟨lcore, hlcore⟩)

def noPools : (o : PoolOp) → PoolAns o
  | .mempoolCreate _ => none
  | .behindPools _ => none

theorem createPools_runs (replay : Replay ports lcores) (socketOf : Fin lcores.toNat → ℕ)
    (sockets : List (Fin maxSockets)) (before : Pools lcores) :
    ∃ t p, Traces (createPools replay socketOf sockets before) t (some p) := by
  induction sockets generalizing before with
  | nil => exact ⟨[], before, .done _⟩
  | cons socket sockets ih =>
    rw [createPools]
    split_ifs
    · exact ih before
    · obtain ⟨t, p, ht⟩ := ih { before with pools := Function.update before.pools socket (some 1) }
      have hcreate : Traces (rteMempoolCreate socket) [⟨.mempoolCreate socket, some 1⟩] (some 1) :=
        traces_ask.mpr rfl
      exact ⟨_, p, hcreate.bind ht⟩

theorem initMbufPools_runs (replay : Replay ports lcores) (socketOf : Fin lcores.toNat → ℕ) :
    ∃ t p, Traces (replayInitMbufPools replay socketOf) t (some p) := by
  obtain ⟨t₁, before, h₁⟩ := createPools_runs replay socketOf (List.finRange maxSockets)
    { pools := fun _ => none, lcorePool := fun _ => none }
  have h₂ := traces_dry noPools (assignPools replay socketOf (List.finRange lcores.toNat) before)
  exact ⟨_, _, h₁.bind (h₂.bind (.done _))⟩

theorem pools_first_socket : ∃ replay : Replay 32 128,
    Configured split (fun _ => true) [(.queues .tx, ['(', '0', ',', '0', ',', '0', ',', '1', ')'])] replay ∧
    (∃ t p, Traces (replayInitMbufPools replay fun _ => 0) t (some p) ∧
      PoolsInPlace replay (fun _ => 0) t p) ∧
    ∃ t p, Traces (replayInitMbufPools replay fun _ => 1) t (some p) ∧
      ¬ PoolsInPlace replay (fun _ => 1) t p := by
  have harg : parentheses ['(', '0', ',', '0', ',', '0', ',', '1', ')'] =
      ([['0', ',', '0', ',', '0', ',', '1']], true) :=
    @parentheses_one ['0', ',', '0', ',', '0', ',', '1'] (by decide)
  obtain ⟨replay, h, htuples⟩ := @configured_one 32 128 split (fun _ => true) _ _ ⟨0, 0, 1, some 0⟩ .tx
    (by decide) harg rfl rfl
  have hports : (32 : UInt32).toNat ≤ 256 := by decide
  obtain ⟨t₀, p₀, h₀⟩ := initMbufPools_runs replay fun _ => 0
  obtain ⟨t₁, p₁, h₁⟩ := initMbufPools_runs replay fun _ => 1
  refine ⟨replay, h, ⟨t₀, p₀, h₀, (pools_in_place_iff hports h _ h₀).mpr ?_⟩, t₁, p₁, h₁, fun hplace => ?_⟩
  · exact ⟨fun _ _ => by decide, fun ⟨lcore, hlcore⟩ => ⟨lcore, ⟨.tx, hlcore⟩, rfl⟩⟩
  · have hnames : Names (allTuples split .tx
        [(.queues .tx, ['(', '0', ',', '0', ',', '0', ',', '1', ')'])]) 0 0 := by
      rw [htuples]
      exact ⟨_, List.mem_cons_self, rfl, rfl⟩
    obtain ⟨lcore, q, hq, _⟩ := (h.queued_iff hports).mpr hnames
    obtain ⟨_, _, hzero⟩ := ((pools_in_place_iff hports h _ h₁).mp hplace).2 ⟨lcore, List.ne_nil_of_mem hq⟩
    exact absurd hzero (by decide)

end PcapReplay
