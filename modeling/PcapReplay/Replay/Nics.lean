import PcapReplay.Lib.Trace
import PcapReplay.Replay.Configured
import PcapReplay.Replay.Lookup

/-! The initialisation of the network ports, and the queues it sets up. -/

namespace PcapReplay
open Interaction Prog Finset Tokens
variable {ports lcores : UInt32} {α β : Type}

inductive NicOp where
  | devConfigure (port nbRxQueue nbTxQueue : UInt8)
  | promiscuousEnable (port : UInt8)
  | queueSetup (side : Side) (port queue : UInt8) (nbDesc : UInt16) (lcore : ℕ)
  | devStart (port : UInt8)

abbrev NicAns : NicOp → Type
  | .devConfigure _ _ _ => ℤ
  | .promiscuousEnable _ => Unit
  | .queueSetup _ _ _ _ _ => ℤ
  | .devStart _ => ℤ

abbrev Nic (α : Type) := Prog NicOp NicAns α

abbrev rteEthDevConfigure (port nbRxQueue nbTxQueue : UInt8) : Nic ℤ :=
  ask (NicOp.devConfigure port nbRxQueue nbTxQueue)

abbrev rteEthPromiscuousEnable (port : UInt8) : Nic Unit := ask (NicOp.promiscuousEnable port)

abbrev rteEthQueueSetup (side : Side) (port queue : UInt8) (nbDesc : UInt16) (lcore : ℕ) : Nic ℤ :=
  ask (NicOp.queueSetup side port queue nbDesc lcore)

abbrev rteEthDevStart (port : UInt8) : Nic ℤ := ask (NicOp.devStart port)

def andThen (p : Nic (Option α)) (f : α → Nic (Option β)) : Nic (Option β) := do
  match ← p with
  | none => pure none
  | some a => f a

def orPanic (p : Nic ℤ) (f : Nic (Option α)) : Nic (Option α) := do
  let ret ← p
  if ret < 0 then pure none else f

/-- The loop over the queues of a port. The variable `lcore` keeps its value when the lookup fails. -/
def setupQueues (replay : Replay ports lcores) (side : Side) (port : Fin ports.toNat) :
    List (Fin maxQueuesPerNicPort) → ℕ → Nic (Option ℕ)
  | [], lcore => pure (some lcore)
  | queue :: queues, lcore =>
    if replay.nicQueueMask side port queue = 0 then setupQueues replay side port queues lcore
    else
      let found := replay.getLcoreForNic side (UInt8.ofNat port) (UInt8.ofNat queue)
      let lcore := (found.map fun l => (l : ℕ)).getD lcore
      orPanic (rteEthQueueSetup side (UInt8.ofNat port) (UInt8.ofNat queue)
          (replay.nicRingSize side).toUInt16 lcore)
        (setupQueues replay side port queues lcore)

def nQueues (replay : Replay ports lcores) (side : Side) (port : Fin ports.toNat) : UInt32 :=
  UInt32.ofInt (replay.getNicQueuesPerPort side (UInt8.ofNat port))

def initPort (replay : Replay ports lcores) (port : Fin ports.toNat) (lcore : ℕ) : Nic (Option ℕ) :=
  if nQueues replay .rx port = 0 ∧ nQueues replay .tx port = 0 then pure (some lcore)
  else
    orPanic (rteEthDevConfigure (UInt8.ofNat port) (nQueues replay .rx port).toUInt8
      (nQueues replay .tx port).toUInt8) do
    rteEthPromiscuousEnable (UInt8.ofNat port)
    andThen (setupQueues replay .rx port (List.finRange maxQueuesPerNicPort) lcore) fun lcore =>
      andThen (setupQueues replay .tx port (List.finRange maxQueuesPerNicPort) lcore) fun lcore =>
        orPanic (rteEthDevStart (UInt8.ofNat port)) (pure (some lcore))

/-- So many rounds of the loop over the ports, whose counter has eight bits. -/
def initPorts (replay : Replay ports lcores) : ℕ → UInt8 → ℕ → Nic (Option ℕ)
  | 0, _, lcore => pure (some lcore)
  | rounds + 1, port, lcore =>
    if h : port.toNat < ports.toNat then
      andThen (initPort replay ⟨port.toNat, h⟩ lcore) (initPorts replay rounds (port + 1))
    else pure (some lcore)

def replayInitNics (replay : Replay ports lcores) (rounds : ℕ) : Nic (Option ℕ) :=
  initPorts replay rounds 0 0

def reconfigured (counts : UInt8 → Side → ℕ) (port nbRxQueue nbTxQueue : UInt8) : UInt8 → Side → ℕ :=
  Function.update counts port fun
    | .rx => nbRxQueue.toNat
    | .tx => nbTxQueue.toNat

def SetupsBelow : (UInt8 → Side → ℕ) → List NicOp → Prop
  | _, [] => True
  | counts, .devConfigure port nbRxQueue nbTxQueue :: os =>
    SetupsBelow (reconfigured counts port nbRxQueue nbTxQueue) os
  | counts, .promiscuousEnable _ :: os => SetupsBelow counts os
  | counts, .queueSetup side port queue _ _ :: os => queue.toNat < counts port side ∧ SetupsBelow counts os
  | counts, .devStart _ :: os => SetupsBelow counts os

def QueuesConfigured (t : List ((o : NicOp) × NicAns o)) : Prop :=
  SetupsBelow (fun _ _ => 0) (t.map Sigma.fst)

theorem traces_andThen {p : Nic (Option α)} {f : α → Nic (Option β)}
    {t : List ((o : NicOp) × NicAns o)} {r : Option β} (h : Traces (andThen p f) t r) :
    Traces p t none ∨ ∃ t₁ t₂ a, t = t₁ ++ t₂ ∧ Traces p t₁ (some a) ∧ Traces (f a) t₂ r := by
  obtain ⟨t₁, t₂, a, rfl, h₁, h₂⟩ := traces_bind.mp h
  cases a with
  | none =>
    obtain ⟨rfl, _⟩ := traces_pure.mp h₂
    rw [List.append_nil]
    exact Or.inl h₁
  | some a => exact Or.inr ⟨t₁, t₂, a, rfl, h₁, h₂⟩

theorem traces_orPanic {o : NicOp} {p : Nic ℤ} {f : Nic (Option α)} {t : List ((o : NicOp) × NicAns o)}
    {r : Option α} (hp : ∀ t₁ ret, Traces p t₁ ret → t₁.map Sigma.fst = [o])
    (h : Traces (orPanic p f) t r) :
    ∃ t₂, t.map Sigma.fst = o :: t₂.map Sigma.fst ∧ (t₂ = [] ∨ Traces f t₂ r) := by
  obtain ⟨t₁, t₂, ret, rfl, h₁, h₂⟩ := traces_bind.mp h
  refine ⟨t₂, ?_, ?_⟩
  · rw [List.map_append, hp t₁ ret h₁]
    rfl
  · split_ifs at h₂
    · exact Or.inl (traces_pure.mp h₂).1
    · exact Or.inr h₂

theorem ops_ask {o : NicOp} {t : List ((o : NicOp) × NicAns o)} {r : NicAns o} (h : Traces (ask o) t r) :
    t.map Sigma.fst = [o] := by
  rw [traces_ask.mp h]
  rfl

section below
variable {replay : Replay ports lcores} {side : Side} {port : Fin ports.toNat}
  {counts : UInt8 → Side → ℕ} {os : List NicOp}

theorem setupQueues_below {queues : List (Fin maxQueuesPerNicPort)} {lcore : ℕ}
    {t : List ((o : NicOp) × NicAns o)} {r : Option ℕ}
    (ht : Traces (setupQueues replay side port queues lcore) t r)
    (hbelow : ∀ queue ∈ queues, replay.nicQueueMask side port queue ≠ 0 →
      (UInt8.ofNat queue).toNat < counts (UInt8.ofNat port) side)
    (hos : SetupsBelow counts os) : SetupsBelow counts (t.map Sigma.fst ++ os) := by
  induction queues generalizing lcore t with
  | nil =>
    obtain ⟨rfl, _⟩ := traces_pure.mp ht
    exact hos
  | cons queue queues ih =>
    rw [List.forall_mem_cons] at hbelow
    rw [setupQueues] at ht
    split_ifs at ht with hmask
    · exact ih ht hbelow.2
    · obtain ⟨t₂, hops, hrest⟩ := traces_orPanic (fun t₁ ret h => ops_ask h) ht
      rw [hops]
      refine ⟨hbelow.1 hmask, ?_⟩
      rcases hrest with rfl | hrest
      · exact hos
      · exact ih hrest hbelow.2

def Below (replay : Replay ports lcores) (side : Side) (port : Fin ports.toNat) : Prop :=
  ∀ queue, replay.nicQueueMask side port queue ≠ 0 → (queue : ℕ) < #{q | replay.nicQueueMask side port q = 1}

theorem nQueues_eq (hports : ports.toNat ≤ 256) (replay : Replay ports lcores) (side : Side)
    (port : Fin ports.toNat) :
    (nQueues replay side port).toNat = #{q | replay.nicQueueMask side port q = 1} ∧
      (nQueues replay side port).toUInt8.toNat = #{q | replay.nicQueueMask side port q = 1} := by
  have hcard : #{q | replay.nicQueueMask side port q = 1} ≤ 128 :=
    (card_le_univ _).trans (Fintype.card_fin 128).le
  have hcount : (nQueues replay side port).toNat = #{q | replay.nicQueueMask side port q = 1} := by
    rw [nQueues, getNicQueuesPerPort_eq hports]
    generalize #{q | replay.nicQueueMask side port q = 1} = count at hcard
    show (UInt32.ofNat ((count : ℤ) % 2 ^ 32).toNat).toNat = _
    rw [UInt32.toNat_ofNat']
    omega
  refine ⟨hcount, ?_⟩
  rw [UInt32.toNat_toUInt8, hcount]
  exact Nat.mod_eq_of_lt (Nat.lt_of_le_of_lt hcard (by decide))

theorem reconfigured_port (hports : ports.toNat ≤ 256) (counts : UInt8 → Side → ℕ) (side : Side) :
    reconfigured counts (UInt8.ofNat port) (nQueues replay .rx port).toUInt8 (nQueues replay .tx port).toUInt8
      (UInt8.ofNat port) side = #{q | replay.nicQueueMask side port q = 1} := by
  rw [reconfigured, Function.update_self, ← (nQueues_eq hports replay side port).2]
  cases side with
  | rx => rfl
  | tx => rfl

theorem queue_toNat (queue : Fin maxQueuesPerNicPort) : (UInt8.ofNat queue).toNat = queue :=
  UInt8.toNat_ofNat_of_lt' (Nat.lt_trans queue.isLt (by decide))

theorem setups_below {lcore : ℕ} {t : List ((o : NicOp) × NicAns o)} {r : Option ℕ}
    (ht : Traces (andThen (setupQueues replay .rx port (List.finRange maxQueuesPerNicPort) lcore) fun lcore =>
      andThen (setupQueues replay .tx port (List.finRange maxQueuesPerNicPort) lcore) fun lcore =>
        orPanic (rteEthDevStart (UInt8.ofNat port)) (pure (some lcore))) t r)
    (hlimits : ∀ side, ∀ queue ∈ List.finRange maxQueuesPerNicPort,
      replay.nicQueueMask side port queue ≠ 0 → (UInt8.ofNat queue).toNat < counts (UInt8.ofNat port) side)
    (hos : SetupsBelow counts os) : SetupsBelow counts (t.map Sigma.fst ++ os) := by
  rcases traces_andThen ht with hpanic | ⟨t₁, t', _, rfl, h₁, ht'⟩
  · exact setupQueues_below hpanic (hlimits .rx) hos
  · rw [List.map_append, List.append_assoc]
    apply setupQueues_below h₁ (hlimits .rx)
    rcases traces_andThen ht' with hpanic | ⟨t₂, t₃, _, rfl, h₂, h₃⟩
    · exact setupQueues_below hpanic (hlimits .tx) hos
    · rw [List.map_append, List.append_assoc]
      apply setupQueues_below h₂ (hlimits .tx)
      obtain ⟨t₄, hstart, hdone⟩ := traces_orPanic (fun _ _ h => ops_ask h) h₃
      have hnil : t₄ = [] := hdone.elim id fun h => (traces_pure.mp h).1
      rw [hstart, hnil]
      exact hos

theorem initPort_below (hports : ports.toNat ≤ 256) {lcore : ℕ} {t : List ((o : NicOp) × NicAns o)}
    {r : Option ℕ} (ht : Traces (initPort replay port lcore) t r) (hbelow : ∀ side, Below replay side port)
    (hos : ∀ counts, SetupsBelow counts os) : SetupsBelow counts (t.map Sigma.fst ++ os) := by
  unfold initPort at ht
  split_ifs at ht
  · obtain ⟨rfl, _⟩ := traces_pure.mp ht
    exact hos counts
  · obtain ⟨t₁, hops, hrest⟩ := traces_orPanic (fun _ _ h => ops_ask h) ht
    rw [hops]
    set counts' := reconfigured counts (UInt8.ofNat port) (nQueues replay .rx port).toUInt8
      (nQueues replay .tx port).toUInt8 with hcounts
    show SetupsBelow counts' (t₁.map Sigma.fst ++ os)
    rcases hrest with rfl | hrest
    · exact hos counts'
    · obtain ⟨t₂, t₃, _, rfl, h₂, h₃⟩ := traces_bind.mp hrest
      rw [List.map_append, ops_ask h₂]
      show SetupsBelow counts' (t₃.map Sigma.fst ++ os)
      apply setups_below h₃ _ (hos counts')
      intro side queue _ hmask
      rw [queue_toNat, hcounts, reconfigured_port hports]
      exact hbelow side queue hmask

theorem initPorts_below (hports : ports.toNat ≤ 256) (hbelow : ∀ side port, Below replay side port)
    {rounds : ℕ} {port : UInt8} {lcore : ℕ} {t : List ((o : NicOp) × NicAns o)} {r : Option ℕ}
    (ht : Traces (initPorts replay rounds port lcore) t r) (counts : UInt8 → Side → ℕ) :
    SetupsBelow counts (t.map Sigma.fst) := by
  induction rounds generalizing port lcore t counts with
  | zero =>
    obtain ⟨rfl, _⟩ := traces_pure.mp ht
    trivial
  | succ rounds ih =>
    rw [initPorts] at ht
    split_ifs at ht
    · rcases traces_andThen ht with hpanic | ⟨t₁, t₂, l, rfl, h₁, h₂⟩
      · have hrun : SetupsBelow counts (t.map Sigma.fst ++ []) :=
          initPort_below hports hpanic (fun side => hbelow side _) fun _ => trivial
        rwa [List.append_nil] at hrun
      · rw [List.map_append]
        exact initPort_below hports h₁ (fun side => hbelow side _) (ih h₂)
    · obtain ⟨rfl, _⟩ := traces_pure.mp ht
      trivial

def okNic : (o : NicOp) → NicAns o
  | .devConfigure _ _ _ => 0
  | .promiscuousEnable _ => ()
  | .queueSetup _ _ _ _ _ => 0
  | .devStart _ => 0

omit replay in
theorem dry_andThen {p : Nic (Option α)} {a : α} (h : (dry okNic p).2 = some a) (f : α → Nic (Option β)) :
    dry okNic (andThen p f) = ((dry okNic p).1 ++ (dry okNic (f a)).1, (dry okNic (f a)).2) := by
  rw [andThen, dry_bind, h]

theorem dry_orPanic {p : Nic ℤ} (h : (dry okNic p).2 = 0) (f : Nic (Option α)) :
    dry okNic (orPanic p f) = ((dry okNic p).1 ++ (dry okNic f).1, (dry okNic f).2) := by
  rw [orPanic, dry_bind, h, if_neg (lt_irrefl 0)]

theorem dry_setupQueues (queues : List (Fin maxQueuesPerNicPort)) (lcore : ℕ) :
    (∃ l, (dry okNic (setupQueues replay side port queues lcore)).2 = some l) ∧
      (SetupsBelow counts ((dry okNic (setupQueues replay side port queues lcore)).1 ++ os) →
        (∀ queue ∈ queues, replay.nicQueueMask side port queue ≠ 0 →
          (UInt8.ofNat queue).toNat < counts (UInt8.ofNat port) side) ∧ SetupsBelow counts os) := by
  induction queues generalizing lcore with
  | nil => exact ⟨⟨lcore, rfl⟩, fun h => ⟨fun _ hq => absurd hq List.not_mem_nil, h⟩⟩
  | cons queue queues ih =>
    rw [setupQueues, List.forall_mem_cons]
    split_ifs with hmask
    · obtain ⟨hsome, hrest⟩ := ih lcore
      refine ⟨hsome, fun h => ?_⟩
      exact ⟨⟨fun hne => absurd hmask hne, (hrest h).1⟩, (hrest h).2⟩
    · rw [dry_orPanic rfl]
      obtain ⟨hsome, hrest⟩ := ih (((replay.getLcoreForNic side (UInt8.ofNat port) (UInt8.ofNat queue)).map
        fun l => (l : ℕ)).getD lcore)
      refine ⟨hsome, fun h => ?_⟩
      obtain ⟨hqueue, hlater⟩ := h
      exact ⟨⟨fun _ => hqueue, (hrest hlater).1⟩, (hrest hlater).2⟩

theorem dry_initPort (hports : ports.toNat ≤ 256)
    (hsmall : ∀ side queue, replay.nicQueueMask side port queue ≠ 0 → replay.nicQueueMask side port queue = 1)
    (lcore : ℕ) : (∃ l, (dry okNic (initPort replay port lcore)).2 = some l) ∧
      (SetupsBelow counts ((dry okNic (initPort replay port lcore)).1 ++ os) →
        (∀ side, Below replay side port) ∧ ∃ counts', SetupsBelow counts' os) := by
  unfold initPort
  split_ifs with hnone
  · refine ⟨⟨lcore, rfl⟩, fun h => ⟨fun side queue hmask => ?_, counts, h⟩⟩
    have hzero : #{q | replay.nicQueueMask side port q = 1} = 0 := by
      rw [← (nQueues_eq hports replay side port).1]
      cases side with
      | rx => rw [hnone.1]; rfl
      | tx => rw [hnone.2]; rfl
    have hmem := card_eq_zero.mp hzero ▸ mem_filter.mpr ⟨mem_univ queue, hsmall side queue hmask⟩
    exact absurd hmem (notMem_empty queue)
  · let counts' := reconfigured counts (UInt8.ofNat port) (nQueues replay .rx port).toUInt8
      (nQueues replay .tx port).toUInt8
    let rx := (dry okNic (setupQueues replay .rx port (List.finRange maxQueuesPerNicPort) lcore)).1
    obtain ⟨l₁, hl₁⟩ := (@dry_setupQueues _ _ replay .rx port counts' os (List.finRange _) lcore).1
    obtain ⟨l₂, hl₂⟩ := (@dry_setupQueues _ _ replay .tx port counts' os (List.finRange _) l₁).1
    let tx := (dry okNic (setupQueues replay .tx port (List.finRange maxQueuesPerNicPort) l₁)).1
    have hqueues : dry okNic (andThen (setupQueues replay .rx port (List.finRange maxQueuesPerNicPort) lcore)
        fun lcore => andThen (setupQueues replay .tx port (List.finRange maxQueuesPerNicPort) lcore)
          fun lcore => orPanic (rteEthDevStart (UInt8.ofNat port)) (pure (some lcore))) =
        (rx ++ (tx ++ [.devStart (UInt8.ofNat port)]), some l₂) := by
      rw [dry_andThen hl₁, dry_andThen hl₂, dry_orPanic rfl]
      rfl
    rw [dry_orPanic rfl, dry_bind, hqueues]
    refine ⟨⟨l₂, rfl⟩, fun h => ?_⟩
    have hops : SetupsBelow counts' ((rx ++ (tx ++ [.devStart (UInt8.ofNat port)])) ++ os) := h
    rw [List.append_assoc, List.append_assoc] at hops
    obtain ⟨hrx, hrest⟩ := (dry_setupQueues _ lcore).2 hops
    obtain ⟨htx, hlater⟩ := (dry_setupQueues _ l₁).2 hrest
    refine ⟨fun side queue hmask => ?_, counts', hlater⟩
    rw [← queue_toNat, ← reconfigured_port hports counts side]
    cases side with
    | rx => exact hrx queue (List.mem_finRange queue) hmask
    | tx => exact htx queue (List.mem_finRange queue) hmask

theorem dry_initPorts (hports : ports.toNat ≤ 256)
    (hsmall : ∀ side port queue, replay.nicQueueMask side port queue ≠ 0 →
      replay.nicQueueMask side port queue = 1)
    {rounds : ℕ} {first : UInt8} {lcore : ℕ}
    (h : SetupsBelow counts (dry okNic (initPorts replay rounds first lcore)).1) (port : Fin ports.toNat)
    (hfirst : first.toNat ≤ port) (hlast : port < first.toNat + rounds) (side : Side) :
    Below replay side port := by
  induction rounds generalizing first lcore counts with
  | zero => exact absurd hlast (Nat.not_lt.mpr hfirst)
  | succ rounds ih =>
    have hlt : first.toNat < ports.toNat := Nat.lt_of_le_of_lt hfirst port.isLt
    obtain ⟨l, hl⟩ := (@dry_initPort _ _ replay ⟨first.toNat, hlt⟩ counts [] hports
      (fun side => hsmall side _) lcore).1
    rw [initPorts, dif_pos hlt, dry_andThen hl] at h
    obtain ⟨hbelow, counts', hrest⟩ := (dry_initPort hports (fun side => hsmall side _) lcore).2 h
    rcases Nat.eq_or_lt_of_le hfirst with heq | hnext
    · obtain rfl : ⟨first.toNat, hlt⟩ = port := Fin.ext heq
      exact hbelow side
    · have hsucc : (first + 1).toNat = first.toNat + 1 := by
        have hport := port.isLt
        rw [UInt8.toNat_add, UInt8.toNat_one]
        omega
      apply ih hrest
      · rw [hsucc]
        exact hnext
      · rw [hsucc]
        omega

theorem initNics_below_iff (hports : ports.toNat ≤ 256)
    (hsmall : ∀ side port queue, replay.nicQueueMask side port queue ≠ 0 →
      replay.nicQueueMask side port queue = 1) :
    (∀ rounds t r, Traces (replayInitNics replay rounds) t r → QueuesConfigured t) ↔
      ∀ side port, Below replay side port := by
  constructor
  · intro h side port
    have hops := h ports.toNat _ _ (traces_dry okNic _)
    rw [QueuesConfigured, List.map_map, List.map_id''] at hops
    · exact dry_initPorts hports hsmall hops port (Nat.zero_le _) (by simp) side
    · exact fun _ => rfl
  · exact fun hbelow rounds t r ht => initPorts_below hports hbelow ht _

end below

theorem forall_lt_card_iff {n : ℕ} (s : Finset (Fin n)) :
    (∀ i ∈ s, (i : ℕ) < #s) ↔ ∀ i j, j < i → i ∈ s → j ∈ s := by
  constructor
  · intro h i j hji hi
    have hsub : s ⊆ ({i | (i : ℕ) < #s} : Finset (Fin n)) := fun i hi => mem_filter.mpr ⟨mem_univ i, h i hi⟩
    have hcard : #({i | (i : ℕ) < #s} : Finset (Fin n)) ≤ #(range #s) := by
      apply card_le_card_of_injOn fun i : Fin n => (i : ℕ)
      · exact fun i hi => mem_coe.mpr (mem_range.mpr (mem_filter.mp hi).2)
      · exact Fin.val_injective.injOn
    rw [card_range] at hcard
    rw [eq_of_subset_of_card_le hsub hcard]
    exact mem_filter.mpr ⟨mem_univ j, Nat.lt_trans hji (h i hi)⟩
  · intro h i hi
    have hsub : Iic i ⊆ s := by
      intro j hj
      rcases lt_or_eq_of_le (mem_Iic.mp hj) with hlt | rfl
      · exact h i j hlt hi
      · exact hi
    have hcard := card_le_card hsub
    rw [Fin.card_Iic] at hcard
    exact hcard

section accepted
variable {strsplit : Strsplit} {enabled : UInt32 → Bool} {args : List (Opt × Text)}
  {replay : Replay ports lcores} (hports : ports.toNat ≤ 256) (h : Configured strsplit enabled args replay)
include hports h

theorem Configured.mask_iff (side : Side) (port : Fin ports.toNat) (queue : Fin maxQueuesPerNicPort) :
    replay.nicQueueMask side port queue = 1 ↔ Names (allTuples strsplit side args) port queue := by
  obtain ⟨k, ha⟩ := h.agrees hports side
  rw [← h.queued_iff hports]
  constructor
  · intro hmask
    obtain ⟨place, hplace, _⟩ := (ha.mask_iff hports).mp hmask
    have hmem := (exists_holdsQueue_iff hports place.1).mp ⟨place.2, hplace⟩
    exact ⟨place.1, _, hmem, nicQueue_toNat hports port queue⟩
  · rintro ⟨lcore, q, hq, hp, hc⟩
    rw [eq_nicQueue hports hp hc] at hq
    obtain ⟨i, hi⟩ := (exists_holdsQueue_iff hports lcore).mpr hq
    exact ha.mask_of_holdsQueue hports hi

theorem Configured.mask_small (side : Side) (port : Fin ports.toNat) (queue : Fin maxQueuesPerNicPort)
    (hmask : replay.nicQueueMask side port queue ≠ 0) : replay.nicQueueMask side port queue = 1 := by
  obtain ⟨k, ha⟩ := h.agrees hports side
  have hle := ha.small port queue
  have hpos : 0 < (replay.nicQueueMask side port queue).toNat :=
    Nat.pos_of_ne_zero fun h0 => hmask (UInt8.toNat_inj.mp h0)
  exact UInt8.toNat_inj.mp (Nat.le_antisymm hle hpos)

theorem Configured.below_iff (side : Side) (port : Fin ports.toNat) :
    Below replay side port ↔ ∀ queue queue' : Fin maxQueuesPerNicPort, queue' < queue →
      Names (allTuples strsplit side args) port queue → Names (allTuples strsplit side args) port queue' := by
  have hsegment := forall_lt_card_iff ({q | replay.nicQueueMask side port q = 1} : Finset _)
  simp only [mem_filter, mem_univ, true_and, h.mask_iff hports] at hsegment
  rw [← hsegment]
  unfold Below
  simp only [← h.mask_iff hports]
  apply forall_congr'
  intro queue
  constructor
  · intro hb hmask
    exact hb (by rw [hmask]; decide)
  · intro hb hmask
    exact hb (h.mask_small hports side port queue hmask)

/-- The initialisation sets up no queue beyond those it has configured, whatever it is answered, when
the queues that the options name for a port are numbered without a gap. -/
theorem configured_nics_iff :
    (∀ rounds t r, Traces (replayInitNics replay rounds) t r → QueuesConfigured t) ↔
      ∀ side (port : Fin ports.toNat) (queue queue' : Fin maxQueuesPerNicPort), queue' < queue →
        Names (allTuples strsplit side args) port queue → Names (allTuples strsplit side args) port queue' :=
  (initNics_below_iff hports (h.mask_small hports)).trans
    (forall_congr' fun side => forall_congr' fun port => h.below_iff hports side port)

end accepted

theorem configured_nics_queue_zero : ∃ replay : Replay 32 128,
    Configured split (fun _ => true) [(.queues .rx, ['(', '0', ',', '0', ',', '1', ')'])] replay ∧
    ∀ rounds t r, Traces (replayInitNics replay rounds) t r → QueuesConfigured t := by
  have harg : parentheses ['(', '0', ',', '0', ',', '1', ')'] = ([['0', ',', '0', ',', '1']], true) :=
    @parentheses_one ['0', ',', '0', ',', '1'] (by decide)
  obtain ⟨replay, hconfigured, htuples⟩ := @configured_one 32 128 split (fun _ => true) _ _
    ⟨0, 0, 1, none⟩ .rx (by decide) harg rfl rfl
  refine ⟨replay, hconfigured, (configured_nics_iff (by decide) hconfigured).mpr ?_⟩
  intro side port queue queue' hlt hnames
  cases side with
  | rx =>
    rw [htuples] at hnames
    obtain ⟨t, ht, _, hqueue⟩ := hnames
    obtain rfl := List.mem_singleton.mp ht
    have hvals : (queue' : ℕ) < queue := hlt
    rw [← hqueue] at hvals
    exact absurd hvals (Nat.not_lt_zero _)
  | tx =>
    obtain ⟨t, ht, _⟩ := hnames
    exact absurd ht List.not_mem_nil

theorem configured_nics_gap : ∃ replay : Replay 32 128,
    Configured split (fun _ => true) [(.queues .rx, ['(', '0', ',', '1', ',', '1', ')'])] replay ∧
    ∃ rounds t r, Traces (replayInitNics replay rounds) t r ∧ ¬ QueuesConfigured t := by
  have harg : parentheses ['(', '0', ',', '1', ',', '1', ')'] = ([['0', ',', '1', ',', '1']], true) :=
    @parentheses_one ['0', ',', '1', ',', '1'] (by decide)
  obtain ⟨replay, hconfigured, htuples⟩ := @configured_one 32 128 split (fun _ => true) _ _
    ⟨0, 1, 1, none⟩ .rx (by decide) harg rfl rfl
  have hports : (32 : UInt32).toNat ≤ 256 := by decide
  refine ⟨replay, hconfigured, ?_⟩
  by_contra hnone
  push Not at hnone
  have hbelow := (initNics_below_iff hports (hconfigured.mask_small hports)).mp hnone
  have hnames := (hconfigured.below_iff hports .rx ⟨0, by decide⟩).mp (hbelow .rx _) ⟨1, by decide⟩
    ⟨0, by decide⟩ (by decide)
  rw [htuples] at hnames
  obtain ⟨t, ht, _, hqueue⟩ := hnames ⟨⟨0, 1, 1, none⟩, List.mem_cons_self, rfl, rfl⟩
  obtain rfl := List.mem_singleton.mp ht
  exact absurd hqueue (by decide)

end PcapReplay
