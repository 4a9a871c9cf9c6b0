import PcapReplay.Replay.Agreement

/-! The lookups of the network initialisation against the queue masks. -/

namespace PcapReplay
open Finset Tokens
variable {ports lcores : UInt32}

def HoldsQueue (replay : Replay ports lcores) (side : Side) (port : Fin ports.toNat)
    (queue : Fin maxQueuesPerNicPort) (place : Fin lcores.toNat × Fin maxNicQueuesPerIoLcore) : Prop :=
  let io := (replay.lcoreParams place.1).io side
  place.2 < io.nNicQueues ∧ (io.nicQueues place.2).port.toNat = port ∧
    (io.nicQueues place.2).queue.toNat = queue

instance (replay : Replay ports lcores) (side : Side) (port : Fin ports.toNat)
    (queue : Fin maxQueuesPerNicPort) : DecidablePred (HoldsQueue replay side port queue) :=
  fun _ => inferInstanceAs (Decidable (_ ∧ _ ∧ _))

theorem count_take_ofFn {m : ℕ} (f : Fin m → NicQueue) (n : ℕ) (q : NicQueue) :
    ((List.ofFn f).take n).count q = #{i : Fin m | ↑i < n ∧ f i = q} := by
  induction m generalizing n with
  | zero => simp
  | succ m ih =>
    cases n with
    | zero => simp
    | succ n =>
      rw [List.ofFn_succ, List.take_succ_cons, List.count_cons, ih, card_filter, card_filter,
        Fin.sum_univ_succ]
      simp [add_comm]

section places
variable (hports : ports.toNat ≤ 256) {side : Side} {replay : Replay ports lcores} {k : ℕ}
  {port : Fin ports.toNat} {queue : Fin maxQueuesPerNicPort}
include hports

theorem holdsQueue_iff (place : Fin lcores.toNat × Fin maxNicQueuesPerIoLcore) :
    HoldsQueue replay side port queue place ↔
      place.2 < ((replay.lcoreParams place.1).io side).nNicQueues ∧
        ((replay.lcoreParams place.1).io side).nicQueues place.2 = nicQueue port queue := by
  apply and_congr_right
  intro _
  constructor
  · exact fun h => eq_nicQueue hports h.1 h.2
  · intro h
    rw [h]
    exact nicQueue_toNat hports port queue

theorem exists_holdsQueue_iff (lcore : Fin lcores.toNat) :
    (∃ i, HoldsQueue replay side port queue (lcore, i)) ↔
      nicQueue port queue ∈ ((replay.lcoreParams lcore).io side).queues := by
  simp only [holdsQueue_iff hports]
  rw [IoSide.queues, ← List.count_pos_iff, count_take_ofFn, card_pos, filter_nonempty_iff]
  simp only [mem_univ, true_and]

theorem Agrees.card_holdsQueue (ha : Agrees side k replay) (port : Fin ports.toNat)
    (queue : Fin maxQueuesPerNicPort) :
    #{place | HoldsQueue replay side port queue place} = (replay.nicQueueMask side port queue).toNat := by
  rw [← ha.counted, card_filter, Fintype.sum_prod_type]
  apply sum_congr rfl
  intro lcore _
  rw [IoSide.queues, count_take_ofFn, card_filter]
  exact sum_congr rfl fun i _ => if_congr (holdsQueue_iff hports (lcore, i)) rfl rfl

theorem Agrees.mask_iff (ha : Agrees side k replay) :
    replay.nicQueueMask side port queue = 1 ↔ ∃! place, HoldsQueue replay side port queue place := by
  rw [Fintype.existsUnique_iff_card_one, ha.card_holdsQueue hports, ← UInt8.toNat_inj]
  rfl

theorem Agrees.mask_of_holdsQueue (ha : Agrees side k replay)
    {place : Fin lcores.toNat × Fin maxNicQueuesPerIoLcore} (h : HoldsQueue replay side port queue place) :
    replay.nicQueueMask side port queue = 1 := by
  have hpos : 0 < #{place | HoldsQueue replay side port queue place} :=
    card_pos.mpr ⟨place, mem_filter.mpr ⟨mem_univ place, h⟩⟩
  rw [ha.card_holdsQueue hports] at hpos
  exact UInt8.toNat_inj.mp (le_antisymm (ha.small port queue) hpos)

theorem lookup_holdsQueue {lcore : Fin lcores.toNat}
    (h : replay.getLcoreForNic side (UInt8.ofNat port) (UInt8.ofNat queue) = some lcore) :
    (replay.lcoreParams lcore).type = .io ∧ ∃ i, HoldsQueue replay side port queue (lcore, i) := by
  unfold Replay.getLcoreForNic at h
  have hfound := List.find?_some h
  rw [decide_eq_true_eq] at hfound
  obtain ⟨htype, q, hmem, hport, hqueue⟩ := hfound
  have hq : q = nicQueue port queue := by
    cases q
    cases hport
    cases hqueue
    rfl
  rw [hq] at hmem
  exact ⟨htype, (exists_holdsQueue_iff hports lcore).mpr hmem⟩

theorem Agrees.lookup_exists (ha : Agrees side k replay)
    {place : Fin lcores.toNat × Fin maxNicQueuesPerIoLcore} (h : HoldsQueue replay side port queue place) :
    ∃ lcore, replay.getLcoreForNic side (UInt8.ofNat port) (UInt8.ofNat queue) = some lcore := by
  have hmem := (exists_holdsQueue_iff hports place.1).mp ⟨place.2, h⟩
  have htype := ha.io place.1 (List.ne_nil_of_mem hmem)
  apply Option.isSome_iff_exists.mp
  rw [Replay.getLcoreForNic, List.find?_isSome]
  exact ⟨place.1, List.mem_finRange place.1, decide_eq_true ⟨htype, _, hmem, rfl, rfl⟩⟩

omit hports in
theorem countP_finRange {n : ℕ} (p : Fin n → Prop) [DecidablePred p] :
    ((List.finRange n).countP fun i => p i) = #{i | p i} :=
  List.countP_eq_length_filter

theorem getNicQueuesPerPort_eq (replay : Replay ports lcores) (side : Side) (port : Fin ports.toNat) :
    replay.getNicQueuesPerPort side (UInt8.ofNat port) =
      #{queue | replay.nicQueueMask side port queue = 1} := by
  have hp : (UInt8.ofNat port).toNat = port :=
    UInt8.toNat_ofNat_of_lt' (lt_of_lt_of_le port.isLt hports)
  have hlt : ¬ ports.toNat ≤ (UInt8.ofNat port).toNat := by
    rw [hp]
    exact Nat.not_le.mpr port.isLt
  have hport : (⟨(UInt8.ofNat port).toNat, Nat.not_le.mp hlt⟩ : Fin ports.toNat) = port := Fin.ext hp
  rw [Replay.getNicQueuesPerPort, dif_neg hlt, countP_finRange, hport]

theorem Agrees.queuesPerPort (ha : Agrees side k replay) (port : Fin ports.toNat) :
    replay.getNicQueuesPerPort side (UInt8.ofNat port) =
      ((∑ queue, (replay.nicQueueMask side port queue).toNat : ℕ) : ℤ) := by
  rw [getNicQueuesPerPort_eq hports, card_filter]
  apply congrArg Nat.cast
  apply sum_congr rfl
  intro queue _
  have hsmall := ha.small port queue
  split_ifs with hmask
  · rw [hmask]
    rfl
  · have hne : (replay.nicQueueMask side port queue).toNat ≠ 1 := fun h => hmask (UInt8.toNat_inj.mp h)
    omega

end places

structure QueuesAgree (side : Side) (k : ℕ) (replay : Replay ports lcores) : Prop where
  mask_iff : ∀ port queue,
    replay.nicQueueMask side port queue = 1 ↔ ∃! place, HoldsQueue replay side port queue place
  found : ∀ port queue, replay.nicQueueMask side port queue = 1 → ∃ place,
    HoldsQueue replay side port queue place ∧
      replay.getLcoreForNic side (UInt8.ofNat port) (UInt8.ofNat queue) = some place.1 ∧
      (replay.lcoreParams place.1).type = .io
  notFound : ∀ port queue, replay.nicQueueMask side port queue ≠ 1 →
    replay.getLcoreForNic side (UInt8.ofNat port) (UInt8.ofNat queue) = none
  room : ∀ lcore, ((replay.lcoreParams lcore).io side).nNicQueues ≤ maxNicQueuesPerIoLcore
  ports_sum : ∑ port : Fin ports.toNat, replay.getNicQueuesPerPort side (UInt8.ofNat port) = k
  lcores_sum : ∑ lcore, ((replay.lcoreParams lcore).io side).nNicQueues = k

theorem Agrees.queuesAgree (hports : ports.toNat ≤ 256) {side : Side} {replay : Replay ports lcores} {k : ℕ}
    (ha : Agrees side k replay) : QueuesAgree side k replay := by
  constructor
  · exact fun port queue => ha.mask_iff hports
  · intro port queue hmask
    obtain ⟨place, hplace, _⟩ := (ha.mask_iff hports).mp hmask
    obtain ⟨lcore, hlcore⟩ := ha.lookup_exists hports hplace
    obtain ⟨htype, i, hi⟩ := lookup_holdsQueue hports hlcore
    exact ⟨(lcore, i), hi, hlcore, htype⟩
  · intro port queue hmask
    apply Option.eq_none_iff_forall_ne_some.mpr
    intro lcore hlcore
    obtain ⟨_, i, hi⟩ := lookup_holdsQueue hports hlcore
    exact hmask (ha.mask_of_holdsQueue hports hi)
  · exact ha.room
  · simp only [ha.queuesPerPort hports]
    rw [← Nat.cast_sum, ha.masked]
  · exact ha.assigned

section options
variable (strsplit : Strsplit) (enabled : UInt32 → Bool)

inductive Accepts : List (Side × Text) → Replay ports lcores → Replay ports lcores → Prop
  | nil (replay : Replay ports lcores) : Accepts [] replay replay
  | cons {side : Side} {arg : Text} {args : List (Side × Text)} {replay replay₁ replay' : Replay ports lcores}
      (harg : parseArg strsplit enabled side arg replay = some (0, replay₁))
      (h : Accepts args replay₁ replay') : Accepts ((side, arg) :: args) replay replay'

end options

def tupleCount (side : Side) (args : List (Side × Text)) : ℕ :=
  (args.map fun a => if a.1 = side then (tupleTexts a.2).length else 0).sum

section accepted
variable {strsplit : Strsplit} {enabled : UInt32 → Bool} {args : List (Side × Text)}
  (hports : ports.toNat ≤ 256)
include hports

theorem Accepts.agrees {replay replay' : Replay ports lcores}
    (h : Accepts strsplit enabled args replay replay') {side : Side} {k : ℕ} (ha : Agrees side k replay) :
    Agrees side (k + tupleCount side args) replay' := by
  induction h generalizing k with
  | nil => exact ha
  | @cons s arg args replay replay₁ replay' harg _ ih =>
    have hnext := ih ((parseArg_zero strsplit enabled s harg).agrees hports ha)
    rw [tupleCount, List.map_cons, List.sum_cons, ← add_assoc]
    exact hnext

/-- After accepted options the masks and the lists agree, and no further option finds a duplicate. -/
theorem accepted_queuesAgree {replay : Replay ports lcores}
    (hargs : Accepts strsplit enabled args (Replay.zero ports lcores) replay) (side : Side) :
    QueuesAgree side (tupleCount side args) replay ∧
      ∀ arg replay', parseArg strsplit enabled side arg replay ≠ some (-8, replay') := by
  have ha := hargs.agrees hports (agrees_zero side)
  rw [zero_add] at ha
  exact ⟨ha.queuesAgree hports, fun arg replay' => ha.parseArg_ne hports⟩

end accepted

theorem accepted_queuesAgree_two_options : ∃ replay : Replay 32 128,
    Accepts split (fun _ => true)
      [(.rx, ['(', '1', ',', '2', ',', '3', ')']), (.tx, ['(', '1', ',', '2', ',', '0', ',', '3', ')'])]
      (Replay.zero 32 128) replay ∧
    QueuesAgree .rx 1 replay := by
  have hrx : parentheses ['(', '1', ',', '2', ',', '3', ')'] = ([['1', ',', '2', ',', '3']], true) :=
    @parentheses_one ['1', ',', '2', ',', '3'] (by decide)
  have htx : parentheses ['(', '1', ',', '2', ',', '0', ',', '3', ')'] =
      ([['1', ',', '2', ',', '0', ',', '3']], true) :=
    @parentheses_one ['1', ',', '2', ',', '0', ',', '3'] (by decide)
  have hfirst := @parseArg_one 32 128 split (fun _ => true) .rx _ _ ⟨1, 2, 3, none⟩ (Replay.zero 32 128)
    (by decide) hrx rfl rfl
  have hsecond := @parseArg_one 32 128 split (fun _ => true) .tx _ _ ⟨1, 2, 3, some 0⟩
    ((Replay.zero 32 128).storeTuple (fun _ => true) .rx ⟨1, 2, 3, none⟩).2 (by decide) htx rfl rfl
  have hargs := Accepts.cons hfirst (.cons hsecond (.nil _))
  have hagree := (accepted_queuesAgree (by decide) hargs .rx).1
  have hcount : tupleCount .rx [(.rx, ['(', '1', ',', '2', ',', '3', ')']),
      (.tx, ['(', '1', ',', '2', ',', '0', ',', '3', ')'])] = 1 := by
    rw [tupleCount, List.map_cons, List.map_cons, tupleTexts, hrx]
    rfl
  rw [hcount] at hagree
  exact ⟨_, hargs, hagree⟩

end PcapReplay
