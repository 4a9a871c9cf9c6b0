import PcapReplay.Replay.Tuples
import Mathlib.Algebra.BigOperators.Fin
import Mathlib.Algebra.BigOperators.Group.Finset.Piecewise
import Mathlib.Algebra.Order.BigOperators.Group.Finset

/-! The queue masks and the queue lists of the lcores, over all accepted options. -/

namespace PcapReplay
open Finset
variable {ports lcores : UInt32}

def nicQueue (port : Fin ports.toNat) (queue : Fin maxQueuesPerNicPort) : NicQueue where
  port := UInt8.ofNat port
  queue := UInt8.ofNat queue

theorem sum_one_at {m n : ℕ} (i : Fin m) (j : Fin n) :
    ∑ p : Fin m, ∑ q : Fin n, (if p = i ∧ q = j then 1 else 0) = 1 := by
  rw [sum_eq_single i, sum_eq_single j]
  · exact if_pos ⟨rfl, rfl⟩
  · exact fun q _ hq => if_neg fun h => hq h.2
  · exact fun h => absurd (mem_univ j) h
  · exact fun p _ hp => sum_eq_zero fun q _ => if_neg fun h => hp h.1
  · exact fun h => absurd (mem_univ i) h

structure Agrees (side : Side) (k : ℕ) (replay : Replay ports lcores) : Prop where
  counted : ∀ port queue, ∑ l, ((replay.lcoreParams l).io side).queues.count (nicQueue port queue) =
    (replay.nicQueueMask side port queue).toNat
  small : ∀ port queue, (replay.nicQueueMask side port queue).toNat ≤ 1
  room : ∀ l, ((replay.lcoreParams l).io side).nNicQueues ≤ maxNicQueuesPerIoLcore
  io : ∀ l, ((replay.lcoreParams l).io side).queues ≠ [] → (replay.lcoreParams l).type = .io
  masked : ∑ port, ∑ queue, (replay.nicQueueMask side port queue).toNat = k
  assigned : ∑ l, ((replay.lcoreParams l).io side).nNicQueues = k

theorem agrees_zero (side : Side) : Agrees side 0 (Replay.zero ports lcores) := by
  constructor
  · intro port queue
    have hnone : ∀ l : Fin lcores.toNat,
        (((Replay.zero ports lcores).lcoreParams l).io side).queues.count (nicQueue port queue) = 0 :=
      fun _ => rfl
    simp only [hnone, sum_const_zero]
    rfl
  · exact fun _ _ => Nat.zero_le _
  · exact fun _ => Nat.zero_le _
  · exact fun _ h => absurd rfl h
  · exact sum_eq_zero fun _ _ => sum_eq_zero fun _ _ => rfl
  · exact sum_eq_zero fun _ _ => rfl

section step
variable (hports : ports.toNat ≤ 256)
include hports

theorem nicQueue_toNat (port : Fin ports.toNat) (queue : Fin maxQueuesPerNicPort) :
    (nicQueue port queue).port.toNat = port ∧ (nicQueue port queue).queue.toNat = queue := by
  have hp := port.isLt
  have hq : (queue : ℕ) < 128 := queue.isLt
  constructor
  · exact UInt8.toNat_ofNat_of_lt' (by simp only [UInt8.size]; omega)
  · exact UInt8.toNat_ofNat_of_lt' (by simp only [UInt8.size]; omega)

theorem eq_nicQueue {q : NicQueue} {port : Fin ports.toNat} {queue : Fin maxQueuesPerNicPort}
    (hp : q.port.toNat = port) (hq : q.queue.toNat = queue) : q = nicQueue port queue := by
  obtain ⟨hport, hqueue⟩ := nicQueue_toNat hports port queue
  have h₁ : q.port = (nicQueue port queue).port := UInt8.toNat_inj.mp (hp.trans hport.symm)
  have h₂ : q.queue = (nicQueue port queue).queue := UInt8.toNat_inj.mp (hq.trans hqueue.symm)
  cases q
  cases h₁
  cases h₂
  rfl

theorem nicQueue_inj {port port' : Fin ports.toNat} {queue queue' : Fin maxQueuesPerNicPort} :
    nicQueue port queue = nicQueue port' queue' ↔ port = port' ∧ queue = queue' := by
  constructor
  · intro h
    obtain ⟨hport, hqueue⟩ := nicQueue_toNat hports port queue
    obtain ⟨hport', hqueue'⟩ := nicQueue_toNat hports port' queue'
    rw [h] at hport hqueue
    exact ⟨Fin.ext (hport.symm.trans hport'), Fin.ext (hqueue.symm.trans hqueue')⟩
  · rintro ⟨rfl, rfl⟩
    rfl

variable {enabled : UInt32 → Bool} {side s : Side} {t : Tuple} {replay replay' : Replay ports lcores}
  {port : Fin ports.toNat} {queue : Fin maxQueuesPerNicPort} {lcore : Fin lcores.toNat} {k : ℕ}

theorem TupleStored.nicQueue_eq (h : TupleStored enabled s t replay replay' port queue lcore) :
    ({ port := t.port.toUInt8, queue := t.queue.toUInt8 } : NicQueue) = nicQueue port queue := by
  have hp := h.port_eq
  have hq := h.queue_eq
  have hport := port.isLt
  have hqueue : (queue : ℕ) < 128 := queue.isLt
  apply eq_nicQueue hports
  · show t.port.toUInt8.toNat = port
    rw [UInt32.toNat_toUInt8]
    omega
  · show t.queue.toUInt8.toNat = queue
    rw [UInt32.toNat_toUInt8]
    omega

theorem Agrees.store (ha : Agrees side k replay)
    (h : TupleStored enabled side t replay replay' port queue lcore) : Agrees side (k + 1) replay' := by
  have hnic := h.nicQueue_eq hports
  have hqueues : ∀ l, ((replay'.lcoreParams l).io side).queues =
      ((replay.lcoreParams l).io side).queues ++ if l = lcore then [nicQueue port queue] else [] := by
    intro l
    rw [h.queues, hnic, if_congr (and_iff_left rfl) rfl rfl]
    split_ifs
    · rfl
    · exact (List.append_nil _).symm
  have hcount : ∀ l, ((replay'.lcoreParams l).io side).nNicQueues =
      ((replay.lcoreParams l).io side).nNicQueues + if l = lcore then 1 else 0 := by
    intro l
    rw [h.io, if_congr (and_iff_left rfl) rfl rfl]
    split_ifs with hl
    · rw [hl, IoSide.nNicQueues_push]
    · rfl
  have hfree : (replay.nicQueueMask side port queue).toNat = 0 := by
    rw [h.free]
    rfl
  have hmask : ∀ p q, (replay'.nicQueueMask side p q).toNat =
      (replay.nicQueueMask side p q).toNat + if p = port ∧ q = queue then 1 else 0 := by
    intro p q
    rw [h.mask, if_congr (and_iff_right rfl) rfl rfl]
    split_ifs with hpq
    · rw [hpq.1, hpq.2, hfree]
      rfl
    · rfl
  constructor
  · intro p q
    have hadded : ∀ l : Fin lcores.toNat,
        (if l = lcore then [nicQueue port queue] else []).count (nicQueue p q) =
          if l = lcore then (if p = port ∧ q = queue then 1 else 0) else 0 := by
      intro l
      split_ifs with hl hpq
      · rw [hpq.1, hpq.2]
        exact List.count_singleton_self
      · apply List.count_eq_zero_of_not_mem
        rw [List.mem_singleton, nicQueue_inj hports]
        exact hpq
      · rfl
    simp only [hqueues, List.count_append, hadded, sum_add_distrib, ha.counted, hmask, sum_ite_eq', mem_univ,
      if_true]
  · intro p q
    have hsmall := ha.small p q
    rw [hmask]
    split_ifs with hpq
    · rw [hpq.1, hpq.2, hfree]
    · exact hsmall
  · intro l
    have hroom := ha.room l
    have hlt := h.room
    rw [hcount]
    split_ifs with hl
    · rw [hl]
      exact hlt
    · exact hroom
  · intro l hne
    rw [h.type]
    split_ifs with hl
    · rfl
    · rw [hqueues, if_neg hl, List.append_nil] at hne
      exact ha.io l hne
  · simp only [hmask, sum_add_distrib, ha.masked, sum_one_at]
  · simp only [hcount, sum_add_distrib, ha.assigned, sum_ite_eq', mem_univ, if_true]

omit hports in
theorem Agrees.other (ha : Agrees side k replay)
    (h : TupleStored enabled s t replay replay' port queue lcore) (hs : side ≠ s) :
    Agrees side k replay' := by
  have hio : ∀ l, (replay'.lcoreParams l).io side = (replay.lcoreParams l).io side := fun l => by
    rw [h.io, if_neg fun hc => hs hc.2]
  have hmask : ∀ p q, replay'.nicQueueMask side p q = replay.nicQueueMask side p q := fun p q => by
    rw [h.mask, if_neg fun hc => hs hc.1]
  constructor
  · simpa only [hio, hmask] using ha.counted
  · simpa only [hmask] using ha.small
  · simpa only [hio] using ha.room
  · intro l hne
    rw [h.type]
    split_ifs
    · rfl
    · rw [hio] at hne
      exact ha.io l hne
  · simpa only [hmask] using ha.masked
  · simpa only [hio] using ha.assigned

theorem Stores.agrees {strsplit : Strsplit} {fields : List Text}
    (h : Stores strsplit enabled s fields replay replay') (ha : Agrees side k replay) :
    Agrees side (k + if s = side then fields.length else 0) replay' := by
  induction h generalizing k with
  | nil =>
    rw [List.length_nil, ite_self]
    exact ha
  | @cons field fields t replay replay₁ replay' hread hstore h ih =>
    obtain ⟨port, queue, lcore, hstored⟩ := storeTuple_zero enabled s hstore
    rw [List.length_cons]
    split_ifs at ih ⊢ with hs
    · subst hs
      have hnext := ih (ha.store hports hstored)
      rwa [add_assoc, add_comm 1] at hnext
    · exact ih (ha.other hstored (Ne.symm hs))

end step

section duplicates
variable {enabled : UInt32 → Bool} {s : Side} {t : Tuple} {replay replay' : Replay ports lcores} {k : ℕ}

theorem storeTuple_duplicate (h : (replay.storeTuple enabled s t).1 = -8) :
    ∃ (port : Fin ports.toNat) (queue : Fin maxQueuesPerNicPort) (lcore : Fin lcores.toNat),
      replay.nicQueueMask s port queue = 0 ∧
      ∃ q ∈ ((replay.lcoreParams lcore).io s).queues, q.port.toNat = port ∧ q.queue.toNat = queue := by
  unfold Replay.storeTuple at h
  dsimp only at h
  split_ifs at h with hrange hmask henabled hlcore
  · exact absurd h (by simp)
  · exact absurd h (by simp)
  · exact absurd h (by simp)
  · exact absurd h (by simp)
  · rw [not_not] at hmask
    unfold Replay.assignQueue at h
    simp only [lcoreParams_masked] at h
    split_ifs at h with hworker hdup hfull
    · exact absurd h (by simp)
    · exact ⟨_, _, _, hmask, hdup⟩
    · exact absurd h (by simp)

variable (hports : ports.toNat ≤ 256)
include hports

theorem Agrees.not_duplicate (ha : Agrees s k replay) : (replay.storeTuple enabled s t).1 ≠ -8 := by
  intro h
  obtain ⟨port, queue, lcore, hfree, q, hmem, hport, hqueue⟩ := storeTuple_duplicate h
  rw [eq_nicQueue hports hport hqueue] at hmem
  have hcounted := ha.counted port queue
  rw [hfree] at hcounted
  have hzero := sum_eq_zero_iff.mp hcounted lcore (mem_univ lcore)
  exact List.count_eq_zero.mp hzero hmem

theorem Agrees.takeFields_ne {strsplit : Strsplit} {done : Bool} {fields : List Text} {nTuples : ℕ}
    (ha : Agrees s k replay) :
    takeFields strsplit enabled s done fields nTuples replay ≠ some (-8, replay') := by
  induction fields generalizing nTuples k replay with
  | nil =>
    intro h
    have hcode := congrArg Prod.fst (Option.some.inj h)
    dsimp only at hcode
    split_ifs at hcode
    · exact absurd hcode (by decide)
    · exact absurd hcode (by decide)
  | cons field fields ih =>
    intro h
    rcases takeFields_cons strsplit enabled s h with hr | ⟨t, _, ⟨_, hr⟩ | ⟨replay₁, hstore, hrest⟩⟩
    · exact absurd hr (by simp)
    · exact ha.not_duplicate hports (congrArg Prod.fst hr).symm
    · obtain ⟨port, queue, lcore, hstored⟩ := storeTuple_zero enabled s hstore
      exact ih (ha.store hports hstored) hrest

theorem Agrees.parseArg_ne {strsplit : Strsplit} {arg : Text} (ha : Agrees s k replay) :
    parseArg strsplit enabled s arg replay ≠ some (-8, replay') := by
  intro h
  unfold parseArg at h
  split_ifs at h
  · exact absurd h (by simp)
  · rw [parseTuples_eq] at h
    exact ha.takeFields_ne hports h

end duplicates
end PcapReplay
