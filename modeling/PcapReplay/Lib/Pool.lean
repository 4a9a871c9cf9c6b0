import PcapReplay.Lib.Custody
import Mathlib.Tactic.Abel
import Mathlib.Algebra.BigOperators.Group.Finset.Basic
import Mathlib.Algebra.Order.BigOperators.Group.Finset

/-! Workers that take from one pool, whatever the order of their events. -/

namespace Custody
open Finset
variable {ι α β γ : Type}

section parts
variable [DecidableEq ι]

def ofWorker (i : ι) (es : List (ι × β)) : List β := es.filterMap fun e => if e.1 = i then some e.2 else none

theorem ofWorker_cons_self (i : ι) (e : β) (es : List (ι × β)) :
    ofWorker i ((i, e) :: es) = e :: ofWorker i es := List.filterMap_cons_some (if_pos rfl)

theorem ofWorker_cons_of_ne {i j : ι} (h : j ≠ i) (e : β) (es : List (ι × β)) :
    ofWorker i ((j, e) :: es) = ofWorker i es := List.filterMap_cons_none (if_neg h)

theorem ofWorker_append (i : ι) (es es' : List (ι × β)) :
    ofWorker i (es ++ es') = ofWorker i es ++ ofWorker i es' := List.filterMap_append

theorem mem_ofWorker {i : ι} {e : β} {es : List (ι × β)} : e ∈ ofWorker i es ↔ (i, e) ∈ es := by
  unfold ofWorker
  rw [List.mem_filterMap]
  constructor
  · rintro ⟨⟨j, e'⟩, hmem, hpart⟩
    split_ifs at hpart with hj
    obtain rfl := Option.some.inj hpart
    exact (show j = i from hj) ▸ hmem
  · exact fun h => ⟨(i, e), h, if_pos rfl⟩

theorem ofWorker_filterMap (f : β → Option γ) (i : ι) (es : List (ι × β)) :
    ofWorker i (es.filterMap fun e => (f e.2).map fun seen => (e.1, seen)) = (ofWorker i es).filterMap f := by
  induction es with
  | nil => rfl
  | cons e es ih =>
    obtain ⟨j, e⟩ := e
    by_cases hj : j = i
    · subst hj
      rw [ofWorker_cons_self]
      cases hf : f e with
      | none => rw [List.filterMap_cons_none (by simp [hf]), List.filterMap_cons_none hf, ih]
      | some seen =>
        rw [List.filterMap_cons_some (b := (j, seen)) (by simp [hf]), List.filterMap_cons_some hf,
          ofWorker_cons_self, ih]
    · rw [ofWorker_cons_of_ne hj]
      cases hf : f e with
      | none => rw [List.filterMap_cons_none (by simp [hf]), ih]
      | some seen => rw [List.filterMap_cons_some (b := (j, seen)) (by simp [hf]), ofWorker_cons_of_ne hj, ih]

end parts

variable [DecidableEq α]

def give (pool : Multiset α) : Event α → Option (Multiset α)
  | .take xs => if (xs : Multiset α) ≤ pool then some (pool - xs) else none
  | .hand xs _ k => some (pool + xs.take k)
  | .drop x => some (x ::ₘ pool)

def runPool : Multiset α → List (ι × Event α) → Option (Multiset α)
  | pool, [] => some pool
  | pool, e :: es => (give pool e.2).bind fun pool' => runPool pool' es

theorem runPool_append (pool : Multiset α) (es es' : List (ι × Event α)) :
    runPool pool (es ++ es') = (runPool pool es).bind fun pool' => runPool pool' es' := by
  induction es generalizing pool with
  | nil => rfl
  | cons e es ih =>
    rw [List.cons_append, runPool, runPool, Option.bind_assoc]
    exact congrArg _ (funext ih)

theorem give_next {pool pool' held held' : Multiset α} {e : Event α} (hgive : give pool e = some pool')
    (hnext : next held e = some held') : pool' + held' = pool + held := by
  cases e with
  | take xs =>
    rw [give] at hgive
    rw [next] at hnext
    split_ifs at hgive hnext with hpool hheld
    obtain rfl := Option.some.inj hgive
    obtain rfl := Option.some.inj hnext
    rw [hheld, add_zero]
    exact Multiset.sub_add_cancel hpool
  | hand xs count k =>
    rw [next] at hnext
    split_ifs at hnext with hheld
    obtain rfl := Option.some.inj hgive
    obtain rfl := Option.some.inj hnext
    have hle : (xs.take k : Multiset α) ≤ held :=
      (Multiset.coe_le.mpr (List.take_sublist k xs).subperm).trans hheld.2
    have hback : held - xs.take k + xs.take k = held := Multiset.sub_add_cancel hle
    rw [add_assoc, add_comm (xs.take k : Multiset α), hback]
  | drop x =>
    rw [next] at hnext
    split_ifs at hnext with hheld
    obtain rfl := Option.some.inj hgive
    obtain rfl := Option.some.inj hnext
    rw [Multiset.cons_add, ← Multiset.add_cons, Multiset.cons_erase hheld]

omit [DecidableEq α] in
theorem sum_update_add [Fintype ι] [DecidableEq ι] (held : ι → Multiset α) (i : ι) (now : Multiset α) :
    ∑ j, Function.update held i now j + held i = ∑ j, held j + now := by
  rw [← add_sum_erase univ _ (mem_univ i), ← add_sum_erase univ held (mem_univ i), Function.update_self]
  have hrest : ∑ j ∈ univ.erase i, Function.update held i now j = ∑ j ∈ univ.erase i, held j :=
    sum_congr rfl fun j hj => Function.update_of_ne (ne_of_mem_erase hj) _ _
  rw [hrest]
  abel

/-- As long as every worker keeps to its rights, what the pool has and what the workers hold is
together always the same. -/
theorem runPool_balance [Fintype ι] [DecidableEq ι] {pool pool' : Multiset α} {es : List (ι × Event α)}
    {held held' : ι → Multiset α} (hpool : runPool pool es = some pool')
    (hrun : ∀ i, run (held i) (ofWorker i es) = some (held' i)) :
    pool' + ∑ i, held' i = pool + ∑ i, held i := by
  induction es generalizing pool held with
  | nil =>
    obtain rfl := Option.some.inj hpool
    have hsame : held = held' := funext fun i => Option.some.inj (hrun i)
    rw [hsame]
  | cons e es ih =>
    obtain ⟨i, e⟩ := e
    obtain ⟨pool₁, hgive, hrest⟩ := Option.bind_eq_some_iff.mp hpool
    have hi := hrun i
    rw [ofWorker_cons_self] at hi
    obtain ⟨now, hnext, hlater⟩ := Option.bind_eq_some_iff.mp hi
    have hothers : ∀ j, run (Function.update held i now j) (ofWorker j es) = some (held' j) := by
      intro j
      rcases eq_or_ne j i with rfl | hj
      · rw [Function.update_self]
        exact hlater
      · rw [Function.update_of_ne hj, ← hrun j, ofWorker_cons_of_ne hj.symm]
    have hstep := give_next hgive hnext
    have hsum := sum_update_add held i now
    rw [ih hrest hothers]
    apply add_right_cancel (b := held i)
    calc pool₁ + ∑ j, Function.update held i now j + held i
      _ = pool₁ + (∑ j, Function.update held i now j + held i) := add_assoc _ _ _
      _ = pool₁ + (∑ j, held j + now) := by rw [hsum]
      _ = pool₁ + now + ∑ j, held j := by abel
      _ = pool + held i + ∑ j, held j := by rw [hstep]
      _ = pool + ∑ j, held j + held i := add_right_comm _ _ _

theorem sole_holder [Fintype ι] [DecidableEq ι] {pool all : Multiset α} {held : ι → Multiset α}
    (hall : all.Nodup) (hsum : pool + ∑ i, held i = all) {i : ι} {x : α} (hx : x ∈ held i) :
    (held i).count x = 1 ∧ x ∉ pool ∧ ∀ j, j ≠ i → x ∉ held j := by
  have hone : all.count x ≤ 1 := Multiset.nodup_iff_count_le_one.mp hall x
  rw [← hsum, Multiset.count_add, Multiset.count_sum', ← add_sum_erase univ _ (mem_univ i)] at hone
  have hpos := Multiset.one_le_count_iff_mem.mpr hx
  refine ⟨by omega, ?_, fun j hj hmem => ?_⟩
  · rw [← Multiset.count_eq_zero]
    omega
  · have hother : (held j).count x ≤ ∑ j ∈ univ.erase i, (held j).count x :=
      single_le_sum (f := fun j => (held j).count x) (fun _ _ => Nat.zero_le _)
        (mem_erase.mpr ⟨hj, mem_univ j⟩)
    have hpos' := Multiset.one_le_count_iff_mem.mpr hmem
    omega

theorem run_card_le {b : ℕ} {held held' : Multiset α} {es : List (Event α)} (h : run held es = some held')
    (htaken : ∀ xs, Event.take xs ∈ es → xs.length ≤ b) (hheld : held.card ≤ b) : held'.card ≤ b := by
  induction es generalizing held with
  | nil =>
    obtain rfl := Option.some.inj h
    exact hheld
  | cons e es ih =>
    obtain ⟨held₁, hnext, hrest⟩ := Option.bind_eq_some_iff.mp h
    apply ih hrest fun xs hxs => htaken xs (List.mem_cons_of_mem e hxs)
    cases e with
    | take xs =>
      rw [next] at hnext
      split_ifs at hnext
      obtain rfl := Option.some.inj hnext
      exact htaken xs List.mem_cons_self
    | hand xs count k =>
      rw [next] at hnext
      split_ifs at hnext
      obtain rfl := Option.some.inj hnext
      exact (Multiset.card_le_card (Multiset.sub_le_self held _)).trans hheld
    | drop x =>
      rw [next] at hnext
      split_ifs at hnext
      obtain rfl := Option.some.inj hnext
      exact (Multiset.card_le_card (Multiset.erase_le x held)).trans hheld

end Custody
