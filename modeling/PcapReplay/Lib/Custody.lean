import Mathlib.Data.Multiset.AddSub
import Mathlib.Algebra.Order.Group.Multiset

/-! Resources that a worker takes in batches. Before the next batch each of them has been handed to
somebody else or dropped, once. -/

namespace Custody
variable {α : Type}

inductive Event (α : Type) where
  | take (xs : List α)
  /-- The places of `xs` are shown as `count` resources, of which the first `taken` change hands. -/
  | hand (xs : List α) (count taken : ℕ)
  | drop (x : α)

variable [DecidableEq α]

def next (held : Multiset α) : Event α → Option (Multiset α)
  | .take xs => if held = 0 then some xs else none
  | .hand xs count k => if count ≤ xs.length ∧ (xs : Multiset α) ≤ held then some (held - xs.take k) else none
  | .drop x => if x ∈ held then some (held.erase x) else none

def run : Multiset α → List (Event α) → Option (Multiset α)
  | held, [] => some held
  | held, e :: es => (next held e).bind fun held' => run held' es

def Settles (es : List (Event α)) : Prop := run 0 es = some 0

theorem run_append (held : Multiset α) (es es' : List (Event α)) :
    run held (es ++ es') = (run held es).bind fun held' => run held' es' := by
  induction es generalizing held with
  | nil => rfl
  | cons e es ih =>
    rw [List.cons_append, run, run, Option.bind_assoc]
    exact congrArg _ (funext ih)

theorem run_drops (xs : List α) : run (xs : Multiset α) (xs.map .drop) = some 0 := by
  induction xs with
  | nil => rfl
  | cons x xs ih =>
    rw [List.map_cons, run, next, if_pos (Multiset.mem_coe.mpr List.mem_cons_self), Option.bind_some,
      ← Multiset.cons_coe, Multiset.erase_cons_head]
    exact ih

theorem run_take_hand {xs : List α} {count : ℕ} (h : count ≤ xs.length) (k : ℕ) (es : List (Event α)) :
    run 0 (.take xs :: .hand xs count k :: es) = run (xs.drop k) es := by
  have hleft : (xs : Multiset α) - xs.take k = xs.drop k := by
    apply tsub_eq_of_eq_add_rev
    rw [Multiset.coe_add, List.take_append_drop]
  rw [run, next, if_pos rfl, Option.bind_some, run, next, if_pos ⟨h, le_rfl⟩, Option.bind_some, hleft]

theorem run_take_hand_more {xs : List α} {count : ℕ} (h : xs.length < count) (k : ℕ) (es : List (Event α)) :
    run 0 (.take xs :: .hand xs count k :: es) = none := by
  rw [run, next, if_pos rfl, Option.bind_some, run, next, if_neg fun hc => Nat.not_le.mpr h hc.1]
  rfl

end Custody
