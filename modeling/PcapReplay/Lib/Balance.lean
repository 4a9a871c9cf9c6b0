import Mathlib.Algebra.BigOperators.Group.Finset.Piecewise
import Mathlib.Algebra.Order.BigOperators.Group.Finset

/-! Loads that are put one after the other on a place with the least load. -/

namespace Balance
open Finset
variable {ι α : Type*} [DecidableEq ι] [AddCommMonoid α]

def put (f : ι → α) (i : ι) (k : α) : ι → α := Function.update f i (f i + k)

@[simp] theorem put_self (f : ι → α) (i : ι) (k : α) : put f i k i = f i + k := Function.update_self _ _ _

@[simp] theorem put_of_ne (f : ι → α) {i j : ι} (k : α) (h : j ≠ i) : put f i k j = f j :=
  Function.update_of_ne h _ _

theorem sum_put [Fintype ι] (f : ι → α) (i : ι) (k : α) : ∑ j, put f i k j = ∑ j, f j + k := by
  have hi : i ∈ univ := mem_univ i
  unfold put
  rw [sum_update_of_mem hi, ← sum_sdiff (singleton_subset_iff.mpr hi), sum_singleton]
  exact (add_comm _ _).trans (add_assoc _ _ _).symm

def route (pick : (ι → α) → ι) (f : ι → α) (k : α) : ι → α := put f (pick f) k

theorem sum_foldl_route [Fintype ι] (pick : (ι → α) → ι) (ks : List α) (f : ι → α) :
    ∑ j, ks.foldl (route pick) f j = ∑ j, f j + ks.sum := by
  induction ks generalizing f with
  | nil => simp
  | cons k ks ih =>
    rw [List.foldl_cons, ih, List.sum_cons, route, sum_put, add_assoc]

variable [PartialOrder α] [CanonicallyOrderedAdd α]

theorem le_put (f : ι → α) (i : ι) (k : α) : f ≤ put f i k := by
  intro j
  by_cases h : j = i
  · subst h
    rw [put_self]
    exact le_self_add
  · rw [put_of_ne _ _ h]

theorem le_foldl_route (pick : (ι → α) → ι) (ks : List α) (f : ι → α) : f ≤ ks.foldl (route pick) f := by
  induction ks generalizing f with
  | nil => exact le_rfl
  | cons k ks ih => exact (le_put f (pick f) k).trans (ih (route pick f k))

def Within (M : α) (f : ι → α) : Prop := ∀ i j, f i ≤ f j + M

omit [DecidableEq ι] in
theorem within_const (M c : α) : Within M fun _ : ι => c := fun _ _ => le_self_add

variable [IsOrderedAddMonoid α]

theorem Within.put {M k : α} {f : ι → α} {i : ι} (h : Within M f) (hleast : ∀ j, f i ≤ f j) (hk : k ≤ M) :
    Within M (put f i k) := by
  intro a b
  have hb : f b ≤ Balance.put f i k b := le_put f i k b
  by_cases ha : a = i
  · subst ha
    rw [put_self]
    exact add_le_add ((hleast b).trans hb) hk
  · rw [put_of_ne _ _ ha]
    exact (h a b).trans (add_le_add_left hb M)

theorem Within.foldl_route {M : α} {f : ι → α} {pick : (ι → α) → ι}
    (hpick : ∀ (g : ι → α) j, g (pick g) ≤ g j) (h : Within M f) {ks : List α} (hks : ∀ k ∈ ks, k ≤ M) :
    Within M (ks.foldl (route pick) f) := by
  induction ks generalizing f with
  | nil => exact h
  | cons k ks ih =>
    rw [List.foldl_cons]
    apply ih
    · exact h.put (hpick f) (hks k List.mem_cons_self)
    · exact fun k' hk' => hks k' (List.mem_cons_of_mem k hk')

omit [DecidableEq ι] [CanonicallyOrderedAdd α] in
theorem Within.sum_le [Fintype ι] {M : α} {f : ι → α} (h : Within M f) (j : ι) :
    ∑ i, f i ≤ Fintype.card ι • (f j + M) := by
  have hbound := sum_le_card_nsmul univ f (f j + M) fun i _ => h i j
  rwa [card_univ] at hbound

end Balance
