import Mathlib.Data.Nat.ModEq
import Mathlib.Data.List.Basic
import Mathlib.Data.Set.Function
import Mathlib.Order.Monotone.Basic
import Mathlib.Algebra.Order.BigOperators.Group.Finset
import Mathlib.Tactic.Ring

/-! Striping of a flat array over `n` members in units of `u` blocks. Unit `k` of the flat
array is unit `k / n` of member `k % n`. -/

namespace Striping
variable (u n : ℕ)

def member (b : ℕ) : ℕ := b / u % n

def offset (b : ℕ) : ℕ := b / u / n * u + b % u

def block (d s : ℕ) : ℕ := (s / u * n + d) * u + s % u

variable {u n}

theorem offset_div (hu : 0 < u) (b : ℕ) : offset u n b / u = b / u / n := by
  rw [offset, Nat.mul_comm, Nat.mul_add_div hu, Nat.div_eq_of_lt (Nat.mod_lt _ hu), Nat.add_zero]

theorem offset_mod (b : ℕ) : offset u n b % u = b % u := by
  rw [offset, Nat.mul_comm, Nat.mul_add_mod, Nat.mod_mod]

theorem block_div (hu : 0 < u) (d s : ℕ) : block u n d s / u = s / u * n + d := by
  rw [block, Nat.mul_comm, Nat.mul_add_div hu, Nat.div_eq_of_lt (Nat.mod_lt _ hu), Nat.add_zero]

theorem block_mod (d s : ℕ) : block u n d s % u = s % u := by
  rw [block, Nat.mul_comm, Nat.mul_add_mod, Nat.mod_mod]

theorem block_member_offset (hu : 0 < u) (b : ℕ) :
    block u n (member u n b) (offset u n b) = b := by
  rw [block, offset_div hu, offset_mod, member, Nat.div_add_mod', Nat.div_add_mod']

theorem member_block (hu : 0 < u) {d : ℕ} (hd : d < n) (s : ℕ) :
    member u n (block u n d s) = d := by
  rw [member, block_div hu, Nat.mul_comm, Nat.mul_add_mod, Nat.mod_eq_of_lt hd]

theorem offset_block (hu : 0 < u) {d : ℕ} (hd : d < n) (s : ℕ) :
    offset u n (block u n d s) = s := by
  have hn : 0 < n := by omega
  rw [offset, block_div hu, block_mod, Nat.mul_comm (s / u), Nat.mul_add_div hn,
    Nat.div_eq_of_lt hd, Nat.add_zero, Nat.div_add_mod']

theorem eq_of_member_offset (hu : 0 < u) {b c : ℕ} (hm : member u n b = member u n c)
    (ho : offset u n b = offset u n c) : b = c := by
  rw [← block_member_offset hu b, hm, ho, block_member_offset hu]

theorem block_strictMono (hu : 0 < u) (hn : 0 < n) (d : ℕ) : StrictMono (block u n d) := by
  intro s t hst
  have hs := Nat.mod_lt s hu
  unfold block
  rcases Nat.lt_or_ge (s / u) (t / u) with hlt | hge
  · have hle : (s / u * n + d) * u + u ≤ (t / u * n + d) * u := by
      have h : s / u * n + d + 1 ≤ t / u * n + d := by
        have := Nat.mul_le_mul_right n hlt
        rw [Nat.succ_mul] at this
        omega
      have := Nat.mul_le_mul_right u h
      rwa [Nat.succ_mul] at this
    omega
  · have heq : s / u = t / u := le_antisymm (Nat.div_le_div_right hst.le) hge
    have := Nat.div_add_mod s u
    have := Nat.div_add_mod t u
    rw [heq] at *
    omega

theorem lt_block_iff (hu : 0 < u) (hn : 0 < n) (b s : ℕ) :
    b < block u n (member u n b) s ↔ offset u n b < s := by
  have hb : block u n (member u n b) (offset u n b) = b := block_member_offset hu b
  conv_lhs => lhs; rw [← hb]
  exact (block_strictMono hu hn _).lt_iff_lt

theorem offset_le_offset_iff (hu : 0 < u) (hn : 0 < n) {b c : ℕ} (h : member u n b = member u n c) :
    offset u n b ≤ offset u n c ↔ b ≤ c := by
  have hlt := lt_block_iff hu hn c (offset u n b)
  rw [← h, block_member_offset hu] at hlt
  rw [← Nat.not_lt, ← Nat.not_lt, hlt]

theorem offset_le (u n b : ℕ) : offset u n b ≤ b := by
  have h : b / u / n * u ≤ b / u * u := Nat.mul_le_mul_right u (Nat.div_le_self _ _)
  have := Nat.div_add_mod' b u
  rw [offset]
  omega

variable (u) in
theorem offset_le_of_two_le (hn : 2 ≤ n) (b : ℕ) : offset u n b ≤ b / 2 + b % u := by
  have h : b / u / n * u ≤ b / 2 := by
    calc b / u / n * u ≤ b / u / 2 * u := Nat.mul_le_mul_right u (Nat.div_le_div_left hn (by decide))
      _ = b / 2 / u * u := by rw [Nat.div_div_eq_div_mul, Nat.div_div_eq_div_mul, Nat.mul_comm u 2]
      _ ≤ b / 2 := Nat.div_mul_le_self _ _
  rw [offset]
  omega

theorem div_add_of_lt {b j : ℕ} (h : b % u + j < u) : (b + j) / u = b / u := by
  have hu : 0 < u := by omega
  conv_lhs => rw [← Nat.div_add_mod b u, Nat.add_assoc, Nat.mul_add_div hu, Nat.div_eq_of_lt h]
  rfl

theorem mod_add_of_lt {b j : ℕ} (h : b % u + j < u) : (b + j) % u = b % u + j := by
  conv_lhs => rw [← Nat.div_add_mod b u, Nat.add_assoc, Nat.mul_add_mod, Nat.mod_eq_of_lt h]

theorem member_add {b j : ℕ} (h : b % u + j < u) : member u n (b + j) = member u n b := by
  rw [member, div_add_of_lt h, member]

theorem offset_add {b j : ℕ} (h : b % u + j < u) : offset u n (b + j) = offset u n b + j := by
  rw [offset, div_add_of_lt h, mod_add_of_lt h, offset, Nat.add_assoc]

theorem eq_one_of_member_next {b j : ℕ} (hu : 0 < u) (hj : b % u + j = u)
    (h : member u n (b + j) = member u n b) : n = 1 := by
  have hdiv : (b + j) / u = b / u + 1 := by
    rw [← Nat.div_add_mod b u, Nat.add_assoc, hj, ← Nat.mul_succ, Nat.mul_div_cancel_left _ hu,
      Nat.mul_add_div hu, Nat.div_eq_of_lt (Nat.mod_lt b hu), Nat.add_zero]
  have hmod : b / u + 1 ≡ b / u + 0 [MOD n] := by
    rw [Nat.ModEq, ← hdiv, Nat.add_zero]
    exact h
  exact Nat.dvd_one.mp ((Nat.modEq_zero_iff_dvd).mp (Nat.ModEq.add_left_cancel' (b / u) hmod))

theorem member_one (b : ℕ) : member u 1 b = 0 := Nat.mod_one _

theorem offset_one (b : ℕ) : offset u 1 b = b := by
  rw [offset, Nat.div_one, Nat.div_add_mod']

theorem member_add_rotations (hu : 0 < u) (b k : ℕ) :
    member u n (b + k * n * u) = member u n b := by
  rw [member, Nat.add_mul_div_right _ _ hu, Nat.add_mul_mod_self_right, member]

theorem offset_add_rotations (hu : 0 < u) (hn : 0 < n) (b k : ℕ) :
    offset u n (b + k * n * u) = offset u n b + k * u := by
  rw [offset, Nat.add_mul_div_right _ _ hu, Nat.add_mul_div_right _ _ hn, Nat.add_mul_mod_self_right,
    offset]
  ring

theorem member_add_units_injOn (hu : 0 < u) (b : ℕ) :
    Set.InjOn (fun i => member u n (b + i * u)) (Set.Iio n) := by
  intro i hi j hj h
  simp only [member, Nat.add_mul_div_right _ _ hu] at h
  have hmod : i ≡ j [MOD n] := Nat.ModEq.add_left_cancel' (b / u) h
  rwa [Nat.ModEq, Nat.mod_eq_of_lt hi, Nat.mod_eq_of_lt hj] at hmod

theorem le_of_member_units (hu : 0 < u) {b i k : ℕ} (hi : i < n)
    (h : member u n (b + k * u) = member u n (b + i * u)) : i ≤ k := by
  rcases Nat.lt_or_ge k n with hk | hk
  · exact (member_add_units_injOn hu b hk hi h).ge
  · exact hi.le.trans hk

theorem count_members_le (hu : 0 < u) (b i : ℕ) {k r : ℕ} (hk : k ≤ r * n) :
    ((List.range k).map fun j => member u n (b + j * u)).count i ≤ r := by
  have hround : ((List.range (r * n)).map fun j => member u n (b + j * u)).count i ≤ r := by
    clear hk
    induction r with
    | zero => simp
    | succ r ih =>
      have hlast : ((List.range n).map fun j => member u n (b + (r * n + j) * u)).Nodup := by
        apply List.Nodup.map_on _ List.nodup_range
        intro i hi j hj h
        rw [List.mem_range] at hi hj
        have hshift : ∀ j, b + (r * n + j) * u = b + r * n * u + j * u := fun j => by ring
        rw [hshift, hshift] at h
        exact member_add_units_injOn hu (b + r * n * u) hi hj h
      rw [Nat.succ_mul, List.range_add, List.map_append, List.count_append, List.map_map]
      exact Nat.add_le_add ih (List.nodup_iff_count_le_one.mp hlast i)
  obtain ⟨rest, hrest⟩ := Nat.exists_eq_add_of_le hk
  rw [hrest, List.range_add, List.map_append, List.count_append] at hround
  exact (Nat.le_add_right _ _).trans hround

theorem exists_lt_count {l : List (Fin n)} {r : ℕ} (h : r * n < l.length) : ∃ i, r < l.count i := by
  by_contra hall
  push Not at hall
  have hsum : ∑ i : Fin n, (l : Multiset (Fin n)).count i = l.length :=
    Multiset.sum_count_eq_card fun i _ => Finset.mem_univ i
  have hle : ∑ i : Fin n, (l : Multiset (Fin n)).count i ≤ Finset.univ.card • r :=
    Finset.sum_le_card_nsmul _ _ _ fun i _ => (Multiset.coe_count i l).trans_le (hall i)
  rw [hsum, Finset.card_univ, Fintype.card_fin, Nat.nsmul_eq_mul, Nat.mul_comm] at hle
  exact absurd h (Nat.not_lt.mpr hle)
variable (u) in
def split (b c : ℕ) : List (ℕ × ℕ) :=
  if _hz : c = 0 ∨ u = 0 then []
  else if c ≤ u - b % u then [(b, c)]
  else (b, u - b % u) :: split (b + (u - b % u)) (c - (u - b % u))
termination_by c
decreasing_by
  have := Nat.mod_lt b (Nat.pos_of_ne_zero fun h => _hz (Or.inr h))
  omega

theorem split_zero (b : ℕ) : split u b 0 = [] := by
  rw [split, dif_pos (Or.inl rfl)]

theorem split_of_le (hu : 0 < u) {b c : ℕ} (hc : 0 < c) (h : c ≤ u - b % u) :
    split u b c = [(b, c)] := by
  rw [split, dif_neg (by omega), if_pos h]

theorem split_of_lt (hu : 0 < u) {b c : ℕ} (h : u - b % u < c) :
    split u b c = (b, u - b % u) :: split u (b + (u - b % u)) (c - (u - b % u)) := by
  rw [split, dif_neg (by omega), if_neg (by omega)]

theorem split_cover (hu : 0 < u) (b c : ℕ) :
    (split u b c).flatMap (fun p => List.range' p.1 p.2) = List.range' b c := by
  induction b, c using split.induct u with
  | case1 b c h =>
    obtain rfl : c = 0 := by omega
    simp [split_zero]
  | case2 b c h hc => simp [split_of_le hu (by omega) hc]
  | case3 b c h hc ih =>
    rw [split_of_lt hu (by omega), List.flatMap_cons, ih, List.range'_append_1]
    congr 1
    omega

theorem split_piece (hu : 0 < u) {b c : ℕ} {p : ℕ × ℕ} (hp : p ∈ split u b c) :
    0 < p.2 ∧ p.1 % u + p.2 ≤ u ∧ b ≤ p.1 ∧ p.1 + p.2 ≤ b + c := by
  induction b, c using split.induct u with
  | case1 b c h =>
    obtain rfl : c = 0 := by omega
    simp [split_zero] at hp
  | case2 b c h hc =>
    have := Nat.mod_lt b hu
    rw [split_of_le hu (by omega) hc, List.mem_singleton] at hp
    subst hp
    dsimp only
    exact ⟨by omega, by omega, le_rfl, le_rfl⟩
  | case3 b c h hc ih =>
    have := Nat.mod_lt b hu
    rw [split_of_lt hu (by omega), List.mem_cons] at hp
    rcases hp with rfl | hp
    · dsimp only
      exact ⟨by omega, by omega, le_rfl, by omega⟩
    · obtain ⟨h1, h2, h3, h4⟩ := ih hp
      exact ⟨h1, h2, by omega, by omega⟩

theorem length_split_le (b c : ℕ) : (split u b c).length ≤ c := by
  induction b, c using split.induct u with
  | case1 b c h => rw [split, dif_pos h]; exact Nat.zero_le c
  | case2 b c h hc =>
    rw [split, dif_neg h, if_pos hc, List.length_singleton]
    omega
  | case3 b c h hc ih =>
    have := Nat.mod_lt b (show 0 < u by omega)
    rw [split, dif_neg h, if_neg hc, List.length_cons]
    omega

theorem split_append (hu : 0 < u) {b k c : ℕ} (hk : (b + k) % u = 0) :
    split u b (k + c) = split u b k ++ split u (b + k) c := by
  induction b, k using split.induct u with
  | case1 b k h =>
    obtain rfl : k = 0 := by omega
    simp [split_zero]
  | case2 b k h hle =>
    have hlt := Nat.mod_lt b hu
    obtain hke : k = u - b % u := by
      by_contra hne
      rw [mod_add_of_lt (by omega)] at hk
      omega
    rcases Nat.eq_zero_or_pos c with rfl | hc
    · rw [split_zero, List.append_nil, Nat.add_zero]
    · rw [split_of_lt hu (by omega : u - b % u < k + c), split_of_le hu (by omega) hle, ← hke,
        Nat.add_sub_cancel_left, List.singleton_append]
  | case3 b k h hle ih =>
    have hs : b + (u - b % u) + (k - (u - b % u)) = b + k := by omega
    rw [split_of_lt hu (by omega : u - b % u < k + c), split_of_lt hu (by omega : u - b % u < k),
      List.cons_append, ← hs, ← ih (by rw [hs]; exact hk)]
    congr 2
    omega

end Striping
