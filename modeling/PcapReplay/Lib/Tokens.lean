import Mathlib.Data.List.TakeWhile

/-! Texts that are cut into a bounded number of tokens. -/

namespace Tokens
variable {α : Type}

def joined (sep : α) : List (List α) → List α
  | [] => []
  | [tok] => tok
  | tok :: next :: toks => tok ++ sep :: joined sep (next :: toks)

/-- A function that cuts a text at a separator. A text that is not used up is left behind a
separator. -/
structure Splits (split : List α → ℕ → α → List (List α)) : Prop where
  length_le : ∀ s k sep, (split s k sep).length ≤ k
  join : ∀ s k sep, 0 < k → ∃ rest, s = joined sep (split s k sep) ++ rest ∧
    (rest = [] ∨ ∃ s', rest = sep :: s')

theorem append_cons_inj {sep : α} {a b x y : List α} (ha : sep ∉ a) (hb : sep ∉ b)
    (h : a ++ sep :: x = b ++ sep :: y) : a = b ∧ x = y := by
  induction a generalizing b with
  | nil =>
    cases b with
    | nil => exact ⟨rfl, (List.cons.inj h).2⟩
    | cons c b =>
      obtain ⟨rfl, _⟩ := List.cons.inj h
      exact absurd List.mem_cons_self hb
  | cons c a ih =>
    cases b with
    | nil =>
      obtain ⟨rfl, _⟩ := List.cons.inj h
      exact absurd List.mem_cons_self ha
    | cons c' b =>
      obtain ⟨rfl, htail⟩ := List.cons.inj h
      obtain ⟨rfl, hxy⟩ := ih (fun hm => ha (List.mem_cons_of_mem _ hm))
        (fun hm => hb (List.mem_cons_of_mem _ hm)) htail
      exact ⟨rfl, hxy⟩

theorem joined_inj {sep : α} {toks toks' : List (List α)} {rest : List α}
    (hlen : toks.length = toks'.length) (htoks : ∀ tok ∈ toks, sep ∉ tok) (htoks' : ∀ tok ∈ toks', sep ∉ tok)
    (hrest : rest = [] ∨ ∃ s, rest = sep :: s) (h : joined sep toks ++ rest = joined sep toks') :
    toks = toks' := by
  induction toks generalizing toks' with
  | nil => exact (List.length_eq_zero_iff.mp hlen.symm).symm
  | cons tok toks ih =>
    cases toks' with
    | nil => exact absurd hlen (by simp)
    | cons tok' toks' =>
      have htok := htoks tok List.mem_cons_self
      have htok' := htoks' tok' List.mem_cons_self
      cases toks with
      | nil =>
        obtain rfl : toks' = [] := by
          rw [List.length_cons, List.length_cons, Nat.succ_inj] at hlen
          exact List.length_eq_zero_iff.mp hlen.symm
        rcases hrest with rfl | ⟨s, rfl⟩
        · rw [List.append_nil] at h
          exact congrArg (· :: []) h
        · -- a separator would stand inside the last token
          have hmem : sep ∈ joined sep [tok'] := by
            rw [← h]
            simp
          exact absurd hmem htok'
      | cons next toks =>
        cases toks' with
        | nil => exact absurd hlen (by simp)
        | cons next' toks' =>
          rw [joined, joined, List.append_assoc, List.cons_append] at h
          obtain ⟨rfl, htail⟩ := append_cons_inj htok htok' h
          have hnext : next :: toks = next' :: toks' := by
            apply ih (Nat.succ_inj.mp hlen) (fun t ht => htoks t (List.mem_cons_of_mem _ ht))
              (fun t ht => htoks' t (List.mem_cons_of_mem _ ht)) htail
          rw [hnext]

theorem Splits.eq_of_joined {split : List α → ℕ → α → List (List α)} (h : Splits split) {k : ℕ} (hk : 0 < k)
    {sep : α} {toks : List (List α)} (htoks : ∀ tok ∈ toks, sep ∉ tok)
    (hlen : (split (joined sep toks) k sep).length = toks.length)
    (hlast : ∀ tok ∈ split (joined sep toks) k sep, sep ∉ tok) : split (joined sep toks) k sep = toks := by
  obtain ⟨rest, hjoin, hrest⟩ := h.join (joined sep toks) k sep hk
  exact joined_inj hlen hlast htoks hrest hjoin.symm

section cut
variable [DecidableEq α]

/-- At most `k` tokens; the last one that is possible runs to the end of the text, unless a
separator is its first letter. -/
def cut (sep : α) : ℕ → List α → List (List α)
  | 0, _ => []
  | _ + 1, [] => []
  | 1, c :: s => if c = sep then [[]] else [c :: s]
  | k + 2, c :: s =>
    (c :: s).takeWhile (· ≠ sep) :: cut sep (k + 1) (((c :: s).dropWhile (· ≠ sep)).tail)

theorem cut_length (sep : α) (k : ℕ) (s : List α) : (cut sep k s).length ≤ k := by
  induction k generalizing s with
  | zero => exact Nat.zero_le _
  | succ k ih =>
    cases s with
    | nil => exact Nat.zero_le _
    | cons c s =>
      cases k with
      | zero =>
        rw [cut]
        split_ifs <;> exact Nat.le_refl 1
      | succ k =>
        rw [cut, List.length_cons]
        exact Nat.succ_le_succ (ih _)

theorem cut_join (sep : α) (k : ℕ) (s : List α) (hk : 0 < k) :
    ∃ rest, s = joined sep (cut sep k s) ++ rest ∧ (rest = [] ∨ ∃ s', rest = sep :: s') := by
  obtain ⟨k, rfl⟩ := Nat.exists_eq_succ_of_ne_zero hk.ne'
  induction k generalizing s with
  | zero =>
    cases s with
    | nil => exact ⟨[], rfl, Or.inl rfl⟩
    | cons c s =>
      rw [cut]
      split_ifs with hc
      · exact ⟨c :: s, rfl, Or.inr ⟨s, by rw [hc]⟩⟩
      · exact ⟨[], (List.append_nil _).symm, Or.inl rfl⟩
  | succ k ih =>
    cases s with
    | nil => exact ⟨[], rfl, Or.inl rfl⟩
    | cons c s =>
      have hsplit := List.takeWhile_append_dropWhile (p := fun x => decide (x ≠ sep)) (l := c :: s)
      rw [cut]
      generalize htok : (c :: s).takeWhile (fun x => decide (x ≠ sep)) = tok at hsplit ⊢
      cases hdrop : (c :: s).dropWhile (fun x => decide (x ≠ sep)) with
      | nil =>
        rw [hdrop, List.append_nil] at hsplit
        exact ⟨[], by rw [List.append_nil]; exact hsplit.symm, Or.inl rfl⟩
      | cons x rest =>
        have hx : x = sep := by
          have hne : (c :: s).dropWhile (fun x => decide (x ≠ sep)) ≠ [] := by
            rw [hdrop]
            exact List.cons_ne_nil x rest
          have hhead := List.head_dropWhile_not (fun x => decide (x ≠ sep)) hne
          simp only [hdrop, List.head_cons] at hhead
          exact not_not.mp (of_decide_eq_false hhead)
        subst hx
        rw [hdrop] at hsplit
        cases rest with
        | nil => exact ⟨[x], hsplit.symm, Or.inr ⟨[], rfl⟩⟩
        | cons c' s' =>
          obtain ⟨rest', hjoin, hrest'⟩ := ih (c' :: s') (Nat.succ_pos k)
          obtain ⟨next, toks, hcut⟩ : ∃ next toks, cut x (k + 1) (c' :: s') = next :: toks := by
            cases k with
            | zero =>
              rw [cut]
              split_ifs
              · exact ⟨_, _, rfl⟩
              · exact ⟨_, _, rfl⟩
            | succ k => exact ⟨_, _, rfl⟩
          refine ⟨rest', ?_, hrest'⟩
          rw [Nat.succ_eq_add_one, hcut] at hjoin
          rw [List.tail_cons, hcut, joined, List.append_assoc, List.cons_append, ← hjoin]
          exact hsplit.symm

def split (s : List α) (k : ℕ) (sep : α) : List (List α) := cut sep k s

theorem splits_split : Splits (split (α := α)) :=
  ⟨fun s k sep => cut_length sep k s, fun s k sep => cut_join sep k s⟩

end cut
end Tokens
