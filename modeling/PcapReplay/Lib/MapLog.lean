import Mathlib.Data.List.Induction
import Mathlib.Logic.Function.Basic

/-! Finite maps that are described by the log of their changes. -/

namespace MapLog
variable {K V : Type}

inductive Event (K V : Type) where
  | put (k : K) (v : V)
  | drop (k : K)

namespace Event

def key : Event K V → K
  | put k _ => k
  | drop k => k

def bound : Event K V → Option V
  | put _ v => some v
  | drop _ => none

end Event

variable [DecidableEq K]

def apply (m : K → Option V) (e : Event K V) : K → Option V := Function.update m e.key e.bound

def replay (log : List (Event K V)) : K → Option V := log.foldl apply fun _ => none

theorem replay_append (log : List (Event K V)) (e : Event K V) :
    replay (log ++ [e]) = apply (replay log) e := by
  rw [replay, List.foldl_append]
  rfl

theorem append_singleton_eq {α : Type} {l l₁ l₂ : List α} {a e : α} :
    l ++ [e] = l₁ ++ a :: l₂ ↔
      (l₂ = [] ∧ l = l₁ ∧ e = a) ∨ ∃ l', l₂ = l' ++ [e] ∧ l = l₁ ++ a :: l' := by
  constructor
  · intro h
    rcases List.eq_nil_or_concat l₂ with rfl | ⟨l', e', rfl⟩
    · obtain ⟨hl, he⟩ := List.append_inj' h rfl
      exact Or.inl ⟨rfl, hl, (List.cons.inj he).1⟩
    · rw [List.concat_eq_append, ← List.cons_append, ← List.append_assoc] at h
      obtain ⟨hl, he⟩ := List.append_inj' h rfl
      exact Or.inr ⟨l', by rw [(List.cons.inj he).1, List.concat_eq_append], hl⟩
  · rintro (⟨rfl, rfl, rfl⟩ | ⟨l', rfl, rfl⟩)
    · rfl
    · rw [List.append_assoc, List.cons_append]

theorem replay_eq_some_iff {log : List (Event K V)} {k : K} {v : V} :
    replay log k = some v ↔ ∃ l₁ l₂, log = l₁ ++ .put k v :: l₂ ∧ ∀ e ∈ l₂, e.key ≠ k := by
  induction log using List.reverseRecOn with
  | nil => simp [replay]
  | append_singleton log e ih =>
    rw [replay_append, apply]
    simp only [append_singleton_eq]
    by_cases hk : k = e.key
    · subst hk
      rw [Function.update_self]
      constructor
      · intro hbound
        refine ⟨log, [], Or.inl ⟨rfl, rfl, ?_⟩, by simp⟩
        cases e with
        | put k w => rw [Event.key, Option.some.inj hbound]
        | drop k => exact absurd hbound (by simp [Event.bound])
      · rintro ⟨l₁, l₂, ⟨_, _, he⟩ | ⟨l', rfl, _⟩, hlast⟩
        · rw [he]
          rfl
        · exact absurd rfl (hlast e (by simp))
    · rw [Function.update_of_ne hk, ih]
      constructor
      · rintro ⟨l₁, l', rfl, hlast⟩
        refine ⟨l₁, l' ++ [e], Or.inr ⟨l', rfl, rfl⟩, fun e' he' => ?_⟩
        rcases List.mem_append.mp he' with he' | he'
        · exact hlast e' he'
        · rw [List.mem_singleton.mp he']
          exact Ne.symm hk
      · rintro ⟨l₁, l₂, ⟨_, _, rfl⟩ | ⟨l', rfl, hl⟩, hlast⟩
        · exact absurd rfl hk
        · exact ⟨l₁, l', hl, fun e' he' => hlast e' (by simp [he'])⟩

end MapLog
