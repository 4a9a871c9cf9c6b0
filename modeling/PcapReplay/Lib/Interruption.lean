import PcapReplay.Lib.Program

/-! Programs that are stopped somewhere on their way. -/

namespace Interaction
namespace Prog
variable {Op : Type} {Ans : Op → Type} {α β σ : Type} {step step' : (o : Op) → σ → Ans o → σ → Prop}

/-- The environment may have come from `s` to `s'` when `p` is stopped, or at its end. -/
def Cut (step : (o : Op) → σ → Ans o → σ → Prop) : Prog Op Ans α → σ → σ → Prop
  | done _, s, s' => s' = s
  | call o k, s, s' => s' = s ∨ ∃ r s₁, step o s r s₁ ∧ Cut step (k r) s₁ s'

theorem Cut.refl (p : Prog Op Ans α) (s : σ) : Cut step p s s := by
  cases p with
  | done a => rfl
  | call o k => exact Or.inl rfl

theorem cut_pure {a : α} {s s' : σ} : Cut step (pure a : Prog Op Ans α) s s' ↔ s' = s := Iff.rfl

theorem cut_bind {p : Prog Op Ans α} {f : α → Prog Op Ans β} {s s' : σ} :
    Cut step (p >>= f) s s' ↔ Cut step p s s' ∨ ∃ a s₁, Exec step p s a s₁ ∧ Cut step (f a) s₁ s' := by
  induction p generalizing s with
  | done a =>
    constructor
    · exact fun h => Or.inr ⟨a, s, ⟨rfl, rfl⟩, h⟩
    · rintro (h | ⟨_, _, ⟨rfl, rfl⟩, h⟩)
      · obtain rfl : s' = s := h
        exact Cut.refl (f a) s'
      · exact h
  | call o k ih =>
    rw [call_bind]
    constructor
    · rintro (h | ⟨r, s₁, h₁, h⟩)
      · exact Or.inl (Or.inl h)
      · rcases (ih r).mp h with h | ⟨a, s₂, h₂, h₃⟩
        · exact Or.inl (Or.inr ⟨r, s₁, h₁, h⟩)
        · exact Or.inr ⟨a, s₂, ⟨r, s₁, h₁, h₂⟩, h₃⟩
    · rintro ((h | ⟨r, s₁, h₁, h⟩) | ⟨a, s₂, ⟨r, s₁, h₁, h₂⟩, h₃⟩)
      · exact Or.inl h
      · exact Or.inr ⟨r, s₁, h₁, (ih r).mpr (Or.inl h)⟩
      · exact Or.inr ⟨r, s₁, h₁, (ih r).mpr (Or.inr ⟨a, s₂, h₂, h₃⟩)⟩

theorem Exec.cut {p : Prog Op Ans α} {s : σ} {a : α} {s' : σ} (h : Exec step p s a s') : Cut step p s s' := by
  induction p generalizing s with
  | done b => exact h.2
  | call o k ih =>
    obtain ⟨r, s₁, h₁, h₂⟩ := h
    exact Or.inr ⟨r, s₁, h₁, ih r h₂⟩

theorem cut_bind_pure {p : Prog Op Ans α} {f : α → β} {s s' : σ} :
    Cut step (p >>= fun a => pure (f a)) s s' ↔ Cut step p s s' := by
  rw [cut_bind]
  refine ⟨fun h => ?_, Or.inl⟩
  rcases h with h | ⟨a, s₁, h, hend⟩
  · exact h
  · obtain rfl := cut_pure.mp hend
    exact h.cut

theorem cut_embed {Op' : Type} {Ans' : Op' → Type} {f : Op → Op'} {step' : (o : Op') → σ → Ans' o → σ → Prop}
    {p : Prog Op (fun o => Ans' (f o)) α} {s s' : σ} :
    Cut step' (p.embed f) s s' ↔ Cut (fun o => step' (f o)) p s s' := by
  induction p generalizing s with
  | done a => exact Iff.rfl
  | call o k ih =>
    constructor
    · rintro (h | ⟨r, s₁, h₁, h₂⟩)
      · exact Or.inl h
      · exact Or.inr ⟨r, s₁, h₁, (ih r).mp h₂⟩
    · rintro (h | ⟨r, s₁, h₁, h₂⟩)
      · exact Or.inl h
      · exact Or.inr ⟨r, s₁, h₁, (ih r).mpr h₂⟩

theorem cut_inl {Op' : Type} {Ans' : Op' → Type} {step' : (o : Op ⊕ Op') → σ → Sum.elim Ans Ans' o → σ → Prop}
    {p : Prog Op Ans α} {s s' : σ} : Cut step' p.inl s s' ↔ Cut (fun o => step' (Sum.inl o)) p s s' := cut_embed

theorem Ensures.cut {P : Op → Prop} {Q : α → Prop} {I : σ → Prop} {p : Prog Op Ans α} {s s' : σ}
    (hp : Ensures P Q p) (h : Cut step p s s') (hs : I s)
    (hstep : ∀ o s r s', P o → step o s r s' → I s → I s') : I s' := by
  induction p generalizing s with
  | done a =>
    obtain rfl : s' = s := h
    exact hs
  | call o k ih =>
    rcases h with rfl | ⟨r, s₁, h₁, h₂⟩
    · exact hs
    · exact ih r (hp.2 r) h₂ (hstep o s r s₁ hp.1 h₁ hs)

end Prog
end Interaction
