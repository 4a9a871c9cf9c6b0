import Mathlib.Data.List.Basic

/-! Runs of a step relation whose steps are labelled by the entries of a log. -/

namespace Log
variable {σ E : Type} {step : σ → E → σ → Prop}

def Leads (step : σ → E → σ → Prop) : List E → σ → σ → Prop
  | [], s, s' => s' = s
  | e :: log, s, s' => ∃ s₁, step s e s₁ ∧ Leads step log s₁ s'

theorem leads_singleton {e : E} {s s' : σ} : Leads step [e] s s' ↔ step s e s' := by
  constructor
  · rintro ⟨s₁, h, rfl⟩
    exact h
  · exact fun h => ⟨s', h, rfl⟩

theorem leads_append {log log' : List E} {s s' : σ} :
    Leads step (log ++ log') s s' ↔ ∃ s₁, Leads step log s s₁ ∧ Leads step log' s₁ s' := by
  induction log generalizing s with
  | nil =>
    constructor
    · exact fun h => ⟨s, rfl, h⟩
    · rintro ⟨s₁, rfl, h⟩
      exact h
  | cons e log ih =>
    rw [List.cons_append]
    constructor
    · rintro ⟨s₁, h₁, h⟩
      obtain ⟨s₂, h₂, h₃⟩ := ih.mp h
      exact ⟨s₂, ⟨s₁, h₁, h₂⟩, h₃⟩
    · rintro ⟨s₂, ⟨s₁, h₁, h₂⟩, h₃⟩
      exact ⟨s₁, h₁, ih.mpr ⟨s₂, h₂, h₃⟩⟩

theorem Leads.snoc {e : E} {log : List E} {s s₁ s' : σ} (h : Leads step log s s₁) (he : step s₁ e s') :
    Leads step (log ++ [e]) s s' := leads_append.mpr ⟨s₁, h, leads_singleton.mpr he⟩

theorem Leads.keeps {I : σ → Prop} {log : List E} {s s' : σ} (h : Leads step log s s') (hs : I s)
    (hstep : ∀ e ∈ log, ∀ s s', step s e s' → I s → I s') : I s' := by
  induction log generalizing s with
  | nil =>
    obtain rfl := h
    exact hs
  | cons e log ih =>
    obtain ⟨s₁, h₁, h₂⟩ := h
    rw [List.forall_mem_cons] at hstep
    exact ih h₂ (hstep.1 s s₁ h₁ hs) hstep.2

theorem Leads.simulates {σ' : Type} {step' : σ' → E → σ' → Prop} {R : σ → σ' → Prop} {log : List E} {s s' : σ}
    {t : σ'} (h : Leads step log s s') (hR : R s t)
    (hstep : ∀ e ∈ log, ∀ s s' t, step s e s' → R s t → ∃ t', step' t e t' ∧ R s' t') :
    ∃ t', Leads step' log t t' ∧ R s' t' := by
  induction log generalizing s t with
  | nil =>
    obtain rfl := h
    exact ⟨t, rfl, hR⟩
  | cons e log ih =>
    obtain ⟨s₁, h₁, h₂⟩ := h
    rw [List.forall_mem_cons] at hstep
    obtain ⟨t₁, ht₁, hR₁⟩ := hstep.1 s s₁ t h₁ hR
    obtain ⟨t', ht', hR'⟩ := ih h₂ hR₁ hstep.2
    exact ⟨t', ⟨t₁, ht₁, ht'⟩, hR'⟩

end Log
