import PcapReplay.Lib.Trace
import Mathlib.Data.List.Infix

/-! Programs that make the calls of a plan in order, up to the first that fails. -/

namespace Interaction
namespace Prog
variable {Op : Type} {Ans : Op → Type} {α β : Type}

def Completes (Fails : (o : Op) → Ans o → Prop) (plan : List Op) (t : List ((o : Op) × Ans o)) : Prop :=
  t.map Sigma.fst = plan ∧ ∀ e ∈ t, ¬ Fails e.1 e.2

def Breaks (Fails : (o : Op) → Ans o → Prop) (plan : List Op) (t : List ((o : Op) × Ans o)) : Prop :=
  t.map Sigma.fst <+: plan ∧ ∃ t₁ e, t = t₁ ++ [e] ∧ Fails e.1 e.2 ∧ ∀ e ∈ t₁, ¬ Fails e.1 e.2

/-- Whatever the answers, the program makes the calls of the plan, and ends with `none` at the first
that fails. -/
def Obeys (Fails : (o : Op) → Ans o → Prop) (plan : List Op) (p : Prog Op Ans (Option α)) : Prop :=
  ∀ t r, Traces p t r → (∃ a, r = some a) ∧ Completes Fails plan t ∨ r = none ∧ Breaks Fails plan t

variable {Fails : (o : Op) → Ans o → Prop} {plan plan' : List Op} {t t' : List ((o : Op) × Ans o)}

theorem completes_nil : Completes Fails [] ([] : List ((o : Op) × Ans o)) :=
  ⟨rfl, fun _ he => absurd he List.not_mem_nil⟩

theorem completes_one {o : Op} {r : Ans o} (h : ¬ Fails o r) : Completes Fails [o] [⟨o, r⟩] := by
  refine ⟨rfl, fun e he => ?_⟩
  rw [List.mem_singleton.mp he]
  exact h

theorem Completes.append (h : Completes Fails plan t) (h' : Completes Fails plan' t') :
    Completes Fails (plan ++ plan') (t ++ t') := by
  refine ⟨?_, List.forall_mem_append.mpr ⟨h.2, h'.2⟩⟩
  rw [List.map_append, h.1, h'.1]

theorem Completes.breaks (h : Completes Fails plan t) (h' : Breaks Fails plan' t') :
    Breaks Fails (plan ++ plan') (t ++ t') := by
  obtain ⟨hplan, t₁, e, rfl, he, hbefore⟩ := h'
  refine ⟨?_, t ++ t₁, e, (List.append_assoc _ _ _).symm, he, List.forall_mem_append.mpr ⟨h.2, hbefore⟩⟩
  rw [List.map_append, h.1]
  exact (List.prefix_append_right_inj plan).mpr hplan

theorem Breaks.append (h : Breaks Fails plan t) (plan' : List Op) : Breaks Fails (plan ++ plan') t :=
  ⟨h.1.trans (List.prefix_append plan plan'), h.2⟩

theorem breaks_one {o : Op} {r : Ans o} (h : Fails o r) : Breaks Fails [o] [⟨o, r⟩] :=
  ⟨List.prefix_rfl, [], ⟨o, r⟩, rfl, h, fun _ he => absurd he List.not_mem_nil⟩

theorem obeys_pure (a : α) : Obeys Fails [] (pure (some a)) := by
  intro t r ht
  obtain ⟨rfl, rfl⟩ := traces_pure.mp ht
  exact Or.inl ⟨⟨a, rfl⟩, completes_nil⟩

theorem obeys_ask {o : Op} {f : Ans o → Prog Op Ans (Option α)} (hfails : ∀ r, Fails o r → f r = pure none)
    (hgo : ∀ r, ¬ Fails o r → Obeys Fails plan (f r)) : Obeys Fails (o :: plan) (ask o >>= f) := by
  intro t r ht
  obtain ⟨t₁, t₂, answer, rfl, h₁, h₂⟩ := traces_bind.mp ht
  obtain rfl := traces_ask.mp h₁
  by_cases hanswer : Fails o answer
  · rw [hfails answer hanswer] at h₂
    obtain ⟨rfl, rfl⟩ := traces_pure.mp h₂
    exact Or.inr ⟨rfl, (breaks_one hanswer).append plan⟩
  · have hfirst := completes_one hanswer
    rcases hgo answer hanswer t₂ r h₂ with ⟨hr, hrest⟩ | ⟨hr, hrest⟩
    · exact Or.inl ⟨hr, hfirst.append hrest⟩
    · exact Or.inr ⟨hr, hfirst.breaks hrest⟩

theorem Obeys.traces_bind {p : Prog Op Ans (Option α)} {f : Option α → Prog Op Ans (Option β)} {r : Option β}
    (hp : Obeys Fails plan p) (ht : Traces (p >>= f) t r) (hnone : f none = pure none) :
    r = none ∧ Breaks Fails plan t ∨
      ∃ t₁ t₂ a, t = t₁ ++ t₂ ∧ Completes Fails plan t₁ ∧ Traces (f (some a)) t₂ r := by
  obtain ⟨t₁, t₂, a, rfl, h₁, h₂⟩ := Prog.traces_bind.mp ht
  rcases hp t₁ a h₁ with ⟨⟨a, rfl⟩, hfirst⟩ | ⟨rfl, hfirst⟩
  · exact Or.inr ⟨t₁, t₂, a, rfl, hfirst, h₂⟩
  · rw [hnone] at h₂
    obtain ⟨rfl, rfl⟩ := traces_pure.mp h₂
    rw [List.append_nil]
    exact Or.inl ⟨rfl, hfirst⟩

theorem Obeys.bind {p : Prog Op Ans (Option α)} {f : Option α → Prog Op Ans (Option β)} (hp : Obeys Fails plan p)
    (hnone : f none = pure none) (hsome : ∀ a, Obeys Fails plan' (f (some a))) :
    Obeys Fails (plan ++ plan') (p >>= f) := by
  intro t r ht
  rcases hp.traces_bind ht hnone with ⟨hr, hfirst⟩ | ⟨t₁, t₂, a, rfl, hfirst, h₂⟩
  · exact Or.inr ⟨hr, hfirst.append plan'⟩
  · rcases hsome a t₂ r h₂ with ⟨hr, hrest⟩ | ⟨hr, hrest⟩
    · exact Or.inl ⟨hr, hfirst.append hrest⟩
    · exact Or.inr ⟨hr, hfirst.breaks hrest⟩

theorem Obeys.embed {Op' : Type} {Ans' : Op' → Type} {f : Op → Op'} {Fails' : (o : Op') → Ans' o → Prop}
    {p : Prog Op (fun o => Ans' (f o)) (Option α)} (h : Obeys (fun o => Fails' (f o)) plan p) :
    Obeys Fails' (plan.map f) (p.embed f) := by
  have hops : ∀ t' : List ((o : Op) × Ans' (f o)),
      (t'.map fun e => (⟨f e.1, e.2⟩ : (o : Op') × Ans' o)).map Sigma.fst = (t'.map Sigma.fst).map f := by
    intro t'
    rw [List.map_map, List.map_map]
    rfl
  have hfree : ∀ t' : List ((o : Op) × Ans' (f o)), (∀ e ∈ t', ¬ Fails' (f e.1) e.2) →
      ∀ e ∈ t'.map fun e => (⟨f e.1, e.2⟩ : (o : Op') × Ans' o), ¬ Fails' e.1 e.2 := by
    intro t' hnone
    rw [List.forall_mem_map]
    exact hnone
  intro t r ht
  obtain ⟨t', rfl, ht'⟩ := traces_embed.mp ht
  rcases h t' r ht' with ⟨hr, hplan, hnone⟩ | ⟨hr, hplan, t₁, e, rfl, he, hbefore⟩
  · exact Or.inl ⟨hr, by rw [hops, hplan], hfree t' hnone⟩
  · refine Or.inr ⟨hr, ?_, t₁.map fun e => ⟨f e.1, e.2⟩, ⟨f e.1, e.2⟩, ?_, he, hfree t₁ hbefore⟩
    · rw [hops]
      exact hplan.map f
    · rw [List.map_append]
      rfl

end Prog
end Interaction
