import PcapReplay.Lib.Program

/-! The operations a program performs in a run, each with its answer. -/

namespace Interaction
namespace Prog
variable {Op : Type} {Ans : Op → Type} {α β σ : Type}

inductive Traces : Prog Op Ans α → List ((o : Op) × Ans o) → α → Prop
  | done (a : α) : Traces (done a) [] a
  | call (o : Op) (k : Ans o → Prog Op Ans α) (r : Ans o) {t : List ((o : Op) × Ans o)} {a : α}
      (h : Traces (k r) t a) : Traces (call o k) (⟨o, r⟩ :: t) a

theorem traces_done {a b : α} {t : List ((o : Op) × Ans o)} :
    Traces (done a) t b ↔ t = [] ∧ b = a := by
  constructor
  · intro h
    cases h
    exact ⟨rfl, rfl⟩
  · rintro ⟨rfl, rfl⟩
    exact .done b

theorem traces_pure {a b : α} {t : List ((o : Op) × Ans o)} :
    Traces (pure a) t b ↔ t = [] ∧ b = a := traces_done

theorem traces_call {o : Op} {k : Ans o → Prog Op Ans α} {b : α} {t : List ((o : Op) × Ans o)} :
    Traces (call o k) t b ↔ ∃ r t', t = ⟨o, r⟩ :: t' ∧ Traces (k r) t' b := by
  constructor
  · intro h
    cases h with
    | call _ _ r h => exact ⟨r, _, rfl, h⟩
  · rintro ⟨r, t', rfl, h⟩
    exact .call o k r h

theorem traces_ask {o : Op} {r : Ans o} {t : List ((o : Op) × Ans o)} :
    Traces (ask o) t r ↔ t = [⟨o, r⟩] := by
  unfold ask
  rw [traces_call]
  constructor
  · rintro ⟨r', t', rfl, h⟩
    obtain ⟨rfl, rfl⟩ := traces_done.mp h
    rfl
  · rintro rfl
    exact ⟨r, [], rfl, .done r⟩

theorem traces_bind {p : Prog Op Ans α} {f : α → Prog Op Ans β} {b : β} {t : List ((o : Op) × Ans o)} :
    Traces (p >>= f) t b ↔ ∃ t₁ t₂ a, t = t₁ ++ t₂ ∧ Traces p t₁ a ∧ Traces (f a) t₂ b := by
  induction p generalizing t with
  | done a =>
    constructor
    · exact fun h => ⟨[], t, a, rfl, .done a, h⟩
    · rintro ⟨t₁, t₂, a', rfl, h₁, h₂⟩
      obtain ⟨rfl, rfl⟩ := traces_done.mp h₁
      exact h₂
  | call o k ih =>
    rw [call_bind, traces_call]
    constructor
    · rintro ⟨r, t', rfl, h⟩
      obtain ⟨t₁, t₂, a, rfl, h₁, h₂⟩ := (ih r).mp h
      exact ⟨_, t₂, a, rfl, .call o k r h₁, h₂⟩
    · rintro ⟨t₁, t₂, a, rfl, h₁, h₂⟩
      obtain ⟨r, t', rfl, h⟩ := traces_call.mp h₁
      exact ⟨r, t' ++ t₂, rfl, (ih r).mpr ⟨t', t₂, a, rfl, h, h₂⟩⟩

theorem Traces.bind {p : Prog Op Ans α} {f : α → Prog Op Ans β} {a : α} {b : β}
    {t₁ t₂ : List ((o : Op) × Ans o)} (h₁ : Traces p t₁ a) (h₂ : Traces (f a) t₂ b) :
    Traces (p >>= f) (t₁ ++ t₂) b := traces_bind.mpr ⟨t₁, t₂, a, rfl, h₁, h₂⟩

theorem traces_embed {Op' : Type} {Ans' : Op' → Type} {f : Op → Op'} {p : Prog Op (fun o => Ans' (f o)) α}
    {t : List ((o : Op') × Ans' o)} {a : α} : Traces (p.embed f) t a ↔
      ∃ t' : List ((o : Op) × Ans' (f o)), t = t'.map (fun e => ⟨f e.1, e.2⟩) ∧ Traces p t' a := by
  induction p generalizing t with
  | done b =>
    constructor
    · intro h
      obtain ⟨rfl, rfl⟩ := traces_done.mp h
      exact ⟨[], rfl, .done a⟩
    · rintro ⟨t', rfl, h⟩
      obtain ⟨rfl, rfl⟩ := traces_done.mp h
      exact .done a
  | call o k ih =>
    constructor
    · intro h
      obtain ⟨r, t₁, rfl, h₁⟩ := traces_call.mp h
      obtain ⟨t₂, rfl, h₂⟩ := (ih r).mp h₁
      exact ⟨⟨o, r⟩ :: t₂, rfl, traces_call.mpr ⟨r, t₂, rfl, h₂⟩⟩
    · rintro ⟨t', rfl, h⟩
      obtain ⟨r, t₁, rfl, h₁⟩ := traces_call.mp h
      exact traces_call.mpr ⟨r, _, rfl, (ih r).mpr ⟨t₁, rfl, h₁⟩⟩

theorem exists_traces (choose : List ((o : Op) × Ans o) → (o : Op) → Ans o) (p : Prog Op Ans α) :
    ∃ t a, Traces p t a ∧ ∀ t₁ o r t₂, t = t₁ ++ ⟨o, r⟩ :: t₂ → r = choose t₁ o := by
  have hafter : ∀ before, ∃ t a, Traces p t a ∧
      ∀ t₁ o r t₂, t = t₁ ++ ⟨o, r⟩ :: t₂ → r = choose (before ++ t₁) o := by
    induction p with
    | done a => exact fun _ => ⟨[], a, .done a, fun t₁ o r t₂ h => by simp at h⟩
    | call o k ih =>
      intro before
      obtain ⟨t, a, ht, hchosen⟩ := ih (choose before o) (before ++ [⟨o, choose before o⟩])
      refine ⟨_, a, .call o k (choose before o) ht, fun t₁ o' r t₂ h => ?_⟩
      cases t₁ with
      | nil =>
        obtain ⟨hhead, _⟩ := List.cons.inj h
        cases hhead
        rw [List.append_nil]
      | cons e t₁ =>
        obtain ⟨rfl, htail⟩ := List.cons.inj h
        have hlater := hchosen t₁ o' r t₂ htail
        rwa [List.append_assoc, List.singleton_append] at hlater
  exact hafter []

theorem Ensures.traces {P : Op → Prop} {Q : α → Prop} {p : Prog Op Ans α} (hp : Ensures P Q p)
    {t : List ((o : Op) × Ans o)} {a : α} (ht : Traces p t a) : Q a ∧ ∀ e ∈ t, P e.1 := by
  induction ht with
  | done a => exact ⟨hp, by simp⟩
  | call o k r _ ih =>
    obtain ⟨hQ, hrest⟩ := ih (hp.2 r)
    refine ⟨hQ, fun e he => ?_⟩
    rcases List.mem_cons.mp he with rfl | he
    · exact hp.1
    · exact hrest e he

def EnsuresIf (R : (o : Op) → Ans o → Prop) (P : Op → Prop) : Prog Op Ans α → Prop
  | done _ => True
  | call o k => P o ∧ ∀ r, R o r → EnsuresIf R P (k r)

section EnsuresIf
variable {R : (o : Op) → Ans o → Prop} {P : Op → Prop}

theorem ensuresIf_pure (a : α) : EnsuresIf R P (pure a : Prog Op Ans α) := trivial

theorem EnsuresIf.call {o : Op} {k : Ans o → Prog Op Ans α} (ho : P o)
    (hk : ∀ r, R o r → EnsuresIf R P (k r)) : EnsuresIf R P (ask o >>= k) := ⟨ho, hk⟩

theorem EnsuresIf.bind {p : Prog Op Ans α} {f : α → Prog Op Ans β} (hp : EnsuresIf R P p)
    (hf : ∀ a, EnsuresIf R P (f a)) : EnsuresIf R P (p >>= f) := by
  induction p with
  | done a => exact hf a
  | call o k ih => exact ⟨hp.1, fun r hr => ih r (hp.2 r hr)⟩

theorem EnsuresIf.traces {p : Prog Op Ans α} {t : List ((o : Op) × Ans o)} {a : α} (hp : EnsuresIf R P p)
    (ht : Traces p t a) (hR : ∀ e ∈ t, R e.1 e.2) : ∀ e ∈ t, P e.1 := by
  induction ht with
  | done a => simp
  | call o k r _ ih =>
    rw [List.forall_mem_cons] at hR ⊢
    exact ⟨hp.1, ih (hp.2 r hR.1) hR.2⟩

end EnsuresIf

theorem traces_dry (ans : (o : Op) → Ans o) (p : Prog Op Ans α) :
    Traces p ((dry ans p).1.map fun o => ⟨o, ans o⟩) (dry ans p).2 := by
  induction p with
  | done a => exact .done a
  | call o k ih => exact .call o k (ans o) (ih (ans o))

theorem Traces.continued {R : (o : Op) → Ans o → Prop} {ans : (o : Op) → Ans o} (hans : ∀ o, R o (ans o))
    {p : Prog Op Ans α} {t t₁ : List ((o : Op) × Ans o)} {a : α} (h : Traces p t a) (hpre : t₁ <+: t)
    (h₁ : ∀ e ∈ t₁, R e.1 e.2) : ∃ t' a', Traces p t' a' ∧ t₁ <+: t' ∧ ∀ e ∈ t', R e.1 e.2 := by
  induction h generalizing t₁ with
  | done a =>
    obtain rfl := List.prefix_nil.mp hpre
    exact ⟨[], a, .done a, List.nil_prefix, h₁⟩
  | call o k r _ ih =>
    cases t₁ with
    | nil =>
      refine ⟨_, _, traces_dry ans (Prog.call o k), List.nil_prefix, fun e he => ?_⟩
      obtain ⟨o', _, rfl⟩ := List.mem_map.mp he
      exact hans o'
    | cons e t₂ =>
      rw [List.forall_mem_cons] at h₁
      obtain ⟨rfl, hpre₂⟩ := List.cons_prefix_cons.mp hpre
      obtain ⟨t', a', ht', hpre', hR⟩ := ih hpre₂ h₁.2
      refine ⟨_, a', .call o k r ht', List.cons_prefix_cons.mpr ⟨rfl, hpre'⟩, ?_⟩
      rw [List.forall_mem_cons]
      exact ⟨h₁.1, hR⟩

variable {step : (o : Op) → σ → Ans o → σ → Prop}

def Chain (step : (o : Op) → σ → Ans o → σ → Prop) : List ((o : Op) × Ans o) → σ → σ → Prop
  | [], s, s' => s' = s
  | ⟨o, r⟩ :: t, s, s' => ∃ s₁, step o s r s₁ ∧ Chain step t s₁ s'

end Prog
end Interaction
