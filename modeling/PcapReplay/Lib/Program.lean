import Mathlib.Data.Fin.Tuple.Basic
import Mathlib.Data.List.Basic

/-! Programs that talk to an environment through a fixed set of operations. What the
environment may do is a relation between states, chosen by the user of a program. -/

namespace Interaction

/-- A program over the operations `Op`, whose answers have the types `Ans`. -/
inductive Prog (Op : Type) (Ans : Op → Type) (α : Type) : Type where
  | done (a : α)
  | call (o : Op) (k : Ans o → Prog Op Ans α)

namespace Prog
variable {Op : Type} {Ans : Op → Type} {α β σ : Type}

def bind : Prog Op Ans α → (α → Prog Op Ans β) → Prog Op Ans β
  | done a, f => f a
  | call o k, f => call o fun r => (k r).bind f

def ask (o : Op) : Prog Op Ans (Ans o) := call o done

instance : Monad (Prog Op Ans) where
  pure := done
  bind := bind

@[simp] theorem done_bind (a : α) (f : α → Prog Op Ans β) : (done a >>= f) = f a := rfl

@[simp] theorem call_bind (o : Op) (k : Ans o → Prog Op Ans α) (f : α → Prog Op Ans β) :
    (call o k >>= f) = call o fun r => k r >>= f := rfl

theorem bind_done (p : Prog Op Ans α) : (p >>= done) = p := by
  induction p with
  | done a => rfl
  | call o k ih => exact congrArg (call o) (funext ih)

theorem bind_assoc' {γ : Type} (p : Prog Op Ans α) (f : α → Prog Op Ans β)
    (g : β → Prog Op Ans γ) : (p >>= f >>= g) = p >>= fun a => f a >>= g := by
  induction p with
  | done a => rfl
  | call o k ih => exact congrArg (call o) (funext ih)

instance : LawfulMonad (Prog Op Ans) :=
  LawfulMonad.mk' _ bind_done done_bind bind_assoc'

def collect : {n : ℕ} → (Fin n → Prog Op Ans α) → Prog Op Ans (Fin n → α)
  | 0, _ => pure Fin.elim0
  | _ + 1, f => do
    let a ← f 0
    let g ← collect fun i => f i.succ
    pure (Fin.cons a g)

variable {step : (o : Op) → σ → Ans o → σ → Prop}

/-- `Exec step p s a s'`: an environment that answers by `step` can take `p` from `s` to the
result `a` in `s'`. -/
def Exec (step : (o : Op) → σ → Ans o → σ → Prop) : Prog Op Ans α → σ → α → σ → Prop
  | done a, s, b, s' => b = a ∧ s' = s
  | call o k, s, b, s' => ∃ r s₁, step o s r s₁ ∧ Exec step (k r) s₁ b s'

@[simp] theorem exec_done {a b : α} {s s' : σ} :
    Exec step (done a : Prog Op Ans α) s b s' ↔ b = a ∧ s' = s := Iff.rfl

@[simp] theorem exec_pure {a b : α} {s s' : σ} :
    Exec step (pure a : Prog Op Ans α) s b s' ↔ b = a ∧ s' = s := Iff.rfl

@[simp] theorem exec_ask {o : Op} {r : Ans o} {s s' : σ} :
    Exec step (ask o) s r s' ↔ step o s r s' := by
  constructor
  · rintro ⟨r', s₁, h, rfl, rfl⟩
    exact h
  · exact fun h => ⟨r, s', h, rfl, rfl⟩

theorem exec_bind {p : Prog Op Ans α} {f : α → Prog Op Ans β} {b : β} {s s' : σ} :
    Exec step (p >>= f) s b s' ↔ ∃ a s₁, Exec step p s a s₁ ∧ Exec step (f a) s₁ b s' := by
  induction p generalizing s with
  | done a =>
    constructor
    · exact fun h => ⟨a, s, ⟨rfl, rfl⟩, h⟩
    · rintro ⟨_, _, ⟨rfl, rfl⟩, h⟩
      exact h
  | call o k ih =>
    constructor
    · rintro ⟨r, s₁, h₁, h₂⟩
      obtain ⟨a, s₂, h₃, h₄⟩ := (ih r).mp h₂
      exact ⟨a, s₂, ⟨r, s₁, h₁, h₃⟩, h₄⟩
    · rintro ⟨a, s₂, ⟨r, s₁, h₁, h₃⟩, h₄⟩
      exact ⟨r, s₁, h₁, (ih r).mpr ⟨a, s₂, h₃, h₄⟩⟩

section more
variable {Op' : Type} {Ans' : Op' → Type} {f : Op → Op'}

def embed (f : Op → Op') : Prog Op (fun o => Ans' (f o)) α → Prog Op' Ans' α
  | done a => done a
  | call o k => call (f o) fun r => (k r).embed f

theorem exec_embed {step' : (o : Op') → σ → Ans' o → σ → Prop} {p : Prog Op (fun o => Ans' (f o)) α} {s : σ}
    {a : α} {s' : σ} : Exec step' (p.embed f) s a s' ↔ Exec (fun o => step' (f o)) p s a s' := by
  induction p generalizing s with
  | done b => exact Iff.rfl
  | call o k ih =>
    constructor
    · rintro ⟨r, s₁, h₁, h₂⟩
      exact ⟨r, s₁, h₁, (ih r).mp h₂⟩
    · rintro ⟨r, s₁, h₁, h₂⟩
      exact ⟨r, s₁, h₁, (ih r).mpr h₂⟩

def inl (p : Prog Op Ans α) : Prog (Op ⊕ Op') (Sum.elim Ans Ans') α :=
  @embed Op α (Op ⊕ Op') (Sum.elim Ans Ans') Sum.inl p

theorem exec_inl {step' : (o : Op ⊕ Op') → σ → Sum.elim Ans Ans' o → σ → Prop} {p : Prog Op Ans α} {s : σ}
    {a : α} {s' : σ} : Exec step' p.inl s a s' ↔ Exec (fun o => step' (Sum.inl o)) p s a s' := exec_embed

end more

def Returns (p : Prog Op Ans α) (a : α) : Prop :=
  Exec (fun _ _ _ _ => True) p () a ()

@[simp] theorem returns_done {a b : α} : (done a : Prog Op Ans α).Returns b ↔ b = a := by
  simp [Returns]

@[simp] theorem returns_pure {a b : α} : (pure a : Prog Op Ans α).Returns b ↔ b = a :=
  returns_done

theorem returns_call {o : Op} {k : Ans o → Prog Op Ans α} {b : α} :
    (call o k).Returns b ↔ ∃ r, (k r).Returns b :=
  ⟨fun ⟨r, _, _, h⟩ => ⟨r, h⟩, fun ⟨r, h⟩ => ⟨r, (), trivial, h⟩⟩

theorem returns_bind {p : Prog Op Ans α} {f : α → Prog Op Ans β} {b : β} :
    (p >>= f).Returns b ↔ ∃ a, p.Returns a ∧ (f a).Returns b :=
  exec_bind.trans ⟨fun ⟨a, _, h₁, h₂⟩ => ⟨a, h₁, h₂⟩, fun ⟨a, h₁, h₂⟩ => ⟨a, (), h₁, h₂⟩⟩

theorem returns_bind_const [∀ o, Nonempty (Ans o)] {p : Prog Op Ans α} {q : Prog Op Ans β} {b : β} :
    (p >>= fun _ => q).Returns b ↔ q.Returns b := by
  induction p with
  | done a => rw [done_bind]
  | call o k ih =>
    rw [call_bind, returns_call]
    exact ⟨fun ⟨r, h⟩ => (ih r).mp h, fun h => ⟨Classical.arbitrary _, (ih _).mpr h⟩⟩

theorem exec_total (h : ∀ o s, ∃ r s', step o s r s') (p : Prog Op Ans α) (s : σ) :
    ∃ a s', Exec step p s a s' := by
  induction p generalizing s with
  | done a => exact ⟨a, s, rfl, rfl⟩
  | call o k ih =>
    obtain ⟨r, s₁, h₁⟩ := h o s
    obtain ⟨a, s', h₂⟩ := ih r s₁
    exact ⟨a, s', r, s₁, h₁, h₂⟩

theorem Exec.mono {step' : (o : Op) → σ → Ans o → σ → Prop}
    (h : ∀ o s r s', step o s r s' → step' o s r s') {p : Prog Op Ans α} {s : σ} {a : α} {s' : σ}
    (hp : Exec step p s a s') : Exec step' p s a s' := by
  induction p generalizing s with
  | done b => exact hp
  | call o k ih =>
    obtain ⟨r, s₁, h₁, h₂⟩ := hp
    exact ⟨r, s₁, h o s r s₁ h₁, ih r h₂⟩

theorem Exec.returns {p : Prog Op Ans α} {s : σ} {a : α} {s' : σ} (h : Exec step p s a s') :
    p.Returns a := by
  induction p generalizing s with
  | done b => exact returns_done.mpr h.1
  | call o k ih =>
    obtain ⟨r, s₁, _, h₂⟩ := h
    exact returns_call.mpr ⟨r, ih r h₂⟩

/-- Every operation the program performs is one of `P`, and every result one of `Q`. -/
def Ensures (P : Op → Prop) (Q : α → Prop) : Prog Op Ans α → Prop
  | done a => Q a
  | call o k => P o ∧ ∀ r, Ensures P Q (k r)

section Ensures
variable {P : Op → Prop} {Q : α → Prop} {R : β → Prop}

theorem ensures_pure {a : α} (h : Q a) : Ensures P Q (pure a : Prog Op Ans α) := h

theorem ensures_ask {o : Op} (h : P o) : Ensures P (fun _ => True) (ask o : Prog Op Ans (Ans o)) :=
  ⟨h, fun _ => trivial⟩

theorem Ensures.bind {p : Prog Op Ans α} {f : α → Prog Op Ans β} (hp : Ensures P Q p)
    (hf : ∀ a, Q a → Ensures P R (f a)) : Ensures P R (p >>= f) := by
  induction p with
  | done a => exact hf a hp
  | call o k ih => exact ⟨hp.1, fun r => ih r (hp.2 r)⟩

theorem Ensures.mono {P' : Op → Prop} {Q' : α → Prop} {p : Prog Op Ans α} (hp : Ensures P Q p)
    (hP : ∀ o, P o → P' o) (hQ : ∀ a, Q a → Q' a) : Ensures P' Q' p := by
  induction p with
  | done a => exact hQ a hp
  | call o k ih => exact ⟨hP o hp.1, fun r => ih r (hp.2 r)⟩

theorem Ensures.exec {I : σ → Prop} {p : Prog Op Ans α} {s : σ} {a : α} {s' : σ} (hp : Ensures P Q p)
    (h : Exec step p s a s') (hs : I s) (hstep : ∀ o s r s', P o → step o s r s' → I s → I s') :
    Q a ∧ I s' := by
  induction p generalizing s with
  | done b =>
    obtain ⟨rfl, rfl⟩ := h
    exact ⟨hp, hs⟩
  | call o k ih =>
    obtain ⟨r, s₁, h₁, h₂⟩ := h
    exact ih r (hp.2 r) h₂ (hstep o s r s₁ hp.1 h₁ hs)

theorem Ensures.returns {p : Prog Op Ans α} {a : α} (hp : Ensures P Q p) (h : p.Returns a) : Q a := by
  have hq := hp.exec h (trivial : (fun _ : Unit => True) ()) fun _ _ _ _ _ _ _ => trivial
  exact hq.1

end Ensures

def dry (ans : (o : Op) → Ans o) : Prog Op Ans α → List Op × α
  | done a => ([], a)
  | call o k => (o :: (dry ans (k (ans o))).1, (dry ans (k (ans o))).2)

section dry
variable (ans : (o : Op) → Ans o)

@[simp] theorem dry_done (a : α) : dry ans (done a : Prog Op Ans α) = ([], a) := rfl

@[simp] theorem dry_pure (a : α) : dry ans (pure a : Prog Op Ans α) = ([], a) := rfl

@[simp] theorem dry_call (o : Op) (k : Ans o → Prog Op Ans α) :
    dry ans (call o k) = (o :: (dry ans (k (ans o))).1, (dry ans (k (ans o))).2) := rfl

@[simp] theorem dry_ask (o : Op) : dry ans (ask o) = ([o], ans o) := rfl

@[simp] theorem dry_bind (p : Prog Op Ans α) (f : α → Prog Op Ans β) :
    dry ans (p >>= f) =
      ((dry ans p).1 ++ (dry ans (f (dry ans p).2)).1, (dry ans (f (dry ans p).2)).2) := by
  induction p with
  | done a => simp
  | call o k ih => simp [ih]

theorem returns_dry (p : Prog Op Ans α) : p.Returns (dry ans p).2 := by
  induction p with
  | done a => simp
  | call o k ih => exact returns_call.mpr ⟨ans o, ih (ans o)⟩

end dry

def Performs (step : (o : Op) → σ → Ans o → σ → Prop) (ans : (o : Op) → Ans o) :
    List Op → σ → σ → Prop
  | [], s, s' => s' = s
  | o :: os, s, s' => ∃ s₁, step o s (ans o) s₁ ∧ Performs step ans os s₁ s'

theorem Performs.mono {step' : (o : Op) → σ → Ans o → σ → Prop}
    (h : ∀ o s r s', step o s r s' → step' o s r s') {ans : (o : Op) → Ans o} {os : List Op} {s s' : σ}
    (hp : Performs step ans os s s') : Performs step' ans os s s' := by
  induction os generalizing s with
  | nil => exact hp
  | cons o os ih =>
    obtain ⟨s₁, h₁, h₂⟩ := hp
    exact ⟨s₁, h o s (ans o) s₁ h₁, ih h₂⟩

theorem Exec.performs (ans : (o : Op) → Ans o) {p : Prog Op Ans α} {s : σ} {a : α} {s' : σ}
    (h : Exec step p s a s')
    (forced : ∀ o ∈ (dry ans p).1, ∀ s r s', step o s r s' → r = ans o) :
    a = (dry ans p).2 ∧ Performs step ans (dry ans p).1 s s' := by
  induction p generalizing s with
  | done b => exact h
  | call o k ih =>
    obtain ⟨r, s₁, h₁, h₂⟩ := h
    obtain rfl := forced o (by simp) _ _ _ h₁
    obtain ⟨ha, hp⟩ := ih (ans o) h₂ fun o' ho' => forced o' (by simp [ho'])
    exact ⟨ha, s₁, h₁, hp⟩

def run (env : (o : Op) → σ → Ans o × σ) : Prog Op Ans α → σ → α × σ
  | done a, s => (a, s)
  | call o k, s => run env (k (env o s).1) (env o s).2

section run
variable (env : (o : Op) → σ → Ans o × σ)

@[simp] theorem run_done (a : α) (s : σ) : run env (done a : Prog Op Ans α) s = (a, s) := rfl

@[simp] theorem run_pure (a : α) (s : σ) : run env (pure a : Prog Op Ans α) s = (a, s) := rfl

@[simp] theorem run_ask (o : Op) (s : σ) : run env (ask o) s = env o s := rfl

@[simp] theorem run_bind (p : Prog Op Ans α) (f : α → Prog Op Ans β) (s : σ) :
    run env (p >>= f) s = run env (f (run env p s).1) (run env p s).2 := by
  induction p generalizing s with
  | done a => rfl
  | call o k ih => exact ih (env o s).1 (env o s).2

@[simp] theorem run_map (f : α → β) (p : Prog Op Ans α) (s : σ) :
    run env (f <$> p) s = (f (run env p s).1, (run env p s).2) := by
  rw [map_eq_pure_bind, run_bind, run_pure]

variable {env} in
theorem exec_run (h : ∀ o s, step o s (env o s).1 (env o s).2) (p : Prog Op Ans α) (s : σ) :
    Exec step p s (run env p s).1 (run env p s).2 := by
  induction p generalizing s with
  | done a => exact ⟨rfl, rfl⟩
  | call o k ih => exact ⟨_, _, h o s, ih _ _⟩

theorem returns_run (p : Prog Op Ans α) (s : σ) : p.Returns (run env p s).1 := by
  have h : Exec (fun o s r s' => r = (env o s).1 ∧ s' = (env o s).2) p s (run env p s).1
      (run env p s).2 := exec_run (fun _ _ => ⟨rfl, rfl⟩) p s
  exact h.returns

end run

end Prog
end Interaction
