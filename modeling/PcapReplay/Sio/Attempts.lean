import PcapReplay.Lib.Trace
import PcapReplay.Sio.Commands

/-! The commands a raid transfer issues when any of them may be rejected. -/

namespace PcapReplay
open Interaction Prog
variable {n : ℕ}

abbrev Trace := List ((o : Op) × Ans o)

def issuedCmd : (o : Op) × Ans o → Option (Command × ℤ)
  | ⟨.cmd c, rc⟩ => some (c, rc)
  | _ => none

def issued (t : Trace) : List (Command × ℤ) := t.filterMap issuedCmd

def answering (ans : ℕ → ℤ) (others : (o : Op) → Ans o) (before : Trace) : (o : Op) → Ans o
  | .cmd _ => ans (issued before).length
  | o => others o

def isSchedule : (o : Op) × Ans o → Bool
  | ⟨.schedule, _⟩ => true
  | _ => false

def scheduled (t : Trace) : ℕ := t.countP isSchedule

def accepted (t : Trace) : ℕ := (issued t).countP fun x => x.2 = 0

theorem issued_append (t₁ t₂ : Trace) : issued (t₁ ++ t₂) = issued t₁ ++ issued t₂ := List.filterMap_append

theorem scheduled_append (t₁ t₂ : Trace) : scheduled (t₁ ++ t₂) = scheduled t₁ + scheduled t₂ :=
  List.countP_append

theorem accepted_append (t₁ t₂ : Trace) : accepted (t₁ ++ t₂) = accepted t₁ + accepted t₂ := by
  rw [accepted, issued_append, List.countP_append]
  rfl

abbrev Plan := List (Command × Bool)

def Pass (plan : Plan) (xs : List (Command × ℤ)) : Prop :=
  List.Forall₂ (fun p x => x.1 = p.1 ∧ (p.2 = true → x.2 = 0)) plan xs

inductive Outcome (plan : Plan) : List (Command × ℤ) → ℤ → Prop
  | pass {xs : List (Command × ℤ)} (h : Pass plan xs) : Outcome plan xs 0
  | stop {before after : Plan} {c : Command} {xs : List (Command × ℤ)} {rc : ℤ}
      (hplan : plan = before ++ (c, true) :: after) (h : Pass before xs) (hrc : rc ≠ 0) :
      Outcome plan (xs ++ [(c, rc)]) rc

theorem pass_nil : Pass [] [] := .nil

theorem Pass.append {plan plan' : Plan} {xs ys : List (Command × ℤ)} (h : Pass plan xs)
    (h' : Pass plan' ys) : Pass (plan ++ plan') (xs ++ ys) := List.rel_append h h'

theorem Pass.map_fst {plan : Plan} {xs : List (Command × ℤ)} (h : Pass plan xs) :
    xs.map Prod.fst = plan.map Prod.fst := by
  induction h with
  | nil => rfl
  | cons hx _ ih => rw [List.map_cons, List.map_cons, hx.1, ih]

theorem Outcome.map_fst_prefix {plan : Plan} {xs : List (Command × ℤ)} {rc : ℤ} (h : Outcome plan xs rc) :
    xs.map Prod.fst <+: plan.map Prod.fst := by
  cases h with
  | pass h =>
    rw [h.map_fst]
  | @stop before after c xs _ hplan h _ =>
    rw [hplan, List.map_append, List.map_append, h.map_fst]
    exact (List.prefix_append_right_inj _).mpr ⟨after.map Prod.fst, rfl⟩

theorem Outcome.of_zero {plan : Plan} {xs : List (Command × ℤ)} (h : Outcome plan xs 0) : Pass plan xs := by
  cases h with
  | pass h => exact h
  | stop _ _ hrc => exact absurd rfl hrc

theorem Pass.then {plan plan' : Plan} {xs ys : List (Command × ℤ)} {rc : ℤ} (h : Pass plan xs)
    (h' : Outcome plan' ys rc) : Outcome (plan ++ plan') (xs ++ ys) rc := by
  cases h' with
  | pass h' => exact .pass (h.append h')
  | stop hplan h' hrc =>
    rw [← List.append_assoc]
    exact .stop (by rw [hplan, List.append_assoc]) (h.append h') hrc

theorem Outcome.cut {plan : Plan} {xs : List (Command × ℤ)} {rc : ℤ} (h : Outcome plan xs rc)
    (hrc : rc ≠ 0) (plan' : Plan) : Outcome (plan ++ plan') xs rc := by
  cases h with
  | pass _ => exact absurd rfl hrc
  | @stop before after c xs _ hplan h' _ =>
    have hplan' : plan ++ plan' = before ++ (c, true) :: (after ++ plan') := by
      rw [hplan, List.append_assoc, List.cons_append]
    exact .stop hplan' h' hrc

/-- The program issues the commands of the plan until one fails whose code is looked at. `Q`
relates its result to the code. -/
def Tries {α : Type} (plan : Plan) (p : Nvme α) (Q : ℤ → α → Prop) : Prop :=
  ∀ t a, Traces p t a → scheduled t = accepted t ∧ ∃ rc, Outcome plan (issued t) rc ∧ Q rc a

section Tries
variable {α β : Type} {plan plan' : Plan} {p : Nvme α} {Q : ℤ → α → Prop} {R : ℤ → β → Prop}

theorem tries_pure {a : α} (h : Q 0 a) : Tries [] (pure a) Q := by
  intro t b ht
  obtain ⟨rfl, rfl⟩ := traces_pure.mp ht
  exact ⟨rfl, 0, .pass pass_nil, h⟩

theorem Tries.bind {f : α → Nvme β} (hp : Tries plan p Q)
    (hpass : ∀ a, Q 0 a → Tries plan' (f a) R)
    (hstop : ∀ rc a, rc ≠ 0 → Q rc a → ∃ b, f a = pure b ∧ R rc b) :
    Tries (plan ++ plan') (p >>= f) R := by
  intro t b ht
  obtain ⟨t₁, t₂, a, rfl, h₁, h₂⟩ := traces_bind.mp ht
  obtain ⟨hs₁, rc, hout, hQ⟩ := hp t₁ a h₁
  by_cases hrc : rc = 0
  · subst hrc
    obtain ⟨hs₂, rc', hout', hR⟩ := hpass a hQ t₂ b h₂
    refine ⟨by rw [scheduled_append, accepted_append, hs₁, hs₂], rc', ?_, hR⟩
    rw [issued_append]
    exact hout.of_zero.then hout'
  · obtain ⟨b', hf, hR⟩ := hstop rc a hrc hQ
    rw [hf] at h₂
    obtain ⟨rfl, rfl⟩ := traces_pure.mp h₂
    rw [List.append_nil]
    exact ⟨hs₁, rc, hout.cut hrc plan', hR⟩

theorem Tries.mono {Q' : ℤ → α → Prop} (h : Tries plan p Q) (hQ : ∀ rc a, Q rc a → Q' rc a) :
    Tries plan p Q' := by
  intro t a ht
  obtain ⟨hs, rc, hout, ha⟩ := h t a ht
  exact ⟨hs, rc, hout, hQ rc a ha⟩

theorem tries_pollAll (raid : NvmeRaid n) : Tries [] (pollAll raid) fun rc _ => rc = 0 := by
  have hlist : ∀ l : List (Fin n), Tries [] (l.forM fun i => process (raid.ns i)) fun rc _ => rc = 0 := by
    intro l
    induction l with
    | nil => exact tries_pure rfl
    | cons i l ih =>
      have hone : Tries [] (process (raid.ns i)) fun rc _ => rc = 0 := by
        intro t a ht
        obtain rfl := traces_ask.mp ht
        exact ⟨rfl, 0, .pass pass_nil, rfl⟩
      exact hone.bind (fun _ _ => ih) fun _ _ hrc h => absurd h hrc
  exact hlist _

theorem Tries.pollAll (raid : NvmeRaid n) (h : Tries plan p Q) :
    Tries plan (PcapReplay.pollAll raid >>= fun _ => p) Q :=
  (tries_pollAll raid).bind (fun _ _ => h) fun _ _ hrc hz => absurd hz hrc

theorem Tries.cmd {onError : ℤ → Nvme α} (c : Command) (h : Tries plan p Q)
    (herror : ∀ rc, rc ≠ 0 → ∃ a, onError rc = pure a ∧ Q rc a) :
    Tries ((c, true) :: plan) (PcapReplay.cmd c >>= fun rc => if rc ≠ 0 then onError rc
      else schedule >>= fun _ => p) Q := by
  intro t a ht
  obtain ⟨t₁, t₂, rc, rfl, h₁, h₂⟩ := traces_bind.mp ht
  obtain rfl := traces_ask.mp h₁
  by_cases hrc : rc = 0
  · subst hrc
    rw [if_neg (by simp)] at h₂
    obtain ⟨t₃, t₄, u, rfl, h₃, h₄⟩ := traces_bind.mp h₂
    obtain rfl := traces_ask.mp h₃
    obtain ⟨hs, rc', hout, hQ⟩ := h t₄ a h₄
    refine ⟨?_, rc', ?_, hQ⟩
    · have hcount : scheduled [⟨.cmd c, 0⟩] + scheduled [⟨.schedule, u⟩] =
          accepted [⟨.cmd c, 0⟩] + accepted [⟨.schedule, u⟩] := rfl
      rw [scheduled_append, scheduled_append, accepted_append, accepted_append, hs, ← Nat.add_assoc,
        ← Nat.add_assoc, hcount]
    · have hone : Pass [(c, true)] [(c, 0)] := .cons ⟨rfl, fun _ => rfl⟩ .nil
      exact hone.then hout
  · obtain ⟨a', hpure, hQ⟩ := herror rc hrc
    rw [if_pos hrc, hpure] at h₂
    obtain ⟨rfl, rfl⟩ := traces_pure.mp h₂
    refine ⟨?_, rc, ?_, hQ⟩
    · have hnone : accepted [⟨.cmd c, rc⟩] = 0 := by
        have hdec : decide (rc = 0) = false := decide_eq_false hrc
        simp [accepted, issued, issuedCmd, hdec]
      exact hnone.symm
    · have hstop : Outcome ((c, true) :: plan) ([] ++ [(c, rc)]) rc := .stop rfl pass_nil hrc
      exact hstop

theorem Tries.next {p q : Nvme ℤ} (hp : Tries plan p fun rc a => a = rc)
    (hq : Tries plan' q fun rc a => a = rc) :
    Tries (plan ++ plan') (p >>= fun rc => if rc ≠ 0 then pure rc else q) fun rc a => a = rc := by
  apply hp.bind
  · rintro a rfl
    rwa [if_neg (by simp)]
  · rintro rc a hrc rfl
    exact ⟨a, if_pos hrc, rfl⟩

theorem Tries.drop {c : Command} {q : Nvme β} {p : Nvme ℤ} (hp : Tries [(c, true)] p fun rc a => a = rc)
    (hq : Tries plan q R) : Tries ((c, false) :: plan) (p >>= fun _ => q) R := by
  intro t b ht
  obtain ⟨t₁, t₂, a, rfl, h₁, h₂⟩ := traces_bind.mp ht
  obtain ⟨hs₁, rc, hout, _⟩ := hp t₁ a h₁
  obtain ⟨hs₂, rc', hout', hR⟩ := hq t₂ b h₂
  refine ⟨by rw [scheduled_append, accepted_append, hs₁, hs₂], rc', ?_, hR⟩
  have hone : Pass [(c, false)] (issued t₁) := by
    generalize issued t₁ = xs at hout
    cases hout with
    | pass h =>
      cases h with
      | cons hx hnil =>
        cases hnil
        exact .cons ⟨hx.1, fun h => absurd h (by simp)⟩ .nil
    | @stop before _ _ _ _ hplan h _ =>
      cases before with
      | nil =>
        obtain ⟨hhead, _⟩ := List.cons.inj hplan
        obtain ⟨rfl, _⟩ := Prod.mk.inj hhead
        cases h
        exact .cons ⟨rfl, fun h => absurd h (by simp)⟩ .nil
      | cons _ _ => simp at hplan
  rw [issued_append]
  exact hone.then hout'

end Tries

section transfer
variable [NeZero n] (dir : Dir) (raid : NvmeRaid n)

def loopPlan (payload : Ptr) (lba : UInt64) : ℕ → Plan
  | 0 => []
  | m + 1 => (sioCmd dir raid payload lba (UInt32.ofNat superSectorNum), true) ::
      loopPlan (payload.add (superSectorNum * sectorLength)) (lba + UInt64.ofNat superSectorNum) m

def tailPlan (payload : Ptr) (lba : UInt64) (count : ℕ) : Plan :=
  if count % superSectorNum = 0 then []
  else
    [(sioCmd dir raid (payload.add (count / superSectorNum * superSectorNum * sectorLength))
      (lba + UInt64.ofNat (count / superSectorNum * superSectorNum))
      (UInt32.ofNat (count % superSectorNum)), false)]

def alignedPlan (payload : Ptr) (lba : UInt64) (count : ℕ) : Plan :=
  if count ≤ superSectorNum then [(sioCmd dir raid payload lba (UInt32.ofNat count), true)]
  else loopPlan dir raid payload lba (count / superSectorNum) ++ tailPlan dir raid payload lba count

def transferPlan (payload : Ptr) (lba : UInt64) (count : ℕ) : Plan :=
  if lba.toNat % superSectorNum = 0 then alignedPlan dir raid payload lba count
  else if count ≤ toBoundary lba then [(sioCmd dir raid payload lba (UInt32.ofNat count), true)]
  else (sioCmd dir raid payload lba (UInt32.ofNat (toBoundary lba)), true) ::
    alignedPlan dir raid (payload.add (toBoundary lba * sectorLength))
      (lba + UInt64.ofNat (toBoundary lba)) (count - toBoundary lba)

theorem toBoundary_of_aligned {lba : UInt64} (h : lba.toNat % superSectorNum = 0) :
    toBoundary lba = superSectorNum := by
  rw [toBoundary, h, Nat.sub_zero]

theorem add_toBoundary_aligned (lba : UInt64) :
    (lba + UInt64.ofNat (toBoundary lba)).toNat % superSectorNum = 0 := by
  have hlt := lba.toNat_lt
  rw [UInt64.toNat_add, UInt64.toNat_ofNat', toBoundary]
  simp only [superSectorNum_eq]
  omega

theorem add_superSectors_aligned {lba : UInt64} (h : lba.toNat % superSectorNum = 0) (m : ℕ) :
    (lba + UInt64.ofNat (m * superSectorNum)).toNat % superSectorNum = 0 := by
  rw [UInt64.toNat_add, UInt64.toNat_ofNat']
  simp only [superSectorNum_eq] at *
  omega

theorem transferPlan_of_le (payload : Ptr) (lba : UInt64) {count : ℕ} (h : count ≤ toBoundary lba) :
    transferPlan dir raid payload lba count =
      [(sioCmd dir raid payload lba (UInt32.ofNat count), true)] := by
  unfold transferPlan
  split_ifs with haligned
  · rw [toBoundary_of_aligned haligned] at h
    exact if_pos h
  · rfl

def LoopResult (payload : Ptr) (lba : UInt64) (count : ℕ) (rc : ℤ)
    (r : Except ℤ (Ptr × UInt64 × { c : UInt32 // c.toNat < superSectorNum })) : Prop :=
  rc ≠ 0 ∧ r = .error rc ∨ rc = 0 ∧ ∃ rest : { c : UInt32 // c.toNat < superSectorNum },
    rest.val = UInt32.ofNat (count % superSectorNum) ∧
    r = .ok (payload.add (count / superSectorNum * superSectorNum * sectorLength),
      lba + UInt64.ofNat (count / superSectorNum * superSectorNum), rest)

omit [NeZero n] in
theorem LoopResult.step {payload : Ptr} {lba : UInt64} {count : ℕ} {rc : ℤ}
    {r : Except ℤ (Ptr × UInt64 × { c : UInt32 // c.toNat < superSectorNum })}
    (h : superSectorNum ≤ count)
    (hr : LoopResult (payload.add (superSectorNum * sectorLength)) (lba + UInt64.ofNat superSectorNum)
      (count - superSectorNum) rc r) : LoopResult payload lba count rc r := by
  have hpos : 0 < superSectorNum := by decide
  have hdiv : count / superSectorNum = (count - superSectorNum) / superSectorNum + 1 :=
    Nat.div_eq_sub_div hpos h
  have hmod : count % superSectorNum = (count - superSectorNum) % superSectorNum := Nat.mod_eq_sub_mod h
  have hsum : ∀ m, superSectorNum + m * superSectorNum = (m + 1) * superSectorNum := fun m => by
    rw [Nat.add_mul, Nat.one_mul, Nat.add_comm]
  unfold LoopResult at hr ⊢
  rwa [Ptr.add_add, ← Nat.add_mul, UInt64.add_assoc, ← UInt64.ofNat_add, hsum, ← hdiv, ← hmod] at hr

omit [NeZero n] in
theorem superSectors_sub {lbaCount : UInt32} (h : superSectorNum ≤ lbaCount.toNat) :
    lbaCount.toNat / superSectorNum =
      (lbaCount - UInt32.ofNat superSectorNum).toNat / superSectorNum + 1 := by
  rw [toNat_sub_ofNat h]
  exact Nat.div_eq_sub_div (by decide) h

theorem tries_sioLoop (k : ℕ) (payload : Ptr) (lba : UInt64) (lbaCount : UInt32) :
    Tries (loopPlan dir raid payload lba (lbaCount.toNat / superSectorNum))
      (sioLoop dir raid k payload lba lbaCount) (LoopResult payload lba lbaCount.toNat) := by
  induction k, payload, lba, lbaCount using sioLoop.induct with
  | case1 k payload lba lbaCount h ih₀ ih₁ =>
    have hcount : (lbaCount - UInt32.ofNat superSectorNum).toNat = lbaCount.toNat - superSectorNum :=
      toNat_sub_ofNat h
    have hdiv := superSectors_sub h
    dsimp only at ih₀ ih₁
    rw [hcount] at ih₀ ih₁ hdiv
    rw [sioLoop, dif_pos h, hdiv]
    apply Tries.cmd
    · -- the check for completions issues nothing
      split_ifs
      · exact (ih₀.mono fun _ _ hr => hr.step h).pollAll raid
      · exact ih₁.mono fun _ _ hr => hr.step h
    · exact fun rc hrc => ⟨.error rc, rfl, Or.inl ⟨hrc, rfl⟩⟩
  | case2 k payload lba lbaCount h =>
    have hlt := Nat.not_le.mp h
    rw [sioLoop, dif_neg h, Nat.div_eq_of_lt hlt]
    apply tries_pure
    refine Or.inr ⟨rfl, ⟨lbaCount, hlt⟩, ?_, ?_⟩
    · rw [Nat.mod_eq_of_lt hlt, UInt32.ofNat_toNat]
    · have hzero : lba + UInt64.ofNat 0 = lba := UInt64.add_zero lba
      rw [Nat.div_eq_of_lt hlt, Nat.zero_mul, Nat.zero_mul, hzero]
      rfl

theorem tries_sioTransfer (payload : Ptr) (lba : UInt64) (lbaCount : UInt32) :
    Tries (transferPlan dir raid payload lba lbaCount.toNat) (sioTransfer dir raid payload lba lbaCount)
      fun rc a => a = rc := by
  have hzero : Tries [] (pure (0 : ℤ)) fun rc a => a = rc := tries_pure rfl
  have hend := hzero.pollAll raid
  induction payload, lba, lbaCount using sioTransfer.induct with
  | case1 payload lba lbaCount hfit =>
    rw [sioTransfer, dif_pos hfit, transferPlan_of_le dir raid payload lba hfit, UInt32.ofNat_toNat]
    exact Tries.cmd _ hend fun rc _ => ⟨rc, rfl, rfl⟩
  | case2 payload lba lbaCount hfit hhead ih₁ ih₂ =>
    have hto := toBoundary_le lba
    have hhd : (UInt32.ofNat (toBoundary lba)).toNat = toBoundary lba :=
      UInt32.toNat_ofNat_of_lt' (Nat.lt_of_le_of_lt hto (by decide))
    have hrest : (lbaCount - UInt32.ofNat (toBoundary lba)).toNat = lbaCount.toNat - toBoundary lba :=
      toNat_sub_ofNat (by omega)
    rw [hhd, transferPlan_of_le dir raid payload lba le_rfl] at ih₁
    rw [hrest, transferPlan, if_pos (add_toBoundary_aligned lba)] at ih₂
    rw [sioTransfer, dif_neg hfit, dif_pos hhead, transferPlan, if_neg hhead, if_neg hfit]
    have hboth := ih₁.next (ih₂.next hend)
    rw [List.append_nil] at hboth
    exact hboth
  | case3 payload lba lbaCount hfit hhead ih =>
    rw [not_not] at hhead
    rw [toBoundary_of_aligned hhead] at hfit
    rw [sioTransfer, dif_neg (by rwa [toBoundary_of_aligned hhead]), dif_neg (not_not.mpr hhead),
      transferPlan, if_pos hhead, alignedPlan, if_neg hfit]
    apply (tries_sioLoop dir raid 0 payload lba lbaCount).bind
    · rintro a (⟨h, _⟩ | ⟨_, rest, hrest, rfl⟩)
      · exact absurd rfl h
      show Tries (tailPlan dir raid payload lba lbaCount.toNat) (if rest.val ≠ 0 then
          sioTransfer dir raid _ _ rest.val >>= fun _ => pollAll raid >>= fun _ => pure 0
        else pollAll raid >>= fun _ => pure 0) _
      have hlt : lbaCount.toNat % superSectorNum < superSectorNum := Nat.mod_lt _ (by decide)
      have hval : rest.val.toNat = lbaCount.toNat % superSectorNum := by
        rw [hrest]
        exact UInt32.toNat_ofNat_of_lt' (hlt.trans (by decide))
      have hempty : rest.val = 0 ↔ lbaCount.toNat % superSectorNum = 0 := by
        rw [← hval]
        exact UInt32.toNat_inj.symm
      unfold tailPlan
      by_cases hz : rest.val = 0
      · rw [if_neg (not_not.mpr hz), if_pos (hempty.mp hz)]
        exact hend
      · rw [if_pos hz, if_neg fun h => hz (hempty.mpr h)]
        have htail := ih (payload.add (lbaCount.toNat / superSectorNum * superSectorNum * sectorLength))
          (lba + UInt64.ofNat (lbaCount.toNat / superSectorNum * superSectorNum)) rest
        rw [transferPlan_of_le, hval] at htail
        · exact htail.drop hend
        · rw [toBoundary_of_aligned (add_superSectors_aligned hhead _), hval]
          exact hlt.le
    · rintro rc a hrc (⟨_, rfl⟩ | ⟨hz, _⟩)
      · exact ⟨rc, rfl, rfl⟩
      · exact absurd hz hrc

end transfer
end PcapReplay
