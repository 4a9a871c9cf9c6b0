import PcapReplay.Sio.Attempts

/-! Which rejected commands a raid transfer reports. -/

namespace PcapReplay
open Interaction Prog
variable {n : ℕ}

def Answered (ans : ℕ → ℤ) (t : Trace) : Prop :=
  (issued t).map Prod.snd = (List.range (issued t).length).map ans

theorem answered_nil (ans : ℕ → ℤ) : Answered ans [] := rfl

theorem Answered.snoc {ans : ℕ → ℤ} {t : Trace} (h : Answered ans t) {e : (o : Op) × Ans o}
    (he : ∀ c rc, issuedCmd e = some (c, rc) → rc = ans (issued t).length) : Answered ans (t ++ [e]) := by
  unfold Answered at h ⊢
  rw [issued_append]
  cases hcmd : issuedCmd e with
  | none =>
    have hone : issued [e] = [] := List.filterMap_cons_none hcmd
    rw [hone, List.append_nil]
    exact h
  | some x =>
    have hone : issued [e] = [x] := List.filterMap_cons_some hcmd
    have hcode := he x.1 x.2 hcmd
    rw [hone, List.map_append, h, List.length_append, List.length_singleton, List.range_succ, List.map_append,
      List.map_singleton, List.map_singleton, hcode]

theorem exists_answered {α : Type} (ans : ℕ → ℤ) (others : (o : Op) → Ans o) (p : Nvme α) :
    ∃ t a, Traces p t a ∧ Answered ans t ∧ ∀ e ∈ t, issuedCmd e = none → e.2 = others e.1 := by
  obtain ⟨t, a, ht, hchosen⟩ := exists_traces (answering ans others) p
  refine ⟨t, a, ht, ?_, fun e he hnone => ?_⟩
  · have hprefix : ∀ t₁ t₂, t = t₁ ++ t₂ → Answered ans t₁ := by
      intro t₁
      induction t₁ using List.reverseRecOn with
      | nil => exact fun _ _ => answered_nil ans
      | append_singleton t₁ e ih =>
        intro t₂ h
        rw [List.append_assoc, List.singleton_append] at h
        apply (ih _ h).snoc
        intro c rc hcmd
        obtain ⟨o, r⟩ := e
        have hr := hchosen t₁ o r t₂ h
        cases o with
        | cmd c' =>
          obtain ⟨_, rfl⟩ := Prod.mk.inj (Option.some.inj hcmd)
          exact hr
        | _ => simp [issuedCmd] at hcmd
    exact hprefix t [] (List.append_nil t).symm
  · obtain ⟨t₁, t₂, h⟩ := List.append_of_mem he
    obtain ⟨o, r⟩ := e
    have hr := hchosen t₁ o r t₂ h
    cases o with
    | cmd c => simp [issuedCmd] at hnone
    | _ => exact hr

def Swallowed (looked : List Bool) (ans : ℕ → ℤ) : Prop :=
  (∀ j, looked[j]? = some true → ans j = 0) ∧ ∃ j, looked[j]? = some false ∧ ans j ≠ 0

theorem Answered.getElem? {ans : ℕ → ℤ} {t : Trace} (h : Answered ans t) {j : ℕ}
    (hj : j < (issued t).length) : ∃ c, (issued t)[j]? = some (c, ans j) := by
  have hcode : ((issued t).map Prod.snd)[j]? = some (ans j) := by
    rw [h, List.getElem?_map, List.getElem?_range hj]
    rfl
  rw [List.getElem?_map] at hcode
  obtain ⟨⟨c, rc⟩, hx, rfl⟩ := Option.map_eq_some_iff.mp hcode
  exact ⟨c, hx⟩

theorem Pass.getElem? {plan : Plan} {xs : List (Command × ℤ)} (h : Pass plan xs) {j : ℕ} {l : Bool}
    (hl : (plan.map Prod.snd)[j]? = some l) :
    ∃ c rc, plan[j]? = some (c, l) ∧ xs[j]? = some (c, rc) ∧ (l = true → rc = 0) := by
  induction h generalizing j with
  | nil => simp at hl
  | @cons p x plan xs hx _ ih =>
    cases j with
    | zero =>
      obtain ⟨c, rc⟩ := x
      obtain ⟨c', l'⟩ := p
      obtain ⟨rfl, hzero⟩ := hx
      obtain rfl := Option.some.inj hl
      exact ⟨c, rc, rfl, rfl, hzero⟩
    | succ j => exact ih hl

section outcome
variable {plan : Plan} {ans : ℕ → ℤ} {t : Trace} (hans : Answered ans t)
include hans

theorem Pass.codes (h : Pass plan (issued t)) {j : ℕ} {l : Bool}
    (hl : (plan.map Prod.snd)[j]? = some l) :
    ∃ c, plan[j]? = some (c, l) ∧ (c, ans j) ∈ issued t ∧ (l = true → ans j = 0) := by
  obtain ⟨c, rc, hp, hx, hzero⟩ := h.getElem? hl
  obtain ⟨hlt, _⟩ := List.getElem?_eq_some_iff.mp hx
  obtain ⟨c', hx'⟩ := hans.getElem? hlt
  obtain ⟨rfl, rfl⟩ := Prod.mk.inj (Option.some.inj (hx.symm.trans hx'))
  exact ⟨c, hp, List.mem_of_getElem? hx, hzero⟩

theorem Pass.all_accepted_iff (h : Pass plan (issued t)) :
    (∀ x ∈ issued t, x.2 = 0) ↔ ¬ Swallowed (plan.map Prod.snd) ans := by
  constructor
  · rintro hall ⟨_, j, hl, hne⟩
    obtain ⟨c, _, hmem, _⟩ := h.codes hans hl
    exact hne (hall _ hmem)
  · intro hsw x hx
    obtain ⟨j, hj, rfl⟩ := List.getElem_of_mem hx
    obtain ⟨l, hl⟩ : ∃ l, (plan.map Prod.snd)[j]? = some l :=
      ⟨_, List.getElem?_eq_getElem (by rwa [List.length_map, h.length_eq])⟩
    obtain ⟨c, hcode⟩ := hans.getElem? hj
    rw [List.getElem?_eq_getElem hj] at hcode
    rw [Option.some.inj hcode]
    cases l with
    | true => exact (h.codes hans hl).choose_spec.2.2 rfl
    | false =>
      by_contra hne
      exact hsw ⟨fun i hi => (h.codes hans hi).choose_spec.2.2 rfl, j, hl, hne⟩

theorem Outcome.zero_of_looked {rc : ℤ} (h : Outcome plan (issued t) rc)
    (hlooked : ∀ j, (plan.map Prod.snd)[j]? = some true → ans j = 0) : rc = 0 := by
  generalize hxs : issued t = xs at h
  cases h with
  | pass _ => rfl
  | @stop before after c xs _ hplan hpass _ =>
    have hlen := hpass.length_eq
    have hlook : (plan.map Prod.snd)[xs.length]? = some true := by
      rw [hplan, List.map_append, List.getElem?_append_right (by simp [hlen]), List.length_map, hlen,
        Nat.sub_self]
      rfl
    have hj : xs.length < (issued t).length := by
      rw [hxs, List.length_append]
      exact Nat.lt_succ_self _
    obtain ⟨c', hcode⟩ := hans.getElem? hj
    rw [hxs, List.getElem?_append_right le_rfl, Nat.sub_self] at hcode
    obtain ⟨_, hans'⟩ := Prod.mk.inj (Option.some.inj hcode)
    exact hans'.trans (hlooked _ hlook)

theorem Outcome.code_iff {rc : ℤ} (h : Outcome plan (issued t) rc) :
    (rc = 0 ↔ ∀ x ∈ issued t, x.2 = 0) ↔ ¬ Swallowed (plan.map Prod.snd) ans := by
  by_cases hrc : rc = 0
  · subst hrc
    have hall := h.of_zero.all_accepted_iff hans
    rw [← hall]
    exact ⟨fun hcode => hcode.mp rfl, fun hzero => iff_of_true rfl hzero⟩
  · apply iff_of_true
    · refine iff_of_false hrc fun hall => ?_
      generalize issued t = xs at h hall
      cases h with
      | pass _ => exact hrc rfl
      | @stop _ _ c xs _ _ _ _ => exact hrc (hall (c, rc) (by simp))
    · exact fun hsw => hrc (h.zero_of_looked hans hsw.1)

end outcome

structure Reported (t : Trace) (rc : ℤ) : Prop where
  code : rc = 0 ↔ ∀ x ∈ issued t, x.2 = 0
  last : ∀ before x after, issued t = before ++ x :: after → x.2 ≠ 0 → after = []
  tasks : scheduled t = accepted t

def ReportsErrors (ans : ℕ → ℤ) (p : Nvme ℤ) : Prop :=
  ∀ t rc, Traces p t rc → Answered ans t → Reported t rc

def alignedLooked (count : ℕ) : List Bool :=
  if count ≤ superSectorNum then [true]
  else List.replicate (count / superSectorNum) true ++ if count % superSectorNum = 0 then [] else [false]

def transferLooked (lba : UInt64) (count : ℕ) : List Bool :=
  if lba.toNat % superSectorNum = 0 then alignedLooked count
  else if count ≤ toBoundary lba then [true]
  else true :: alignedLooked (count - toBoundary lba)

section transfer
variable [NeZero n] (dir : Dir) (raid : NvmeRaid n) (payload : Ptr) (lba : UInt64)

theorem map_loopPlan (m : ℕ) : (loopPlan dir raid payload lba m).map Prod.snd = List.replicate m true := by
  induction m generalizing payload lba with
  | zero => rfl
  | succ m ih =>
    rw [loopPlan, List.map_cons, ih]
    rfl

theorem map_alignedPlan (count : ℕ) :
    (alignedPlan dir raid payload lba count).map Prod.snd = alignedLooked count := by
  unfold alignedPlan alignedLooked tailPlan
  split_ifs
  · rfl
  · rw [List.map_append, map_loopPlan]
    rfl
  · rw [List.map_append, map_loopPlan]
    rfl

theorem map_transferPlan (count : ℕ) :
    (transferPlan dir raid payload lba count).map Prod.snd = transferLooked lba count := by
  unfold transferPlan transferLooked
  split_ifs
  · exact map_alignedPlan dir raid payload lba count
  · rfl
  · rw [List.map_cons, map_alignedPlan]

omit [NeZero n] in
theorem alignedLooked_eq (count : ℕ) :
    ∃ m drop, alignedLooked count = List.replicate m true ++ drop ∧ (drop = [] ∨ drop = [false]) := by
  unfold alignedLooked
  split_ifs
  · exact ⟨1, [], rfl, Or.inl rfl⟩
  · exact ⟨_, [], rfl, Or.inl rfl⟩
  · exact ⟨_, [false], rfl, Or.inr rfl⟩

omit [NeZero n] in
theorem transferLooked_eq (count : ℕ) :
    ∃ m drop, transferLooked lba count = List.replicate m true ++ drop ∧ (drop = [] ∨ drop = [false]) := by
  unfold transferLooked
  split_ifs
  · exact alignedLooked_eq count
  · exact ⟨1, [], rfl, Or.inl rfl⟩
  · obtain ⟨m, drop, heq, hdrop⟩ := alignedLooked_eq (count - toBoundary lba)
    exact ⟨m + 1, drop, by rw [heq, List.replicate_succ, List.cons_append], hdrop⟩

omit [NeZero n] in
theorem all_looked_before {m : ℕ} {drop before after : List Bool} (hdrop : drop = [] ∨ drop = [false])
    (h : List.replicate m true ++ drop = before ++ true :: after) : ∀ l ∈ before, l = true := by
  induction before generalizing m with
  | nil => simp
  | cons b before ih =>
    cases m with
    | zero => rcases hdrop with rfl | rfl <;> simp at h
    | succ m =>
      rw [List.replicate_succ, List.cons_append, List.cons_append] at h
      obtain ⟨rfl, htail⟩ := List.cons.inj h
      intro l hl
      rcases List.mem_cons.mp hl with rfl | hl
      · rfl
      · exact ih htail l hl

omit [NeZero n] in
theorem Pass.all_zero {plan : Plan} {xs : List (Command × ℤ)} (h : Pass plan xs)
    (hplan : ∀ p ∈ plan, p.2 = true) : ∀ x ∈ xs, x.2 = 0 := by
  induction h with
  | nil => simp
  | @cons p x plan xs hx _ ih =>
    intro y hy
    rcases List.mem_cons.mp hy with rfl | hy
    · exact hx.2 (hplan p List.mem_cons_self)
    · exact ih (fun q hq => hplan q (List.mem_cons_of_mem p hq)) y hy

omit [NeZero n] in
theorem Outcome.last {plan : Plan} {xs : List (Command × ℤ)} {rc : ℤ} (h : Outcome plan xs rc) {m : ℕ}
    {drop : List Bool} (hplan : plan.map Prod.snd = List.replicate m true ++ drop)
    (hdrop : drop = [] ∨ drop = [false]) {before after : List (Command × ℤ)} {x : Command × ℤ}
    (hxs : xs = before ++ x :: after) (hx : x.2 ≠ 0) : after = [] := by
  cases h with
  | pass h =>
    have hlen := h.length_eq
    have hsize := congrArg List.length hplan
    rw [List.length_map, List.length_append, List.length_replicate] at hsize
    have hxlen := congrArg List.length hxs
    rw [List.length_append, List.length_cons] at hxlen
    obtain ⟨l, hl⟩ : ∃ l, (plan.map Prod.snd)[before.length]? = some l :=
      ⟨_, List.getElem?_eq_getElem (by rw [List.length_map]; omega)⟩
    obtain ⟨c, rc, _, hget, hzero⟩ := h.getElem? hl
    rw [hxs, List.getElem?_append_right le_rfl, Nat.sub_self] at hget
    obtain rfl : x = (c, rc) := Option.some.inj hget
    have hfar : m ≤ before.length := by
      by_contra hlt
      rw [hplan, List.getElem?_append_left (by rw [List.length_replicate]; omega),
        List.getElem?_replicate, if_pos (Nat.not_le.mp hlt)] at hl
      exact hx (hzero (Option.some.inj hl).symm)
    have hone : drop.length ≤ 1 := by rcases hdrop with rfl | rfl <;> simp
    exact List.length_eq_zero_iff.mp (by omega)
  | @stop pre post c ys _ hpre hpass hrc =>
    have hzero : ∀ y ∈ ys, y.2 = 0 := by
      apply hpass.all_zero
      intro p hp
      rw [hpre, List.map_append, List.map_cons] at hplan
      exact all_looked_before hdrop hplan.symm p.2 (List.mem_map_of_mem hp)
    rcases List.eq_nil_or_concat after with rfl | ⟨after', y, rfl⟩
    · rfl
    · rw [List.concat_eq_append, ← List.cons_append, ← List.append_assoc] at hxs
      obtain ⟨rfl, _⟩ := List.append_inj' hxs rfl
      exact absurd (hzero x (by simp)) hx

theorem sioTransfer_reports_iff (lbaCount : UInt32) (ans : ℕ → ℤ) :
    ReportsErrors ans (sioTransfer dir raid payload lba lbaCount) ↔
      ¬ Swallowed (transferLooked lba lbaCount.toNat) ans := by
  have htries := tries_sioTransfer dir raid payload lba lbaCount
  have hlooked := map_transferPlan dir raid payload lba lbaCount.toNat
  constructor
  · intro h
    obtain ⟨t, rc, ht, hans, _⟩ := exists_answered ans (fun _ => default)
      (sioTransfer dir raid payload lba lbaCount)
    obtain ⟨_, _, hout, rfl⟩ := htries t rc ht
    have hcode := (h t rc ht hans).code
    rwa [hout.code_iff hans, hlooked] at hcode
  · intro hsw t rc ht hans
    obtain ⟨htasks, _, hout, rfl⟩ := htries t rc ht
    obtain ⟨m, drop, heq, hdrop⟩ := transferLooked_eq lba lbaCount.toNat
    refine ⟨(hout.code_iff hans).mpr (by rwa [hlooked]), fun before x after hxs hx => ?_, htasks⟩
    exact hout.last (hlooked.trans heq) hdrop hxs hx

end transfer
end PcapReplay
