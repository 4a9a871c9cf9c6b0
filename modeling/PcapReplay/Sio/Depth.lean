import PcapReplay.Sio.Errors
import PcapReplay.Sio.Prompt

/-! How many commands of a raid transfer are outstanding on the queue of a disk. -/

namespace PcapReplay
open Interaction Prog Striping Dma
variable {n : ℕ}

/-- How many commands are outstanding on queue `q` behind an operation, when a check for
completions leaves nothing on its queue. -/
def queuedAfter (q k : ℕ) : (o : Op) × Ans o → ℕ
  | ⟨.cmd c, rc⟩ => if c.ns = q ∧ rc = 0 then k + 1 else k
  | ⟨.process ns, _⟩ => if ns = q then 0 else k
  | _ => k

def outstanding (q k : ℕ) (t : Trace) : ℕ := t.foldl (queuedAfter q) k

theorem outstanding_append (q k : ℕ) (t₁ t₂ : Trace) :
    outstanding q k (t₁ ++ t₂) = outstanding q (outstanding q k t₁) t₂ := List.foldl_append

def DepthBounded {α : Type} (raid : NvmeRaid n) (p : Nvme α) : Prop :=
  ∀ t a, Traces p t a → ∀ t₁ t₂, t = t₁ ++ t₂ → ∀ i, outstanding (raid.ns i) 0 t₁ ≤ 128

section prompt
variable {π : Policy} {w w' : World}

theorem count_queues_step {q : ℕ} {o : Op} {r : Ans o} (h : World.promptStep π o w r w') :
    w'.queues.count q = queuedAfter q (w.queues.count q) ⟨o, r⟩ := by
  obtain ⟨⟨b, hdrift, hstep⟩, hq⟩ := h
  cases o with
  | cmd c =>
    have hq' : w'.queues = c.ns ::ₘ w.queues := hq
    rcases hstep with ⟨hrc, _⟩ | ⟨_, _, rfl⟩
    · rw [hq', Multiset.count_cons]
      by_cases hns : c.ns = q
      · rw [if_pos hns.symm]
        exact (if_pos ⟨hns, hrc⟩).symm
      · rw [if_neg fun h => hns h.symm]
        exact (if_neg fun h => hns h.1).symm
    · -- the queues of a prompt machine change with every command, and a rejected one changes nothing
      have hsame : World.queues { w with bus := b } = w.queues := hdrift.map_queue
      have hcard := congrArg Multiset.card (hq'.symm.trans hsame)
      rw [Multiset.card_cons] at hcard
      omega
  | process ns =>
    have hq' : w'.queues = w.queues.filter (· ≠ ns) := hq
    rw [hq', Multiset.count_filter]
    by_cases hns : ns = q
    · rw [if_neg fun h => h hns.symm]
      exact (if_pos hns).symm
    · rw [if_pos fun h => hns h.symm]
      exact (if_neg hns).symm
  | _ => exact congrArg (Multiset.count q) hq

theorem count_queues {q : ℕ} {t : Trace} (h : Chain (World.promptStep π) t w w') :
    w'.queues.count q = outstanding q (w.queues.count q) t := by
  induction t generalizing w with
  | nil =>
    obtain rfl : w' = w := h
    rfl
  | cons e t ih =>
    obtain ⟨w₁, hstep, hrest⟩ := h
    rw [ih hrest, count_queues_step hstep]
    rfl

theorem DepthBounded.queues {α : Type} {raid : NvmeRaid n} {p : Nvme α} (hp : DepthBounded raid p)
    (hidle : w.flights = 0) {t₁ t₂ : Trace} {a : α} (ht : Traces p (t₁ ++ t₂) a)
    (hchain : Chain (World.promptStep π) t₁ w w') (i : Fin n) : w'.queues.count (raid.ns i) ≤ 128 := by
  rw [count_queues hchain, queues_eq_zero.mpr hidle, Multiset.count_zero]
  exact hp _ a ht t₁ t₂ rfl i

end prompt

theorem outstanding_le (q k : ℕ) (t : Trace) :
    outstanding q k t ≤ k + ((issued t).map fun x => x.1.ns).count q := by
  induction t generalizing k with
  | nil => exact Nat.le_add_right _ _
  | cons e t ih =>
    apply (ih (queuedAfter q k e)).trans
    obtain ⟨o, r⟩ := e
    cases o with
    | cmd c =>
      show (if c.ns = q ∧ r = 0 then k + 1 else k) + _ ≤ k + (c.ns :: (issued t).map fun x => x.1.ns).count q
      rw [List.count_cons]
      by_cases hns : c.ns = q
      · rw [if_pos (beq_iff_eq.mpr hns)]
        split_ifs <;> omega
      · rw [if_neg fun h => hns h.1]
        omega
    | process ns =>
      show (if ns = q then 0 else k) + _ ≤ k + ((issued t).map fun x => x.1.ns).count q
      split_ifs <;> omega
    | _ => exact le_rfl

theorem Tries.outstanding_le {α : Type} {plan : Plan} {p : Nvme α} {Q : ℤ → α → Prop} (h : Tries plan p Q)
    {t₁ t₂ : Trace} {a : α} (ht : Traces p (t₁ ++ t₂) a) (q : ℕ) :
    outstanding q 0 t₁ ≤ (plan.map fun p => p.1.ns).count q := by
  obtain ⟨_, rc, hout, _⟩ := h _ _ ht
  have hprefix := hout.map_fst_prefix.map Command.ns
  rw [issued_append, List.map_append, List.map_append, List.map_map, List.map_map, List.map_map] at hprefix
  have hsub := ((List.prefix_append _ _).trans hprefix).sublist
  have hle := PcapReplay.outstanding_le q 0 t₁
  rw [Nat.zero_add] at hle
  exact hle.trans (hsub.count_le q)

theorem pollAll_settles {raid : NvmeRaid n} {t : Trace} {a : Unit} (ht : Traces (pollAll raid) t a) (k : ℕ)
    (i : Fin n) : outstanding (raid.ns i) k t = 0 := by
  have hlist : ∀ (l : List (Fin n)) (t : Trace) (k : ℕ),
      Traces (l.forM fun i => process (raid.ns i)) t a → i ∈ l ∨ k = 0 →
        outstanding (raid.ns i) k t = 0 := by
    intro l
    induction l with
    | nil =>
      intro t k ht h
      obtain ⟨rfl, _⟩ := traces_pure.mp ht
      exact h.resolve_left List.not_mem_nil
    | cons j l ih =>
      intro t k ht h
      obtain ⟨t₁, t₂, _, rfl, h₁, h₂⟩ := traces_bind.mp ht
      obtain rfl := traces_ask.mp h₁
      rw [outstanding_append]
      apply ih t₂ _ h₂
      show i ∈ l ∨ (if raid.ns j = raid.ns i then 0 else k) = 0
      by_cases hj : raid.ns j = raid.ns i
      · exact Or.inr (if_pos hj)
      · rw [if_neg hj]
        rcases h with h | h
        · exact Or.inl ((List.mem_cons.mp h).resolve_left fun he => hj (by rw [he]))
        · exact Or.inr h
  exact hlist _ t k ht (Or.inl (List.mem_finRange i))

def commandNum (count : ℕ) : ℕ :=
  if count ≤ superSectorNum then 1
  else count / superSectorNum + if count % superSectorNum = 0 then 0 else 1

section disks
variable (n) [NeZero n]

def alignedDisks (lba : UInt64) (count : ℕ) : List (Fin n) :=
  (List.range (commandNum count)).map fun j => superGetdisk n (lba + UInt64.ofNat (j * superSectorNum))

def transferDisks (lba : UInt64) (count : ℕ) : List (Fin n) :=
  if lba.toNat % superSectorNum = 0 then alignedDisks n lba count
  else if count ≤ toBoundary lba then [superGetdisk n lba]
  else alignedDisks n (lba + UInt64.ofNat (toBoundary lba)) (count - toBoundary lba)

end disks

section plans
variable [NeZero n] (dir : Dir) (raid : NvmeRaid n) (payload : Ptr) (lba : UInt64)

theorem ns_loopPlan (m : ℕ) :
    (loopPlan dir raid payload lba m).map (fun p => p.1.ns) =
      (List.range m).map fun j => raid.ns (superGetdisk n (lba + UInt64.ofNat (j * superSectorNum))) := by
  induction m generalizing payload lba with
  | zero => rfl
  | succ m ih =>
    have hnext : ∀ j, lba + UInt64.ofNat superSectorNum + UInt64.ofNat (j * superSectorNum) =
        lba + UInt64.ofNat ((j + 1) * superSectorNum) := fun j => by
      rw [UInt64.add_assoc, ← UInt64.ofNat_add, Nat.succ_mul, Nat.add_comm]
    have hzero : lba + UInt64.ofNat (0 * superSectorNum) = lba := by
      rw [Nat.zero_mul]
      exact UInt64.add_zero lba
    rw [loopPlan, List.map_cons, ih, List.range_succ_eq_map, List.map_cons, List.map_map, hzero]
    simp only [hnext]
    rfl

theorem ns_alignedPlan (count : ℕ) :
    (alignedPlan dir raid payload lba count).map (fun p => p.1.ns) =
      (alignedDisks n lba count).map raid.ns := by
  have hzero : lba + UInt64.ofNat (0 * superSectorNum) = lba := by
    rw [Nat.zero_mul]
    exact UInt64.add_zero lba
  unfold alignedPlan alignedDisks commandNum tailPlan
  rw [List.map_map]
  split_ifs
  · rw [List.range_one, List.map_singleton, List.map_singleton, Function.comp, hzero]
    rfl
  · rw [List.append_nil, Nat.add_zero]
    exact ns_loopPlan dir raid payload lba _
  · rw [List.map_append, ns_loopPlan, List.range_succ, List.map_append]
    rfl

variable {dir raid payload lba}

omit [NeZero n] in
theorem count_map_ns (l : List (Fin n)) (i : Fin n) : (l.map raid.ns).count (raid.ns i) = l.count i :=
  List.count_map_of_injective l raid.ns raid.ns.injective i

theorem sioTransfer_settles {lbaCount : UInt32} (hfit : lbaCount.toNat ≤ toBoundary lba) {t : Trace}
    (ht : Traces (sioTransfer dir raid payload lba lbaCount) t 0) (i : Fin n) :
    outstanding (raid.ns i) 0 t = 0 := by
  rw [sioTransfer, dif_pos hfit] at ht
  obtain ⟨t₁, t₂, rc, rfl, h₁, h₂⟩ := traces_bind.mp ht
  by_cases hrc : rc = 0
  · rw [if_neg (not_not.mpr hrc)] at h₂
    obtain ⟨t₃, t₄, _, rfl, _, h₄⟩ := traces_bind.mp h₂
    obtain ⟨t₅, t₆, _, rfl, h₅, h₆⟩ := traces_bind.mp h₄
    obtain ⟨rfl, _⟩ := traces_pure.mp h₆
    rw [List.append_nil, outstanding_append, outstanding_append]
    exact pollAll_settles h₅ _ i
  · rw [if_pos hrc] at h₂
    exact absurd (traces_pure.mp h₂).2.symm hrc

omit [NeZero n] in
theorem depthBounded_of_plan {plan : Plan} {p : Nvme ℤ} (htries : Tries plan p fun rc a => a = rc)
    {l : List (Fin n)} (hns : plan.map (fun p => p.1.ns) = l.map raid.ns) (hfew : ∀ i, l.count i ≤ 128) :
    DepthBounded raid p := by
  rintro t a ht t₁ t₂ rfl i
  have hle := htries.outstanding_le ht (raid.ns i)
  rw [hns, count_map_ns] at hle
  exact hle.trans (hfew i)

theorem depthBounded_of_few {lbaCount : UInt32}
    (hfew : ∀ i, (transferDisks n lba lbaCount.toNat).count i ≤ 128) :
    DepthBounded raid (sioTransfer dir raid payload lba lbaCount) := by
  have htries := tries_sioTransfer dir raid payload lba lbaCount
  unfold transferDisks at hfew
  unfold transferPlan at htries
  split_ifs at hfew htries with haligned hfit
  · exact depthBounded_of_plan htries (ns_alignedPlan dir raid payload lba _) hfew
  · exact depthBounded_of_plan htries (l := [superGetdisk n lba]) rfl hfew
  · rintro t a ht t₁ t₂ rfl i
    have hhd : (UInt32.ofNat (toBoundary lba)).toNat = toBoundary lba :=
      UInt32.toNat_ofNat_of_lt' (Nat.lt_of_le_of_lt (toBoundary_le lba) (by decide))
    have hrest : (lbaCount - UInt32.ofNat (toBoundary lba)).toNat = lbaCount.toNat - toBoundary lba :=
      toNat_sub_ofNat (by omega)
    have hhead := tries_sioTransfer dir raid payload lba (UInt32.ofNat (toBoundary lba))
    rw [hhd, transferPlan_of_le dir raid payload lba le_rfl] at hhead
    rw [sioTransfer, dif_neg hfit, dif_pos haligned] at ht
    obtain ⟨th, tr, rc, happ, h₁, h₂⟩ := traces_bind.mp ht
    have hone : ∀ u v : Trace, th = u ++ v → outstanding (raid.ns i) 0 u ≤ 128 := by
      rintro u v rfl
      exact (hhead.outstanding_le h₁ _).trans (List.count_le_length.trans (by simp))
    rcases List.append_eq_append_iff.mp happ with ⟨v, hth, _⟩ | ⟨u, rfl, htr⟩
    · exact hone t₁ v hth
    · by_cases hrc : rc = 0
      · subst hrc
        rw [if_neg (by simp)] at h₂
        have hzero : Tries [] (pure (0 : ℤ)) fun rc a => a = rc := tries_pure rfl
        have hpoll := hzero.pollAll raid
        have hplan := (tries_sioTransfer dir raid (payload.add (toBoundary lba * sectorLength))
          (lba + UInt64.ofNat (toBoundary lba)) (lbaCount - UInt32.ofNat (toBoundary lba))).next hpoll
        rw [List.append_nil, hrest, transferPlan, if_pos (add_toBoundary_aligned lba)] at hplan
        have hafter := depthBounded_of_plan hplan (ns_alignedPlan dir raid _ _ _) hfew
        rw [outstanding_append, sioTransfer_settles hhd.le h₁ i]
        exact hafter tr a h₂ u t₂ htr i
      · rw [if_pos hrc] at h₂
        obtain ⟨hnil, _⟩ := traces_pure.mp h₂
        rw [hnil] at htr
        obtain ⟨rfl, _⟩ := List.append_eq_nil_iff.mp htr.symm
        rw [List.append_nil]
        exact hone th [] (List.append_nil th).symm

end plans

def NoCheck (t : Trace) : Prop := ∀ e ∈ t, ∀ ns, e.1 ≠ .process ns

theorem outstanding_of_noCheck {t : Trace} (hcheck : NoCheck t) {cs : List Command}
    (hcs : issued t = cs.map fun c => (c, 0)) (q k : ℕ) :
    outstanding q k t = k + (cs.map Command.ns).count q := by
  induction t generalizing cs k with
  | nil =>
    obtain rfl := List.map_eq_nil_iff.mp hcs.symm
    rfl
  | cons e t ih =>
    have htail : NoCheck t := fun e he => hcheck e (List.mem_cons_of_mem _ he)
    obtain ⟨o, r⟩ := e
    cases o with
    | cmd c =>
      have hcons : (c, r) :: issued t = cs.map fun c => (c, 0) := hcs
      cases cs with
      | nil => exact absurd hcons (by simp)
      | cons c' cs =>
        rw [List.map_cons] at hcons
        obtain ⟨hhead, hrest⟩ := List.cons.inj hcons
        obtain ⟨rfl, rfl⟩ := Prod.mk.inj hhead
        show outstanding q (if c.ns = q ∧ (0 : ℤ) = 0 then k + 1 else k) t = _
        rw [ih htail hrest, List.map_cons, List.count_cons]
        by_cases hns : c.ns = q
        · rw [if_pos ⟨hns, rfl⟩, if_pos (beq_iff_eq.mpr hns)]
          omega
        · rw [if_neg fun h => hns h.1, if_neg fun h => hns (beq_iff_eq.mp h)]
          omega
    | process ns => exact absurd rfl (hcheck _ List.mem_cons_self ns)
    | _ => exact ih htail hcs k

def Opens {α : Type} (cs : List Command) (p : Nvme α) : Prop :=
  ∃ t₁ t₂ a, Traces p (t₁ ++ t₂) a ∧ NoCheck t₁ ∧ issued t₁ = cs.map fun c => (c, 0)

def Passes {α : Type} (cs : List Command) (p : Nvme α) (a : α) : Prop :=
  ∃ t, Traces p t a ∧ NoCheck t ∧ issued t = cs.map fun c => (c, 0)

section opens
variable {α β : Type} {cs cs' : List Command} {p : Nvme α}

theorem noCheck_append {t₁ t₂ : Trace} (h₁ : NoCheck t₁) (h₂ : NoCheck t₂) : NoCheck (t₁ ++ t₂) :=
  fun e he => (List.mem_append.mp he).elim (h₁ e) (h₂ e)

theorem exists_run (p : Nvme α) : ∃ t a, Traces p t a := by
  obtain ⟨t, a, ht, _⟩ := exists_traces (fun _ _ => default) p
  exact ⟨t, a, ht⟩

theorem opens_nil (p : Nvme α) : Opens [] p := by
  obtain ⟨t, a, ht⟩ := exists_run p
  exact ⟨[], t, a, ht, fun _ he => absurd he List.not_mem_nil, rfl⟩

theorem Passes.bind {a : α} {f : α → Nvme β} (hp : Passes cs p a) (hf : Opens cs' (f a)) :
    Opens (cs ++ cs') (p >>= f) := by
  obtain ⟨t, ht, hcheck, hissued⟩ := hp
  obtain ⟨t₁, t₂, b, ht', hcheck', hissued'⟩ := hf
  refine ⟨t ++ t₁, t₂, b, ?_, noCheck_append hcheck hcheck', ?_⟩
  · rw [List.append_assoc]
    exact ht.bind ht'
  · rw [issued_append, hissued, hissued', List.map_append]

theorem Passes.code {plan : Plan} {Q : ℤ → α → Prop} {a : α} (hp : Passes cs p a) (h : Tries plan p Q) :
    Q 0 a := by
  obtain ⟨t, ht, _, hissued⟩ := hp
  obtain ⟨_, rc, hout, hQ⟩ := h t a ht
  rw [hissued] at hout
  generalize hxs : cs.map (fun c => (c, (0 : ℤ))) = xs at hout
  cases hout with
  | pass _ => exact hQ
  | @stop _ _ c xs _ _ _ hrc =>
    have hmem : (c, rc) ∈ cs.map fun c => (c, (0 : ℤ)) := by
      rw [hxs]
      exact List.mem_append_right xs (List.mem_singleton_self _)
    obtain ⟨_, _, heq⟩ := List.mem_map.mp hmem
    exact absurd (Prod.mk.inj heq).2.symm hrc

theorem Opens.bind (f : α → Nvme β) (hp : Opens cs p) : Opens cs (p >>= f) := by
  obtain ⟨t₁, t₂, a, ht, hcheck, hissued⟩ := hp
  obtain ⟨t₃, b, ht'⟩ := exists_run (f a)
  refine ⟨t₁, t₂ ++ t₃, b, ?_, hcheck, hissued⟩
  rw [← List.append_assoc]
  exact ht.bind ht'

theorem accepted_traces (c : Command) {onError : ℤ → Nvme α} {t : Trace} {a : α} (h : Traces p t a) :
    Traces (PcapReplay.cmd c >>= fun rc => if rc ≠ 0 then onError rc else schedule >>= fun _ => p)
      ([⟨.cmd c, 0⟩, ⟨.schedule, ()⟩] ++ t) a := by
  apply Traces.bind (traces_ask.mpr rfl)
  rw [if_neg (by simp)]
  exact Traces.bind (traces_ask.mpr rfl) h

theorem noCheck_cmd (c : Command) : NoCheck [⟨.cmd c, 0⟩, ⟨.schedule, ()⟩] := by
  intro e he ns
  rcases List.mem_cons.mp he with rfl | he
  · simp
  · obtain rfl := List.mem_singleton.mp he
    simp

theorem Opens.cmd (c : Command) {onError : ℤ → Nvme α} (h : Opens cs p) :
    Opens (c :: cs) (PcapReplay.cmd c >>= fun rc => if rc ≠ 0 then onError rc
      else schedule >>= fun _ => p) := by
  obtain ⟨t₁, t₂, a, ht, hcheck, hissued⟩ := h
  refine ⟨_, t₂, a, ?_, noCheck_append (noCheck_cmd c) hcheck, ?_⟩
  · rw [List.append_assoc]
    exact accepted_traces c ht
  · rw [issued_append, hissued]
    rfl

theorem Passes.cmd (c : Command) {onError : ℤ → Nvme α} {a : α} (h : Passes cs p a) :
    Passes (c :: cs) (PcapReplay.cmd c >>= fun rc => if rc ≠ 0 then onError rc
      else schedule >>= fun _ => p) a := by
  obtain ⟨t, ht, hcheck, hissued⟩ := h
  refine ⟨_, accepted_traces c ht, noCheck_append (noCheck_cmd c) hcheck, ?_⟩
  rw [issued_append, hissued]
  rfl

end opens

theorem DepthBounded.opens {α : Type} {raid : NvmeRaid n} {p : Nvme α} {cs : List Command}
    (hp : DepthBounded raid p) (hcs : Opens cs p) {l : List (Fin n)} (hns : cs.map Command.ns = l.map raid.ns)
    (i : Fin n) : l.count i ≤ 128 := by
  obtain ⟨t₁, t₂, a, ht, hcheck, hissued⟩ := hcs
  have hle := hp _ a ht t₁ t₂ rfl i
  rwa [outstanding_of_noCheck hcheck hissued, hns, count_map_ns, Nat.zero_add] at hle

theorem DepthBounded.left {α β : Type} {raid : NvmeRaid n} {p : Nvme α} {f : α → Nvme β}
    (h : DepthBounded raid (p >>= f)) : DepthBounded raid p := by
  rintro t a ht t₁ t₂ rfl i
  obtain ⟨t₃, b, ht'⟩ := exists_run (f a)
  exact h _ b (ht.bind ht') t₁ (t₂ ++ t₃) (List.append_assoc _ _ _) i

theorem DepthBounded.right {α β : Type} {raid : NvmeRaid n} {p : Nvme α} {f : α → Nvme β} {a : α} {th : Trace}
    (h : DepthBounded raid (p >>= f)) (hth : Traces p th a)
    (hsettled : ∀ i, outstanding (raid.ns i) 0 th = 0) : DepthBounded raid (f a) := by
  rintro t b ht t₁ t₂ rfl i
  have hle := h _ b (hth.bind ht) (th ++ t₁) t₂ (List.append_assoc _ _ _).symm i
  rwa [outstanding_append, hsettled i] at hle

section accepted
variable [NeZero n] (dir : Dir) (raid : NvmeRaid n)

theorem opens_sioLoop {k : ℕ} {payload : Ptr} {lba : UInt64} {lbaCount : UInt32} {m : ℕ}
    (hm : m ≤ lbaCount.toNat / superSectorNum) (hk : k + m ≤ n * 128 + 1) :
    Opens ((loopPlan dir raid payload lba m).map Prod.fst) (sioLoop dir raid k payload lba lbaCount) := by
  induction m generalizing k payload lba lbaCount with
  | zero => exact opens_nil _
  | succ m ih =>
    have hle : superSectorNum ≤ lbaCount.toNat := (Nat.div_pos_iff.mp (by omega)).2
    have hdiv := superSectors_sub hle
    rw [sioLoop, dif_pos hle]
    apply Opens.cmd
    dsimp only
    cases m with
    | zero => exact opens_nil _
    | succ m =>
      -- a check comes before the next command only when one more than 128 for each disk are queued
      rw [if_neg (by omega)]
      exact ih (by omega) (by omega)

theorem passes_sioLoop {k : ℕ} {payload : Ptr} {lba : UInt64} {lbaCount : UInt32} {m : ℕ}
    (hm : lbaCount.toNat / superSectorNum = m) (hk : k + m ≤ n * 128) :
    ∃ r, Passes ((loopPlan dir raid payload lba m).map Prod.fst) (sioLoop dir raid k payload lba lbaCount)
      r := by
  induction m generalizing k payload lba lbaCount with
  | zero =>
    have hlt : ¬ superSectorNum ≤ lbaCount.toNat := by
      intro hle
      have hpos := Nat.div_pos hle (by decide)
      omega
    rw [sioLoop, dif_neg hlt]
    exact ⟨_, [], .done _, fun _ he => absurd he List.not_mem_nil, rfl⟩
  | succ m ih =>
    have hle : superSectorNum ≤ lbaCount.toNat := (Nat.div_pos_iff.mp (by omega)).2
    have hdiv := superSectors_sub hle
    obtain ⟨r, hr⟩ := @ih (k + 1) (payload.add (superSectorNum * sectorLength))
      (lba + UInt64.ofNat superSectorNum) (lbaCount - UInt32.ofNat superSectorNum)
      (by omega) (by omega)
    refine ⟨r, ?_⟩
    rw [sioLoop, dif_pos hle]
    apply Passes.cmd
    dsimp only
    rwa [if_neg (by omega)]

section aligned
variable {dir raid} {payload : Ptr} {lba : UInt64} {lbaCount : UInt32}
  (haligned : lba.toNat % superSectorNum = 0)
include haligned

theorem opens_alignedPlan (hN : commandNum lbaCount.toNat ≤ n * 128 + 1) :
    Opens ((alignedPlan dir raid payload lba lbaCount.toNat).map Prod.fst)
      (sioTransfer dir raid payload lba lbaCount) := by
  by_cases hshort : lbaCount.toNat ≤ superSectorNum
  · rw [sioTransfer, dif_pos (by rwa [toBoundary_of_aligned haligned]), alignedPlan, if_pos hshort,
      UInt32.ofNat_toNat]
    exact Opens.cmd _ (opens_nil _)
  · rw [commandNum, if_neg hshort] at hN
    rw [sioTransfer, dif_neg (by rwa [toBoundary_of_aligned haligned]), dif_neg (not_not.mpr haligned),
      alignedPlan, if_neg hshort, tailPlan]
    split_ifs at hN ⊢ with hz
    · rw [List.append_nil]
      exact (opens_sioLoop dir raid le_rfl (by omega)).bind _
    · obtain ⟨r, hpass⟩ := @passes_sioLoop n _ dir raid 0 payload lba lbaCount _ rfl (by omega)
      rcases hpass.code (tries_sioLoop dir raid 0 payload lba lbaCount) with ⟨h, _⟩ | ⟨_, rest, hrest, rfl⟩
      · exact absurd rfl h
      have hlt : lbaCount.toNat % superSectorNum < superSectorNum := Nat.mod_lt _ (by decide)
      have hval : rest.val.toNat = lbaCount.toNat % superSectorNum := by
        rw [hrest]
        exact UInt32.toNat_ofNat_of_lt' (hlt.trans (by decide))
      have hne : rest.val ≠ 0 := fun h => hz (by rw [← hval, h]; rfl)
      rw [List.map_append, List.map_singleton]
      apply hpass.bind
      dsimp only
      rw [if_pos hne, sioTransfer, dif_pos, ← hrest]
      · exact (Opens.cmd _ (opens_nil _)).bind _
      · rw [hval, toBoundary_of_aligned (add_superSectors_aligned haligned _)]
        exact hlt.le

theorem opens_loopPlan (hN : n * 128 + 1 < commandNum lbaCount.toNat) :
    Opens ((loopPlan dir raid payload lba (n * 128 + 1)).map Prod.fst)
      (sioTransfer dir raid payload lba lbaCount) := by
  have hshort : ¬ lbaCount.toNat ≤ superSectorNum := by
    intro hle
    rw [commandNum, if_pos hle] at hN
    omega
  have hm : n * 128 + 1 ≤ lbaCount.toNat / superSectorNum := by
    rw [commandNum, if_neg hshort] at hN
    split_ifs at hN <;> omega
  rw [sioTransfer, dif_neg (by rwa [toBoundary_of_aligned haligned]), dif_neg (not_not.mpr haligned)]
  exact (opens_sioLoop dir raid hm (Nat.zero_add _).le).bind _

theorem aligned_few (hdepth : DepthBounded raid (sioTransfer dir raid payload lba lbaCount)) (i : Fin n) :
    (alignedDisks n lba lbaCount.toNat).count i ≤ 128 := by
  rcases Nat.lt_or_ge (n * 128 + 1) (commandNum lbaCount.toNat) with hN | hN
  · let first := (List.range (n * 128 + 1)).map fun j =>
      superGetdisk n (lba + UInt64.ofNat (j * superSectorNum))
    obtain ⟨i, hi⟩ : ∃ i, 128 < first.count i := by
      apply exists_lt_count
      rw [List.length_map, List.length_range, Nat.mul_comm]
      exact Nat.lt_succ_self _
    have hns : ((loopPlan dir raid payload lba (n * 128 + 1)).map Prod.fst).map Command.ns =
        first.map raid.ns := by
      rw [List.map_map, List.map_map]
      exact ns_loopPlan dir raid payload lba _
    exact absurd hi (Nat.not_lt.mpr (hdepth.opens (opens_loopPlan haligned hN) hns i))
  · refine hdepth.opens (opens_alignedPlan haligned hN) ?_ i
    rw [List.map_map]
    exact ns_alignedPlan dir raid payload lba _

end aligned

theorem few_of_depthBounded {payload : Ptr} {lba : UInt64} {lbaCount : UInt32}
    (hdepth : DepthBounded raid (sioTransfer dir raid payload lba lbaCount)) (i : Fin n) :
    (transferDisks n lba lbaCount.toNat).count i ≤ 128 := by
  unfold transferDisks
  split_ifs with haligned hfit
  · exact aligned_few haligned hdepth i
  · exact List.count_le_length.trans (by simp)
  · have hhd : (UInt32.ofNat (toBoundary lba)).toNat = toBoundary lba :=
      UInt32.toNat_ofNat_of_lt' (Nat.lt_of_le_of_lt (toBoundary_le lba) (by decide))
    have hrest : (lbaCount - UInt32.ofNat (toBoundary lba)).toNat = lbaCount.toNat - toBoundary lba :=
      toNat_sub_ofNat (by omega)
    -- a run in which the head goes well
    obtain ⟨t, rc, ht, hans, _⟩ := exists_answered (fun _ => 0) (fun _ => default)
      (sioTransfer dir raid payload lba (UInt32.ofNat (toBoundary lba)))
    obtain ⟨_, _, hout, rfl⟩ := tries_sioTransfer dir raid payload lba _ t rc ht
    obtain rfl := hout.zero_of_looked hans fun _ _ => rfl
    rw [sioTransfer, dif_neg hfit, dif_pos haligned] at hdepth
    have hafter := hdepth.right ht (sioTransfer_settles hhd.le ht)
    rw [if_neg (by simp)] at hafter
    rw [← hrest]
    exact aligned_few (add_toBoundary_aligned lba) hafter.left i

def alignedBlocks (lba : UInt64) (count : ℕ) : ℕ :=
  if lba.toNat % superSectorNum = 0 then count else count - toBoundary lba

omit [NeZero n] in
theorem commandNum_eq (count : ℕ) : commandNum count = max 1 ((count + 255) / 256) := by
  unfold commandNum
  by_cases hshort : count ≤ 256
  · rw [if_pos (show count ≤ superSectorNum from hshort)]
    omega
  · rw [if_neg (show ¬ count ≤ superSectorNum from hshort), superSectorNum_eq]
    by_cases hz : count % 256 = 0
    · rw [if_pos hz]
      omega
    · rw [if_neg hz]
      omega

theorem commandNum_le_iff (count : ℕ) : commandNum count ≤ 128 * n ↔ count ≤ 128 * gigaSectorNum n := by
  have hn := Nat.pos_of_neZero n
  rw [commandNum_eq]
  simp only [gigaSectorNum, superSectorNum_eq]
  omega

theorem alignedDisks_few_iff {lba : UInt64} {count : ℕ} (h : lba.toNat + count ≤ 2 ^ 64) :
    (∀ i, (alignedDisks n lba count).count i ≤ 128) ↔ count ≤ 128 * gigaSectorNum n := by
  rw [← commandNum_le_iff]
  constructor
  · intro hfew
    by_contra hlt
    obtain ⟨i, hi⟩ : ∃ i, 128 < (alignedDisks n lba count).count i := by
      apply exists_lt_count
      unfold alignedDisks
      rw [List.length_map, List.length_range]
      exact Nat.not_le.mp hlt
    exact absurd (hfew i) (Nat.not_le.mpr hi)
  · intro hN i
    have hlt := lba.toNat_lt
    have hmember : (alignedDisks n lba count).map Fin.val =
        (List.range (commandNum count)).map fun j => member 256 n (lba.toNat + j * 256) := by
      unfold alignedDisks
      rw [List.map_map]
      apply List.map_congr_left
      intro j hj
      have hfit : lba.toNat + j * 256 < 2 ^ 64 := by
        rw [List.mem_range, commandNum_eq] at hj
        omega
      show (superGetdisk n (lba + UInt64.ofNat (j * 256)) : ℕ) = _
      rw [superGetdisk_val, toNat_add_ofNat hfit]
    rw [← List.count_map_of_injective _ Fin.val Fin.val_injective, hmember]
    exact count_members_le (by decide) _ _ hN

theorem transferDisks_few_iff {lba : UInt64} {count : ℕ} (h : lba.toNat + count ≤ 2 ^ 64) :
    (∀ i, (transferDisks n lba count).count i ≤ 128) ↔ alignedBlocks lba count ≤ 128 * gigaSectorNum n := by
  unfold transferDisks alignedBlocks
  split_ifs with haligned hfit
  · exact alignedDisks_few_iff h
  · apply iff_of_true
    · exact fun i => List.count_le_length.trans (by simp)
    · omega
  · have hle : (lba + UInt64.ofNat (toBoundary lba)).toNat = lba.toNat + toBoundary lba := by
      apply toNat_add_ofNat
      omega
    exact alignedDisks_few_iff (by omega)

/-- The queues hold what a transfer submits when no disk gets more than 128 of the commands
behind the first supersector boundary. -/
theorem sioTransfer_depthBounded_iff (payload : Ptr) (lba : UInt64) (lbaCount : UInt32) :
    (DepthBounded raid (sioTransfer dir raid payload lba lbaCount) ↔
      ∀ i, (transferDisks n lba lbaCount.toNat).count i ≤ 128) ∧
    (lba.toNat + lbaCount.toNat ≤ 2 ^ 64 →
      (DepthBounded raid (sioTransfer dir raid payload lba lbaCount) ↔
        alignedBlocks lba lbaCount.toNat ≤ 128 * gigaSectorNum n)) := by
  have hiff : DepthBounded raid (sioTransfer dir raid payload lba lbaCount) ↔
      ∀ i, (transferDisks n lba lbaCount.toNat).count i ≤ 128 :=
    ⟨few_of_depthBounded dir raid, depthBounded_of_few⟩
  exact ⟨hiff, fun hfit => hiff.trans (transferDisks_few_iff hfit)⟩

end accepted

theorem sioTransfer_depthBounded_two_disks :
    DepthBounded (attached fun _ : Fin 2 => 1024)
      (sioTransfer .write (attached fun _ : Fin 2 => 1024) ⟨0, 0⟩ 7 1000) :=
  ((sioTransfer_depthBounded_iff .write _ ⟨0, 0⟩ 7 1000).2 (by decide)).mpr (by decide)

theorem sioTransfer_overfills_queue :
    ¬ DepthBounded (attached fun _ : Fin 1 => 65536)
        (sioRread (attached fun _ : Fin 1 => 65536) ⟨0, 0⟩ 0 33024) ∧
      ¬ DepthBounded (attached fun _ : Fin 1 => 65536)
        (sioRwrite (attached fun _ : Fin 1 => 65536) ⟨0, 0⟩ 0 33024) := by
  have hmany : ¬ ∀ i : Fin 1, (transferDisks 1 0 (33024 : UInt32).toNat).count i ≤ 128 := by
    rw [transferDisks_few_iff (by decide)]
    decide
  exact ⟨fun h => hmany (few_of_depthBounded .read _ h), fun h => hmany (few_of_depthBounded .write _ h)⟩

end PcapReplay
