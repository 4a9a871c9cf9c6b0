import PcapReplay.Fs.Types
import Mathlib.Algebra.BigOperators.Group.List.Basic

/-! The enumeration of the drives in `main.c`, which fills the array of disks. -/

namespace PcapReplay

structure Namespace where
  handle : ℕ
  active : Bool
  numSectors : UInt64
  /-- `spdk_nvme_ctrlr_alloc_io_qpair` does not return NULL. -/
  qpair : Bool

def Namespace.usable (ns : Namespace) : Bool := ns.active && ns.qpair

structure DiskEntry where
  ns : Option ℕ
  qpair : Bool

structure MyRaid where
  disk : Fin maxDisks → DiskEntry
  numdisks : ℕ
  totalBlocks : UInt64

/-- `none` where `myRaid.disk[myRaid.numdisks]` lies behind the array. -/
def registerNs (myRaid : MyRaid) (ns : Namespace) : Option MyRaid :=
  if ns.active = false then some myRaid
  else if h : myRaid.numdisks < maxDisks then
    let disk := Function.update myRaid.disk ⟨myRaid.numdisks, h⟩ ⟨some ns.handle, ns.qpair⟩
    if ns.qpair = false then some { myRaid with disk }
    else
      some
        { disk
          numdisks := myRaid.numdisks + 1
          totalBlocks := myRaid.totalBlocks + ns.numSectors }
  else none

def attachCb (myRaid : MyRaid) (ctrlr : List Namespace) : Option MyRaid := ctrlr.foldlM registerNs myRaid

def probe (ctrlrs : List (List Namespace)) : Option MyRaid :=
  ctrlrs.foldlM attachCb { disk := fun _ => ⟨none, false⟩, numdisks := 0, totalBlocks := 0 }

theorem probe_eq (ctrlrs : List (List Namespace)) :
    probe ctrlrs =
      ctrlrs.flatten.foldlM registerNs { disk := fun _ => ⟨none, false⟩, numdisks := 0, totalBlocks := 0 } := by
  unfold probe
  generalize ({ disk := fun _ => ⟨none, false⟩, numdisks := 0, totalBlocks := 0 } : MyRaid) = myRaid
  induction ctrlrs generalizing myRaid with
  | nil => rfl
  | cons ctrlr ctrlrs ih =>
    rw [List.foldlM_cons, List.flatten_cons, List.foldlM_append]
    exact congrArg _ (funext ih)

theorem registerNs_cases (myRaid : MyRaid) (ns : Namespace) :
    (ns.active = false ∧ registerNs myRaid ns = some myRaid) ∨
      (ns.active = true ∧ ¬ myRaid.numdisks < maxDisks ∧ registerNs myRaid ns = none) ∨
      (ns.active = true ∧ ∃ h : myRaid.numdisks < maxDisks,
        registerNs myRaid ns = some
          { disk := Function.update myRaid.disk ⟨myRaid.numdisks, h⟩ ⟨some ns.handle, ns.qpair⟩
            numdisks := myRaid.numdisks + [ns].countP Namespace.usable
            totalBlocks := myRaid.totalBlocks + if ns.usable then ns.numSectors else 0 }) := by
  cases hactive : ns.active with
  | false => exact Or.inl ⟨rfl, if_pos hactive⟩
  | true =>
    have hnot : ¬ ns.active = false := by simp [hactive]
    refine Or.inr ?_
    by_cases hroom : myRaid.numdisks < maxDisks
    · refine Or.inr ⟨rfl, hroom, ?_⟩
      rw [registerNs, if_neg hnot, dif_pos hroom]
      cases hpair : ns.qpair with
      | false => simp [Namespace.usable, hpair]
      | true => simp [Namespace.usable, hactive, hpair]
    · exact Or.inl ⟨rfl, hroom, by rw [registerNs, if_neg hnot, dif_neg hroom]⟩

def FindsRoom (before : ℕ) (namespaces : List Namespace) : Prop :=
  ∀ l₁ ns l₂, namespaces = l₁ ++ ns :: l₂ → ns.active = true →
    before + l₁.countP Namespace.usable < maxDisks

theorem findsRoom_cons {before : ℕ} {ns : Namespace} {namespaces : List Namespace} :
    FindsRoom before (ns :: namespaces) ↔ (ns.active = true → before < maxDisks) ∧
      FindsRoom (before + [ns].countP Namespace.usable) namespaces := by
  have hcount : ∀ l₁, before + (ns :: l₁).countP Namespace.usable =
      before + [ns].countP Namespace.usable + l₁.countP Namespace.usable := by
    intro l₁
    rw [← List.singleton_append, List.countP_append, Nat.add_assoc]
  constructor
  · intro h
    refine ⟨fun hactive => h [] ns namespaces rfl hactive, fun l₁ ns' l₂ heq hactive => ?_⟩
    have hlater := h (ns :: l₁) ns' l₂ (by rw [heq, List.cons_append]) hactive
    rwa [hcount] at hlater
  · rintro ⟨hfirst, hrest⟩ l₁ ns' l₂ heq hactive
    cases l₁ with
    | nil =>
      obtain ⟨rfl, _⟩ := List.cons.inj heq
      exact hfirst hactive
    | cons ns₁ l₁ =>
      obtain ⟨rfl, htail⟩ := List.cons.inj heq
      rw [hcount]
      exact hrest l₁ ns' l₂ htail hactive

structure Registered (myRaid : MyRaid) (disks : List Namespace) : Prop where
  numdisks : myRaid.numdisks = disks.length
  le : disks.length ≤ maxDisks
  entries : ∀ i : Fin maxDisks, ∀ h : ↑i < disks.length, myRaid.disk i = ⟨some disks[i].handle, true⟩
  totalBlocks : myRaid.totalBlocks = (disks.map Namespace.numSectors).foldl (fun total sectors => total + sectors) 0

theorem Registered.register {myRaid myRaid' : MyRaid} {disks : List Namespace} {ns : Namespace}
    (hr : Registered myRaid disks) (h : registerNs myRaid ns = some myRaid') :
    Registered myRaid' (disks ++ [ns].filter Namespace.usable) := by
  rcases registerNs_cases myRaid ns with ⟨hactive, heq⟩ | ⟨_, _, heq⟩ | ⟨hactive, hroom, heq⟩
  · obtain rfl := Option.some.inj (heq.symm.trans h)
    have hnot : [ns].filter Namespace.usable = [] := by
      simp [Namespace.usable, hactive]
    rwa [hnot, List.append_nil]
  · exact absurd (heq.symm.trans h) (by simp)
  · obtain rfl := Option.some.inj (heq.symm.trans h)
    have hroom' := hr.numdisks ▸ hroom
    cases hpair : ns.qpair with
    | false =>
      -- what was written lies behind the disks
      have hnot : ns.usable = false := by
        rw [Namespace.usable, hpair, Bool.and_false]
      have hfilter : [ns].filter Namespace.usable = [] := by simp [hnot]
      have hcount : [ns].countP Namespace.usable = 0 := by simp [hnot]
      rw [hfilter, hcount, hnot, List.append_nil]
      refine ⟨hr.numdisks, hr.le, fun i hi => ?_, ?_⟩
      · have hne : i ≠ ⟨myRaid.numdisks, hroom⟩ := by
          rintro rfl
          exact absurd hi (by simp [hr.numdisks])
        dsimp only
        rw [Function.update_of_ne hne]
        exact hr.entries i hi
      · rw [hr.totalBlocks]
        exact UInt64.add_zero _
    | true =>
      have hyes : ns.usable = true := by
        rw [Namespace.usable, hpair, Bool.and_true, hactive]
      have hfilter : [ns].filter Namespace.usable = [ns] := by simp [hyes]
      have hcount : [ns].countP Namespace.usable = 1 := by simp [hyes]
      rw [hfilter, hcount, hyes]
      refine ⟨?_, ?_, fun i hi => ?_, ?_⟩
      · rw [List.length_append, List.length_singleton]
        exact congrArg (· + 1) hr.numdisks
      · rw [List.length_append, List.length_singleton]
        exact hroom'
      · dsimp only
        by_cases hlast : i = ⟨myRaid.numdisks, hroom⟩
        · subst hlast
          rw [Function.update_self]
          simp [hr.numdisks]
        · have hlt : (i : ℕ) < disks.length := by
            rw [List.length_append, List.length_singleton] at hi
            have hne : (i : ℕ) ≠ myRaid.numdisks := fun he => hlast (Fin.ext he)
            have hnum := hr.numdisks
            omega
          rw [Function.update_of_ne hlast, hr.entries i hlt]
          simp [List.getElem_append_left hlt]
      · rw [List.map_append, List.foldl_append, ← hr.totalBlocks]
        rfl

theorem registered_foldlM {namespaces : List Namespace} {myRaid : MyRaid} {disks : List Namespace}
    (hr : Registered myRaid disks) :
    (FindsRoom disks.length namespaces → ∃ myRaid', namespaces.foldlM registerNs myRaid = some myRaid' ∧
        Registered myRaid' (disks ++ namespaces.filter Namespace.usable)) ∧
      (¬ FindsRoom disks.length namespaces → namespaces.foldlM registerNs myRaid = none) := by
  induction namespaces generalizing myRaid disks with
  | nil =>
    refine ⟨fun _ => ⟨myRaid, rfl, by rwa [List.filter_nil, List.append_nil]⟩, fun h => ?_⟩
    exact absurd (fun l₁ ns l₂ heq => absurd heq (by simp)) h
  | cons ns namespaces ih =>
    rw [findsRoom_cons, List.foldlM_cons]
    by_cases hone : ns.active = true → disks.length < maxDisks
    · have hnext : ∃ myRaid₁, registerNs myRaid ns = some myRaid₁ := by
        rcases registerNs_cases myRaid ns with ⟨_, heq⟩ | ⟨hactive, hfull, _⟩ | ⟨_, _, heq⟩
        · exact ⟨_, heq⟩
        · exact absurd (hr.numdisks ▸ hone hactive) hfull
        · exact ⟨_, heq⟩
      obtain ⟨myRaid₁, heq⟩ := hnext
      have hr₁ := hr.register heq
      have hlen : (disks ++ [ns].filter Namespace.usable).length =
          disks.length + [ns].countP Namespace.usable := by
        rw [List.length_append, List.countP_eq_length_filter]
      obtain ⟨hfits, hnot⟩ := ih hr₁
      rw [hlen, List.append_assoc, ← List.filter_append, List.singleton_append] at hfits
      rw [hlen] at hnot
      rw [heq]
      exact ⟨fun h => hfits h.2, fun h => hnot fun h' => h ⟨hone, h'⟩⟩
    · refine ⟨fun h => absurd h.1 hone, fun _ => ?_⟩
      rw [Classical.not_imp] at hone
      rcases registerNs_cases myRaid ns with ⟨hinactive, _⟩ | ⟨_, _, heq⟩ | ⟨_, hroom, _⟩
      · exact absurd (hinactive.symm.trans hone.1) (by simp)
      · rw [heq]
        rfl
      · exact absurd (hr.numdisks ▸ hroom) hone.2

/-- The enumeration stays in the array exactly if every active namespace finds a free entry, and then
the disks are the usable namespaces in the order in which they were found. -/
theorem probe_iff (ctrlrs : List (List Namespace)) :
    (FindsRoom 0 ctrlrs.flatten ↔ (probe ctrlrs).isSome) ∧
      ∀ myRaid, probe ctrlrs = some myRaid →
        Registered myRaid (ctrlrs.flatten.filter Namespace.usable) := by
  have hstart : Registered { disk := fun _ => ⟨none, false⟩, numdisks := 0, totalBlocks := 0 } [] :=
    ⟨rfl, Nat.zero_le _, fun _ h => absurd h (Nat.not_lt_zero _), rfl⟩
  obtain ⟨hfits, hnot⟩ := @registered_foldlM ctrlrs.flatten _ _ hstart
  rw [← probe_eq, List.length_nil, List.nil_append] at hfits
  rw [← probe_eq, List.length_nil] at hnot
  constructor
  · constructor
    · intro h
      obtain ⟨_, heq, _⟩ := hfits h
      rw [heq]
      rfl
    · intro h
      by_contra hno
      rw [hnot hno] at h
      exact absurd h (by simp)
  · intro myRaid heq
    by_cases h : FindsRoom 0 ctrlrs.flatten
    · obtain ⟨_, heq', hr⟩ := hfits h
      obtain rfl := Option.some.inj (heq.symm.trans heq')
      exact hr
    · exact absurd (heq.symm.trans (hnot h)) (by simp)

end PcapReplay
