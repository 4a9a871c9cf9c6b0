import PcapReplay.Fs.Mount

/-! What a mount accepts, and what it overwrites. -/

namespace PcapReplay
variable {n : ℕ}

def Consistent (m : Fin n → MetaSector) : Prop :=
  ∀ i, (m i).diskId.toNat = i ∧ (m i).totalDisks.toNat = n

structure Complete (m : Fin n → MetaSector) : Prop where
  ids : Function.Injective fun i => (m i).diskId
  lt : ∀ i, (m i).diskId.toNat < n
  totals : ∀ i, (m i).totalDisks.toNat = n

def ById (m : Fin n → MetaSector) (σ : Equiv.Perm (Fin n)) : Prop :=
  Monotone fun i => (m (σ i)).diskId.toNat

section order
variable {m : Fin n → MetaSector} {σ : Equiv.Perm (Fin n)}

theorem Complete.consistent (h : Complete m) (hσ : ById m σ) : Consistent fun i => m (σ i) := by
  have hinj : Function.Injective fun i => (⟨(m (σ i)).diskId.toNat, h.lt (σ i)⟩ : Fin n) := by
    intro i j hij
    have hid := UInt8.toNat_inj.mp (Fin.mk.inj hij)
    exact σ.injective (h.ids hid)
  -- an ascending arrangement of `n` different ids below `n` is the identity
  have hone : Equiv.ofBijective _ (Finite.injective_iff_bijective.mp hinj) = 1 :=
    (Equiv.Perm.monotone_iff _).mp hσ
  intro i
  have hi := congrArg Fin.val (Equiv.congr_fun hone i)
  exact ⟨hi, h.totals (σ i)⟩

theorem Consistent.complete (h : Consistent fun i => m (σ i)) : Complete m := by
  have hid : ∀ i, (m i).diskId.toNat = σ.symm i := by
    intro i
    have hi := (h (σ.symm i)).1
    simpa using hi
  refine ⟨fun i j hij => ?_, fun i => ?_, fun i => ?_⟩
  · have hval : (σ.symm i : ℕ) = σ.symm j := by
      rw [← hid i, ← hid j]
      exact congrArg UInt8.toNat hij
    exact σ.symm.injective (Fin.ext hval)
  · rw [hid i]
    exact (σ.symm i).isLt
  · have hi := (h (σ.symm i)).2
    simpa using hi

end order

theorem complete_formatted (hn : n ≤ maxDisks) (raid : NvmeRaid n) :
    Complete (formatted raid).msector := by
  refine ⟨fun i j hij => ?_, fun i => ?_, fun i => ?_⟩
  · have h := congrArg UInt8.toNat hij
    simp only [formatted, initMeta, diskId_toNat hn i.isLt.le, diskId_toNat hn j.isLt.le] at h
    exact Fin.ext h
  · simp only [formatted, initMeta, diskId_toNat hn i.isLt.le]
    exact i.isLt
  · simp only [formatted, initMeta, diskId_toNat hn le_rfl]

theorem exists_qsort {raid : NvmeRaid n} {σ : Equiv.Perm (Fin n)} (h : ById raid.msector σ) :
    ∃ qsort : Qsort n, qsort.Ascending ∧ qsort cmpIDisk raid.disk = σ := by
  classical
  refine ⟨fun _ d => if d = raid.disk then σ else Tuple.sort fun i => (d i).msector.diskId.toNat,
    fun d => ?_, if_pos rfl⟩
  by_cases hd : d = raid.disk
  · simp only [if_pos hd]
    rw [hd]
    exact h
  · simp only [if_neg hd]
    exact Tuple.monotone_sort fun i => (d i).msector.diskId.toNat

variable [NeZero n]

theorem orderRaid_cases (qsort : Qsort n) (raid : NvmeRaid n) {σ : Equiv.Perm (Fin n)}
    (hσ : qsort cmpIDisk raid.disk = σ) :
    (Refused (fun i => raid.msector (σ i)) ∧ orderRaid qsort raid = none) ∨
      (¬ Refused (fun i => raid.msector (σ i)) ∧
        ∃ raid', orderRaid qsort raid = some raid' ∧ raid'.msector = fun i => raid.msector (σ i)) := by
  subst hσ
  by_cases h : Refused fun i => raid.msector (qsort cmpIDisk raid.disk i)
  · exact Or.inl ⟨h, if_pos h⟩
  · exact Or.inr ⟨h, _, if_neg h, rfl⟩

def mount (qsort : Qsort n) (media : ℕ → Sector) (raid : NvmeRaid n) : Option (NvmeRaid n) :=
  ((createRaid qsort raid).run (mountEnv media (outcomes fun _ : Fin n => .ok)) ⟨0, []⟩).1

def MountsConsistent (media : ℕ → Sector) (raid : NvmeRaid n) : Prop :=
  ∀ qsort : Qsort n, qsort.Ascending → ∀ raid', mount qsort media raid = some raid' →
    Consistent raid'.msector

def onMedia (media : ℕ → Sector) (raid : NvmeRaid n) : NvmeRaid n :=
  { raid with msector := fun i => .ofBytes (media (raid.ns i)) }

theorem mount_eq (qsort : Qsort n) (media : ℕ → Sector) (raid : NvmeRaid n) :
    mount qsort media raid =
      if initialised (onMedia media raid).msector = 0 then
        orderRaid qsort (formatted (onMedia media raid))
      else if initialised (onMedia media raid).msector < n then none
      else orderRaid qsort (onMedia media raid) := by
  have hread : readIn media (fun _ => .ok) raid = onMedia media raid := rfl
  rw [mount, run_createRaid, hread]
  split_ifs <;> rfl

theorem mount_of_magic (qsort : Qsort n) (media : ℕ → Sector) (raid : NvmeRaid n)
    (h : ∀ i, checkMeta (.ofBytes (media (raid.ns i))) = true) :
    mount qsort media raid = orderRaid qsort (onMedia media raid) := by
  have hlt : ¬ initialised (onMedia media raid).msector < n := by
    intro hlt
    obtain ⟨i, hi⟩ := initialised_lt.mp hlt
    exact absurd (h i) (by simpa [onMedia] using hi)
  have hz : ¬ initialised (onMedia media raid).msector = 0 := fun hz =>
    hlt (hz ▸ Nat.pos_of_neZero n)
  rw [mount_eq, if_neg hz, if_neg hlt]

theorem createRaid_consistent_iff (hn : n ≤ maxDisks) (media : ℕ → Sector) (raid : NvmeRaid n) :
    MountsConsistent media raid ↔
      (∃ i, checkMeta (.ofBytes (media (raid.ns i))) = false) ∨
      Complete (onMedia media raid).msector ∨
      ∀ σ, ById (onMedia media raid).msector σ → Refused fun i => (onMedia media raid).msector (σ i) := by
  constructor
  · intro h
    by_contra hne
    simp only [not_or, not_forall, not_exists, exists_prop] at hne
    obtain ⟨hmagic, hcomplete, σ, hσ, haccept⟩ := hne
    obtain ⟨qsort, hq, hqσ⟩ := exists_qsort hσ
    have hmount := mount_of_magic qsort media raid fun i => by simpa using hmagic i
    rcases orderRaid_cases qsort _ hqσ with ⟨hr, _⟩ | ⟨_, raid', hsome, hms⟩
    · exact haccept hr
    · have hcons := h qsort hq raid' (hmount.trans hsome)
      rw [hms] at hcons
      exact hcomplete hcons.complete
  · intro h qsort hq raid' hmount
    rw [mount_eq] at hmount
    split_ifs at hmount with hz hlt
    · rcases orderRaid_cases qsort (formatted (onMedia media raid)) rfl with
        ⟨_, hnone⟩ | ⟨_, r, hsome, hms⟩
      · simp [hnone] at hmount
      · obtain rfl := Option.some.inj (hsome.symm.trans hmount)
        rw [hms]
        exact (complete_formatted hn _).consistent (hq (formatted (onMedia media raid)).disk)
    · rcases orderRaid_cases qsort (onMedia media raid) rfl with
        ⟨_, hnone⟩ | ⟨haccept, r, hsome, hms⟩
      · simp [hnone] at hmount
      · obtain rfl := Option.some.inj (hsome.symm.trans hmount)
        have hσ : ById (onMedia media raid).msector _ := hq (onMedia media raid).disk
        rcases h with hmagic | hcomplete | hrefused
        · exact absurd (initialised_lt.mpr hmagic) hlt
        · rw [hms]
          exact hcomplete.consistent hσ
        · exact absurd (hrefused _ hσ) haccept

def halfMeta (diskId : UInt8) : MetaSector where
  magic := magicNumber
  version := curVersion
  diskId := diskId
  totalDisks := 2
  totalFiles := 0
  content _ := { name := fun _ => 0, startBlock := 0, endBlock := 0 }

theorem ofBytes_half (diskId : UInt8) :
    MetaSector.ofBytes (halfMeta diskId).toBytes = halfMeta diskId :=
  MetaSector.ofBytes_toBytes _ fun _ _ => rfl

def twoDisks : NvmeRaid 2 := attached fun _ => 1024

theorem onMedia_half (diskId : ℕ → UInt8) (i : Fin 2) :
    (onMedia (fun k => (halfMeta (diskId k)).toBytes) twoDisks).msector i = halfMeta (diskId i) :=
  ofBytes_half (diskId i)

theorem createRaid_consistent_half :
    MountsConsistent (fun k => (halfMeta (UInt8.ofNat (1 - k))).toBytes) twoDisks := by
  refine (createRaid_consistent_iff (by decide) _ twoDisks).mpr (Or.inr (Or.inl ?_))
  refine ⟨?_, fun i => ?_, fun i => ?_⟩
  · simp only [onMedia_half fun k => UInt8.ofNat (1 - k)]
    decide
  · rw [onMedia_half fun k => UInt8.ofNat (1 - k)]
    revert i
    decide
  · rw [onMedia_half fun k => UInt8.ofNat (1 - k)]
    rfl

/-- Two disks that both say they are disk 0 of 2 are mounted. -/
theorem createRaid_accepts_twins :
    ¬ MountsConsistent (fun _ => (halfMeta 0).toBytes) twoDisks := by
  intro h
  have hm := onMedia_half fun _ => 0
  have hsorted : ById (onMedia (fun _ => (halfMeta 0).toBytes) twoDisks).msector 1 := by
    intro i j _
    simp only [hm, le_refl]
  obtain ⟨qsort, hq, hqσ⟩ := exists_qsort hsorted
  have hmagic : ∀ _ : Fin 2, checkMeta (.ofBytes ((halfMeta 0).toBytes)) = true := fun _ => by
    rw [ofBytes_half]
    rfl
  have hmount := mount_of_magic qsort (fun _ => (halfMeta 0).toBytes) twoDisks hmagic
  rcases orderRaid_cases qsort _ hqσ with ⟨⟨i, _, hi⟩, _⟩ | ⟨_, raid', hsome, hms⟩
  · simp only [hm] at hi
    exact hi rfl
  · have hcons := h qsort hq raid' (hmount.trans hsome) 1
    simp only [hms, hm] at hcons
    exact absurd hcons.1 (by decide)

def Spares (media : ℕ → Sector) (s : MountState) : Prop :=
  ∀ w ∈ s.writes, checkMeta (.ofBytes (media w.1)) = false

theorem createRaid_spares_iff (qsort : Qsort n) (media : ℕ → Sector) (out : Fin n → ReadOutcome)
    (raid : NvmeRaid n) :
    Spares media ((createRaid qsort raid).run (mountEnv media (outcomes out)) ⟨0, []⟩).2 ↔
      (∀ i, checkMeta (.ofBytes (media (raid.ns i))) = false) ∨
      ∃ i, checkMeta (afterRead (media (raid.ns i)) (raid.msector i) (out i)) = true := by
  have hseen : (∃ i, checkMeta (afterRead (media (raid.ns i)) (raid.msector i) (out i)) = true) ↔
      initialised (readIn media out raid).msector ≠ 0 := by
    rw [Ne, initialised_eq_zero]
    simp [readIn]
  have hquiet : Spares media ⟨n, []⟩ := by simp [Spares]
  rw [run_createRaid, hseen]
  split_ifs with hz hlt
  · -- no metadata was seen, and every disk is written
    simp [Spares, hz, List.mem_ofFn]
  · exact iff_of_true hquiet (Or.inr hz)
  · exact iff_of_true hquiet (Or.inr hz)

def oneDisk : NvmeRaid 1 := attached fun _ => 1024

theorem createRaid_spares_oneDisk :
    Spares (fun _ => (halfMeta 0).toBytes)
      ((createRaid (fun _ _ => 1) oneDisk).run
        (mountEnv (fun _ => (halfMeta 0).toBytes) (outcomes fun _ : Fin 1 => .ok)) ⟨0, []⟩).2 := by
  refine (createRaid_spares_iff _ _ _ oneDisk).mpr (Or.inr ⟨0, ?_⟩)
  rw [afterRead, ofBytes_half]
  rfl

/-- A single disk of a raid that refuses the read is formatted. -/
theorem createRaid_formats_unread :
    ¬ Spares (fun _ => (halfMeta 0).toBytes)
      ((createRaid (fun _ _ => 1) oneDisk).run
        (mountEnv (fun _ => (halfMeta 0).toBytes)
          (outcomes fun _ : Fin 1 => .ioError ⟨-12, by decide⟩ fun _ => 0)) ⟨0, []⟩).2 := by
  rw [run_createRaid, if_pos (by decide)]
  intro h
  have hw := h (0, _) (by simp [oneDisk, attached, List.ofFn_succ]; rfl)
  rw [ofBytes_half] at hw
  exact absurd hw (by decide)

end PcapReplay
