import PcapReplay.Fs.Remount
import PcapReplay.Tools.Main

/-! Metadata on the machine: what a mount reads, and what `updateRaid` leaves, without failures. -/

namespace PcapReplay
open Interaction Dma Prog
variable {n : ℕ} {π : Policy} {w w₁ w' : World}

abbrev Disks := ℕ → ℕ → UInt8

def World.disks (w : World) : Disks := fun ns => w.bus.store (.disk ns)

def SyncedOn (raid : NvmeRaid n) (disks : Disks) : Prop :=
  ∀ i, ∀ a < sectorLength, disks (raid.ns i) a = (raid.msector i).toBytes a

/-- Neither allocations nor metadata commands fail. -/
structure Policy.Smooth (π : Policy) : Prop where
  memory : ¬ π.noMemory
  io : ¬ π.ioError

namespace World

structure Quiet (w w' : World) : Prop extends Keeps w w' where
  disks : w.flights = 0 → w'.disks = w.disks

theorem Quiet.refl (w : World) : Quiet w w := ⟨.refl w, fun _ => rfl⟩

theorem Quiet.trans (h : Quiet w w₁) (h' : Quiet w₁ w') : Quiet w w' where
  toKeeps := h.toKeeps.trans h'.toKeeps
  disks hw := (h'.disks (h.idle hw)).trans (h.disks hw)

theorem malloc_quiet {len : ℕ} {zero : Bool} {r : Option ℕ} (h : Runs π (Op.malloc len zero).ask w r w') :
    Quiet w w' := by
  refine ⟨malloc_keeps h, fun hw => ?_⟩
  obtain ⟨b, hdrift, ⟨_, m, hm, _, rfl⟩ | ⟨_, _, rfl⟩⟩ := exec_ask.mp h
  · obtain rfl := hdrift.evolves.of_idle hw
    funext ns a
    exact hm _ a (by simp)
  · obtain rfl := hdrift.evolves.of_idle hw
    rfl

theorem readWait_quiet {ns : ℕ} {lba : UInt64} {r : ℤ × Sector} (h : Runs π (sioRead ns lba) w r w') :
    Quiet w w' := by
  obtain ⟨b, hdrift, rfl, _⟩ := exec_ask.mp h
  refine ⟨keeps_drift hdrift, fun hw => ?_⟩
  obtain rfl := hdrift.evolves.of_idle hw
  rfl

end World

theorem Fresh.keeps {map : Ptr} (h : Fresh w map) (hk : w.Keeps w') : Fresh w' map :=
  ⟨hk.idle h.idle, hk.scheduled.trans h.scheduled, hk.completed.trans h.completed,
    h.mapped.trans_le hk.nextBuf_le⟩

section reads
variable (hπ : π.Smooth)
include hπ

theorem sioReadPinit_run {ns : ℕ} {old : MetaSector} {r : ℤ × MetaSector} (hidle : w.flights = 0)
    (h : Runs π (sioReadPinit ns old) w r w') : r.2 = .ofBytes (w.sector ns 0) ∧ w.Quiet w' := by
  obtain ⟨buf, w₁, hmalloc, h⟩ := exec_bind.mp h
  have hquiet := World.malloc_quiet hmalloc
  have hsector : w₁.sector ns 0 = w.sector ns 0 := by
    funext a
    exact congrFun (congrFun (hquiet.disks hidle) ns) _
  obtain rfl := malloc_returns hπ.memory hmalloc
  obtain ⟨got, w₂, hread, h⟩ := exec_bind.mp h
  obtain ⟨rfl, rfl⟩ := exec_pure.mp h
  refine ⟨?_, hquiet.trans (World.readWait_quiet hread)⟩
  obtain ⟨b, hdrift, _, ⟨_, hgot⟩ | ⟨hio, _⟩⟩ := exec_ask.mp hread
  · obtain rfl := hdrift.evolves.of_idle (hquiet.idle hidle)
    rw [← hsector]
    exact congrArg MetaSector.ofBytes hgot
  · exact absurd hio hπ.io

theorem collect_reads_run {k : ℕ} {ns : Fin k → ℕ} {old : Fin k → MetaSector} {r : Fin k → ℤ × MetaSector}
    (hidle : w.flights = 0) (h : Runs π (collect fun i => sioReadPinit (ns i) (old i)) w r w') :
    (∀ i, (r i).2 = .ofBytes (w.sector (ns i) 0)) ∧ w.Quiet w' := by
  induction k generalizing w w' with
  | zero =>
    obtain ⟨_, rfl⟩ := exec_pure.mp h
    exact ⟨fun i => i.elim0, .refl w'⟩
  | succ k ih =>
    obtain ⟨a, w₁, h₀, h⟩ := exec_bind.mp h
    obtain ⟨g, w₂, h₁, h⟩ := exec_bind.mp h
    obtain ⟨rfl, rfl⟩ := exec_pure.mp h
    obtain ⟨hfirst, hquiet⟩ := sioReadPinit_run hπ hidle h₀
    obtain ⟨hrest, hquiet'⟩ := ih (hquiet.idle hidle) h₁
    refine ⟨Fin.cases hfirst fun i => ?_, hquiet.trans hquiet'⟩
    rw [Fin.cons_succ, hrest i]
    congr 1
    funext a
    exact congrFun (congrFun (hquiet.disks hidle) _) _

theorem sioWritePinit_run {ns : ℕ} {m : MetaSector} {r : ℤ} (hidle : w.flights = 0)
    (h : Runs π (sioWritePinit ns m) w r w') :
    w.Keeps w' ∧ (∀ a < sectorLength, w'.disks ns a = m.toBytes a) ∧
      ∀ k a, k ≠ ns ∨ sectorLength ≤ a → w'.disks k a = w.disks k a := by
  obtain ⟨buf, w₁, hmalloc, h⟩ := exec_bind.mp h
  have hquiet := World.malloc_quiet hmalloc
  obtain rfl := malloc_returns hπ.memory hmalloc
  refine ⟨hquiet.toKeeps.trans (World.writeWait_keeps h), ?_⟩
  obtain ⟨b, hdrift, ⟨_, rfl⟩ | ⟨hio, _⟩⟩ := exec_ask.mp h
  · obtain rfl := hdrift.evolves.of_idle (hquiet.idle hidle)
    refine ⟨fun a ha => ?_, fun k a hk => ?_⟩
    · show World.writeSector _ _ _ _ _ _ = _
      rw [World.writeSector, if_pos (by simpa using ha)]
      simp
    · rw [← hquiet.disks hidle]
      refine if_neg fun hc => ?_
      rcases hk with hne | hle
      · exact hne (Space.disk.inj hc.1)
      · have hlt := hc.2.2
        simp at hlt hle
        omega
  · exact absurd hio hπ.io

theorem collect_writes_run {k : ℕ} {ns : Fin k → ℕ} (hns : Function.Injective ns) {m : Fin k → MetaSector}
    {r : Fin k → ℤ} (hidle : w.flights = 0) (h : Runs π (collect fun i => sioWritePinit (ns i) (m i)) w r w') :
    w.Keeps w' ∧ (∀ i, ∀ a < sectorLength, w'.disks (ns i) a = (m i).toBytes a) ∧
      ∀ k a, (∀ i, ns i ≠ k) ∨ sectorLength ≤ a → w'.disks k a = w.disks k a := by
  induction k generalizing w w' with
  | zero =>
    obtain ⟨_, rfl⟩ := exec_pure.mp h
    exact ⟨.refl w', fun i => i.elim0, fun _ _ _ => rfl⟩
  | succ k ih =>
    obtain ⟨a, w₁, h₀, h⟩ := exec_bind.mp h
    obtain ⟨g, w₂, h₁, h⟩ := exec_bind.mp h
    obtain ⟨rfl, rfl⟩ := exec_pure.mp h
    obtain ⟨hkeeps, hfirst, hothers⟩ := sioWritePinit_run hπ hidle h₀
    have hinj : Function.Injective fun i : Fin k => ns i.succ := fun i j hij => Fin.succ_injective k (hns hij)
    have hzero : ∀ i : Fin k, ns i.succ ≠ ns 0 := fun i hi => Fin.succ_ne_zero i (hns hi)
    obtain ⟨hkeeps', hall, hrest⟩ := ih hinj (hkeeps.idle hidle) h₁
    have hzeroth : ∀ a < sectorLength, w'.disks (ns 0) a = (m 0).toBytes a := fun a ha => by
      rw [hrest _ a (Or.inl hzero), hfirst a ha]
    refine ⟨hkeeps.trans hkeeps', Fin.cases hzeroth hall, fun j a hj => ?_⟩
    rw [hrest j a (hj.imp (fun h i => h i.succ) id), hothers j a (hj.imp (fun h => (h 0).symm) id)]

theorem updateRaid_run {raid : NvmeRaid n} {r : Unit} (hidle : w.flights = 0)
    (h : Runs π (updateRaid raid) w r w') :
    w.Keeps w' ∧ SyncedOn raid w'.disks ∧
      ∀ k a, (∀ i, raid.ns i ≠ k) ∨ sectorLength ≤ a → w'.disks k a = w.disks k a := by
  obtain ⟨_, w₁, hall, h⟩ := exec_bind.mp h
  obtain ⟨_, rfl⟩ := exec_pure.mp h
  exact collect_writes_run hπ raid.ns.injective hidle hall

end reads

variable [NeZero n] {raid other : NvmeRaid n} {qsort : Qsort n} {σ : Equiv.Perm (Fin n)}

structure Headed (raid : NvmeRaid n) : Prop where
  magic : ∀ i, (raid.msector i).magic = magicNumber
  ids : ∀ i, (raid.msector i).diskId.toNat = i
  totals : ∀ i, (raid.msector i).totalDisks.toNat = n

def NvmeRaid.mounted (raid : NvmeRaid n) : NvmeRaid n :=
  { raid with numFiles := (raid.msector 0).totalFiles.toNat }

theorem Mountable.headed (h : Mountable raid) : Headed raid := ⟨h.magic, h.ids, h.totals⟩

theorem Headed.mountable (h : Headed raid) (hc : Counted raid) : Mountable raid :=
  ⟨h.magic, h.ids, h.totals, hc⟩

theorem Headed.change (h : Headed raid) (hc : TableChange raid other) : Headed other where
  magic i := by rw [(hc.sameHeader i).magic, h.magic i]
  ids i := by rw [(hc.sameHeader i).diskId, h.ids i]
  totals i := by rw [(hc.sameHeader i).totalDisks, h.totals i]

theorem Counted.mounted_eq (h : Counted raid) : raid.mounted = raid := by
  have hnum : ((raid.msector 0).totalFiles.toNat : ℤ) = raid.numFiles := by
    rw [h.total, h.num]
  unfold NvmeRaid.mounted
  rw [hnum]

theorem orderRaid_restores (hm : Headed raid) (hq : qsort.Sorts)
    (hns : ∀ i, other.ns i = raid.ns (σ i)) (hmsector : ∀ i, other.msector i = raid.msector (σ i))
    (ht : other.totalBlocks = raid.totalBlocks) : orderRaid qsort other = some raid.mounted := by
  let τ := qsort cmpIDisk other.disk
  have hmono : Monotone (τ.trans σ) := by
    intro i j hij
    have hle := hq.ascending other.disk hij
    simp only [NvmeRaid.disk, hmsector, hm.ids] at hle
    exact hle
  have hback : ∀ i, σ (τ i) = i := Equiv.congr_fun ((Equiv.Perm.monotone_iff _).mp hmono)
  have hms : (other.reorder τ).msector = raid.msector := by
    funext i
    show other.msector (τ i) = raid.msector i
    rw [hmsector, hback]
  have hnames : (other.reorder τ).ns = raid.ns := by
    ext i
    show other.ns (τ i) = raid.ns i
    rw [hns, hback]
  have haccept : ¬ Refused (other.reorder τ).msector := by
    rw [hms]
    rintro ⟨i, hi, _⟩
    exact hi (hm.ids i)
  have hraid : ({ other.reorder τ with numFiles := ((other.reorder τ).msector 0).totalFiles.toNat } : NvmeRaid n) =
      raid.mounted := by
    show NvmeRaid.mk (other.reorder τ).msector (other.reorder τ).ns _ other.totalBlocks = _
    rw [hms, hnames, ht]
    rfl
  exact (if_neg haccept).trans (congrArg some hraid)

def createRaidFrom (qsort : Qsort n) (raid : NvmeRaid n) (got : Fin n → ℤ × MetaSector) :
    Nvme (Option (NvmeRaid n)) :=
  let raid : NvmeRaid n := { raid with msector := fun i => (got i).2 }
  let cnt := initialised raid.msector
  if cnt = 0 then do
    let raid ← formatRaid raid
    pure (orderRaid qsort raid)
  else if cnt < n then pure none
  else pure (orderRaid qsort raid)

theorem createRaid_eq (qsort : Qsort n) (raid : NvmeRaid n) : createRaid qsort raid =
    collect (fun i => sioReadPinit (raid.ns i) (raid.msector i)) >>= createRaidFrom qsort raid := rfl

section tables
variable {r : Option (NvmeRaid n)} {disks : Disks} {got : Fin n → ℤ × MetaSector} (hm : Headed raid)
  (hq : qsort.Sorts) (hns : ∀ i, other.ns i = raid.ns (σ i)) (ht : other.totalBlocks = raid.totalBlocks)
include hm hq hns ht

theorem createRaidFrom_eq (hgot : ∀ i, (got i).2 = raid.msector (σ i)) :
    createRaidFrom qsort other got = pure (some raid.mounted) := by
  have hmagic : ∀ i, checkMeta (got i).2 = true := by
    intro i
    rw [hgot, checkMeta, hm.magic]
    rfl
  have hnot : ¬ initialised (fun i => (got i).2) < n := by
    intro hlt
    obtain ⟨i, hi⟩ := initialised_lt.mp hlt
    simp [hmagic i] at hi
  have hpos : ¬ initialised (fun i => (got i).2) = 0 := fun hz => hnot (hz ▸ Nat.pos_of_neZero n)
  let read : NvmeRaid n := { other with msector := fun i => (got i).2 }
  have horder : orderRaid qsort read = some raid.mounted := orderRaid_restores hm hq hns hgot ht
  unfold createRaidFrom
  simp only [if_neg hpos, if_neg hnot]
  exact congrArg pure horder

omit [NeZero n] hm hq ht in
theorem readTables_run (hπ : π.Smooth) (hs : SyncedOn raid disks) (hidle : w.flights = 0)
    (hdisks : w.disks = disks)
    (hreads : Runs π (collect fun i => sioReadPinit (other.ns i) (other.msector i)) w got w') :
    (∀ i, (got i).2 = raid.msector (σ i)) ∧ w.Quiet w' := by
  obtain ⟨hgot, hquiet⟩ := collect_reads_run hπ hidle hreads
  refine ⟨fun i => ?_, hquiet⟩
  rw [hgot i]
  apply MetaSector.ofBytes_toBytes
  intro a ha
  rw [hns, ← hs (σ i) a ha, ← hdisks, World.sector, UInt64.toNat_zero, Nat.zero_mul, Nat.zero_add]
  rfl

theorem createRaid_run (hπ : π.Smooth) (hs : SyncedOn raid disks) (hidle : w.flights = 0)
    (hdisks : w.disks = disks)
    (hrun : Runs π (createRaid qsort other) w r w') : r = some raid.mounted ∧ w.Quiet w' := by
  rw [createRaid_eq] at hrun
  obtain ⟨got, w₁, hreads, hrun⟩ := exec_bind.mp hrun
  obtain ⟨hgot, hquiet⟩ := readTables_run hns hπ hs hidle hdisks hreads
  rw [createRaidFrom_eq hm hq hns ht hgot] at hrun
  obtain ⟨rfl, rfl⟩ := exec_pure.mp hrun
  exact ⟨rfl, hquiet⟩

end tables
end PcapReplay
