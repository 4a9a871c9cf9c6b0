import PcapReplay.Fs.Integrity
import PcapReplay.Fs.Persist
import PcapReplay.Fs.Addressing

/-! The file system that a later process finds, in whatever order it attaches the disks. -/

namespace PcapReplay
open Interaction
variable {n : ℕ} [NeZero n]

def formatOn (raid : NvmeRaid n) (media : Media) : OnDisk n :=
  let r := callOn (fun _ : Fin n => .ok) media (formatRaid raid)
  ⟨r.1, r.2⟩

def history (calls : List MetaCall) (st : OnDisk n) : OnDisk n :=
  calls.foldl (fun st c => c.exec (fun _ => .ok) st) st

omit [NeZero n] in
theorem formatOn_eq (raid : NvmeRaid n) (media : Media) :
    formatOn raid media = ⟨formatted raid, written (formatted raid) (fun _ => .ok) media⟩ := by
  have hcall : callOn (fun _ : Fin n => .ok) media (formatRaid raid) =
      (formatted raid, written (formatted raid) (fun _ => .ok) media) :=
    callOn_updateRaid _ media (formatted raid) (formatted raid)
  rw [formatOn, hcall]

theorem MetaCall.exec_synced (c : MetaCall) {st : OnDisk n} (h : Synced st.raid st.media) :
    Synced (c.exec (fun _ => .ok) st).raid (c.exec (fun _ => .ok) st).media := by
  rcases c.exec_cases (fun _ => .ok) st with heq | ⟨raid', heq, _⟩
  · rwa [heq]
  · rw [heq]
    exact synced_written (fun _ => rfl) st.media

theorem history_spec (hn : n ≤ maxDisks) (calls : List MetaCall) {st : OnDisk n}
    (hm : Mountable st.raid) (hs : Synced st.raid st.media) :
    Mountable (history calls st).raid ∧ Synced (history calls st).raid (history calls st).media := by
  induction calls generalizing st with
  | nil => exact ⟨hm, hs⟩
  | cons c calls ih => exact ih (c.exec_mountable hn _ hm) (c.exec_synced hs)

theorem history_ns (calls : List MetaCall) (st : OnDisk n) : (history calls st).raid.ns = st.raid.ns := by
  induction calls generalizing st with
  | nil => rfl
  | cons c calls ih => exact (ih _).trans (c.exec_ns _ st)

/-- With a comparison that orders the disks, `qsort` leaves `a` before `b` where the comparison of
the two is at most 0. -/
def Qsort.Sorts (qsort : Qsort n) : Prop :=
  ∀ (cmp : IDisk → IDisk → ℤ) (d : Fin n → IDisk), (∀ a b, cmp a b ≤ 0 ∨ cmp b a ≤ 0) →
    (∀ a b c, cmp a b ≤ 0 → cmp b c ≤ 0 → cmp a c ≤ 0) →
      ∀ i j, i ≤ j → cmp (d (qsort cmp d i)) (d (qsort cmp d j)) ≤ 0

theorem cmpIDisk_le (a b : IDisk) : cmpIDisk a b ≤ 0 ↔ a.msector.diskId.toNat ≤ b.msector.diskId.toNat := by
  rw [cmpIDisk, ← UInt8.le_iff_toNat_le]
  split_ifs with h
  · simpa using UInt8.not_le.mpr h
  · simpa using UInt8.not_lt.mp h

omit [NeZero n] in
theorem Qsort.Sorts.ascending {qsort : Qsort n} (h : qsort.Sorts) : qsort.Ascending := by
  intro d i j hij
  have hle := h cmpIDisk d
  simp only [cmpIDisk_le] at hle
  exact hle (fun a b => Nat.le_total _ _) (fun a b c => Nat.le_trans) i j hij

def location (raid : NvmeRaid n) (lba : UInt64) : ℕ × UInt64 :=
  (raid.ns (superGetdisk n lba), superGetdisklba n lba)

omit [NeZero n] in
theorem findFile_congr {raid raid' : NvmeRaid n} (h : raid'.msector = raid.msector) (name : Name) :
    findFile raid' name = findFile raid name := by
  have hfile : raid'.file = raid.file := by
    funext s
    rw [NvmeRaid.file, NvmeRaid.file, h]
  rw [findFile, findFile, hfile]

structure SameFiles (raid raid' : NvmeRaid n) : Prop where
  ns : raid'.ns = raid.ns
  msector : raid'.msector = raid.msector
  numFiles : raid'.numFiles = raid.numFiles
  findFile : ∀ name, findFile raid' name = findFile raid name
  location : ∀ lba, location raid' lba = location raid lba

section remount
variable {raid other : NvmeRaid n} {media : Media} {qsort : Qsort n}

omit [NeZero n] in
theorem onMedia_of_synced {σ : Equiv.Perm (Fin n)} (hs : Synced raid media)
    (hns : ∀ i, other.ns i = raid.ns (σ i)) (i : Fin n) :
    (onMedia media other).msector i = raid.msector (σ i) := by
  show MetaSector.ofBytes (media (other.ns i)) = _
  rw [hns, hs (σ i)]
  exact MetaSector.ofBytes_toBytes _ fun _ _ => rfl

theorem sorted_perm {σ τ : Equiv.Perm (Fin n)} (hm : Mountable raid)
    (hσ : Monotone fun i => (raid.msector (σ (τ i))).diskId.toNat) (i : Fin n) : σ (τ i) = i := by
  have hmono : Monotone (τ.trans σ) := by
    intro i j hij
    have h := hσ hij
    simp only [hm.ids] at h
    exact h
  have hone := (Equiv.Perm.monotone_iff _).mp hmono
  exact Equiv.congr_fun hone i

theorem createRaid_of_synced (hm : Mountable raid) (hs : Synced raid media) (hq : qsort.Sorts)
    {σ : Equiv.Perm (Fin n)} (hns : ∀ i, other.ns i = raid.ns (σ i)) :
    ∃ raid', (createRaid qsort other).run (mountEnv media (outcomes fun _ : Fin n => .ok)) ⟨0, []⟩ =
        (some raid', ⟨n, []⟩) ∧ SameFiles raid raid' := by
  have hread := onMedia_of_synced hs hns
  have hmagic : ∀ i, checkMeta ((onMedia media other).msector i) = true := by
    intro i
    rw [hread, checkMeta, hm.magic]
    rfl
  have hnot : ¬ initialised (onMedia media other).msector < n := by
    intro hlt
    obtain ⟨i, hi⟩ := initialised_lt.mp hlt
    simp [hmagic i] at hi
  have hpos : ¬ initialised (onMedia media other).msector = 0 := by
    intro hz
    exact hnot (hz ▸ Nat.pos_of_neZero n)
  have hrun : (createRaid qsort other).run (mountEnv media (outcomes fun _ : Fin n => .ok)) ⟨0, []⟩ =
      (orderRaid qsort (onMedia media other), ⟨n, []⟩) := by
    rw [run_createRaid]
    exact (if_neg hpos).trans (if_neg hnot)
  let τ := qsort cmpIDisk (onMedia media other).disk
  have hback : ∀ i, σ (τ i) = i := by
    apply sorted_perm hm
    intro i j hij
    have hle := hq.ascending (onMedia media other).disk hij
    simpa only [NvmeRaid.disk, hread] using hle
  have hms : ((onMedia media other).reorder τ).msector = raid.msector := by
    funext i
    show (onMedia media other).msector (τ i) = raid.msector i
    rw [hread, hback]
  have hnames : ((onMedia media other).reorder τ).ns = raid.ns := by
    ext i
    show other.ns (τ i) = raid.ns i
    rw [hns, hback]
  have haccept : ¬ Refused ((onMedia media other).reorder τ).msector := by
    rw [hms]
    rintro ⟨i, hi, _⟩
    exact hi (hm.ids i)
  refine ⟨_, hrun.trans (Prod.ext (if_neg haccept) rfl), hnames, hms, ?_, findFile_congr hms, fun lba => ?_⟩
  · show (((onMedia media other).reorder τ).msector 0).totalFiles.toNat = raid.numFiles
    rw [hms, hm.counted.total, hm.counted.num]
  · show (((onMedia media other).reorder τ).ns (superGetdisk n lba), _) = location raid lba
    rw [hnames, location]

end remount

/-- Whatever has happened to the file system, a later process mounts the same one. -/
theorem createRaid_restores (hn : n ≤ maxDisks) {raid₀ : NvmeRaid n} (h0 : raid₀.numFiles = 0)
    (media₀ : Media) (calls : List MetaCall) {qsort : Qsort n} (hq : qsort.Sorts) {st : OnDisk n}
    (hst : st = history calls (formatOn raid₀ media₀)) (σ : Equiv.Perm (Fin n)) (other : NvmeRaid n)
    (hns : ∀ i, other.ns i = st.raid.ns (σ i)) :
    ∃ raid', (createRaid qsort other).run (mountEnv st.media (outcomes fun _ : Fin n => .ok)) ⟨0, []⟩ =
      (some raid', ⟨n, []⟩) ∧ SameFiles st.raid raid' := by
  have hm : Mountable (formatOn raid₀ media₀).raid := by
    rw [formatOn_eq]
    exact mountable_formatted hn h0
  have hs : Synced (formatOn raid₀ media₀).raid (formatOn raid₀ media₀).media := by
    rw [formatOn_eq]
    exact synced_written (fun _ => rfl) media₀
  obtain ⟨hm, hs⟩ := history_spec hn calls hm hs
  rw [← hst] at hm hs
  exact createRaid_of_synced hm hs hq hns

def sortTwo : Qsort 2 := fun cmp d => if cmp (d 0) (d 1) ≤ 0 then 1 else Equiv.swap 0 1

theorem sortTwo_sorts : sortTwo.Sorts := by
  intro cmp d htotal _ i j hij
  have hself : ∀ a, cmp a a ≤ 0 := fun a => (htotal a a).elim id id
  have hfirst : cmp (d (sortTwo cmp d 0)) (d (sortTwo cmp d 1)) ≤ 0 := by
    unfold sortTwo
    split_ifs with h
    · exact h
    · exact (htotal (d 0) (d 1)).resolve_left h
  match i, j with
  | 0, 0 => exact hself _
  | 0, 1 => exact hfirst
  | 1, 1 => exact hself _

theorem createRaid_restores_two_disks : ∃ raid',
    (createRaid sortTwo { twoDisks with ns := (Equiv.swap 0 1).toEmbedding.trans twoDisks.ns }).run
      (mountEnv (history [.add (fun _ => 65) 3] (formatOn twoDisks fun _ _ => 0)).media
        (outcomes fun _ : Fin 2 => .ok)) ⟨0, []⟩ = (some raid', ⟨2, []⟩) ∧
      SameFiles (history [.add (fun _ => 65) 3] (formatOn twoDisks fun _ _ => 0)).raid raid' := by
  refine createRaid_restores (by decide) rfl (fun _ _ => 0) [.add (fun _ => 65) 3] sortTwo_sorts rfl
    (Equiv.swap 0 1) _ fun i => ?_
  rw [history_ns, formatOn_eq]
  rfl

end PcapReplay
