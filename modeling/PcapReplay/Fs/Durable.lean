import PcapReplay.Fs.Remount

/-! Calls that report success although part of the metadata was not written. -/

namespace PcapReplay
open Interaction
variable {n : ℕ} [NeZero n]

def ReadsBack (raid : NvmeRaid n) (media : Media) : Prop :=
  ∀ qsort : Qsort n, qsort.Sorts → ∀ (σ : Equiv.Perm (Fin n)) (other : NvmeRaid n),
    (∀ i, other.ns i = raid.ns (σ i)) →
    ∃ raid', (createRaid qsort other).run (mountEnv media (outcomes fun _ : Fin n => .ok)) ⟨0, []⟩ =
        (some raid', ⟨n, []⟩) ∧
      raid'.msector = raid.msector ∧ raid'.ns = raid.ns ∧ raid'.numFiles = raid'.live.card

def MetaCall.reports (out : Fin n → WriteOutcome) (st : OnDisk n) : MetaCall → Bool
  | .add name blsize => (callOn out st.media (addFile st.raid name blsize)).1.1.isSome
  | .del name => (callOn out st.media (delFile st.raid name)).1.1 = 1
  | _ => false

/-- Success is reported only when the table is on the disks, which hold the table from before the
call or the one from after it in any case. -/
structure Durable (c : MetaCall) (out : Fin n → WriteOutcome) (st : OnDisk n) : Prop where
  synced : c.reports out st → Synced (c.exec out st).raid (c.exec out st).media
  whole : ReadsBack st.raid (c.exec out st).media ∨
    ReadsBack (c.exec out st).raid (c.exec out st).media

def SlotWritten (out : Fin n → WriteOutcome) (s : Option (Slot n)) : Prop :=
  ∀ t, s = some t → (out 0).isOk ∧ (out t.1).isOk

def MetaCall.Reaches (out : Fin n → WriteOutcome) (st : OnDisk n) : MetaCall → Prop
  | .add name blsize => Admits st.raid name blsize → SlotWritten out (freeSlot st.raid)
  | .del name => name 0 ≠ 0 → SlotWritten out (findFile st.raid name)
  | .copy name originSize fpcap =>
    (∀ s, findFile st.raid name = some s → originSize ≤ fileSize (st.raid.file s) → fpcap = false →
      (out s.1).isOk) ∧
    (Admits st.raid name (originBlocks originSize) → SlotWritten out (freeSlot st.raid))
  | .update => True

inductive DurableRun (raid₀ : NvmeRaid n) (media₀ : Media) : OnDisk n → Prop
  | format : DurableRun raid₀ media₀ (formatOn raid₀ media₀)
  | step {st : OnDisk n} (h : DurableRun raid₀ media₀ st) (c : MetaCall) (out : Fin n → WriteOutcome)
      (hr : c.Reaches out st) : DurableRun raid₀ media₀ (c.exec out st)

theorem readsBack_of_synced {raid : NvmeRaid n} {media : Media} (hm : Mountable raid)
    (hs : Synced raid media) : ReadsBack raid media := by
  intro qsort hq σ other hns
  obtain ⟨raid', hrun, hsame⟩ := createRaid_of_synced hm hs hq hns
  have hlive : raid'.live = raid.live := by
    ext s
    simp [NvmeRaid.Live, NvmeRaid.file, hsame.msector]
  refine ⟨raid', hrun, hsame.msector, hsame.ns, ?_⟩
  rw [hsame.numFiles, hm.counted.num, hlive]

section change
variable {raid : NvmeRaid n} {s : Slot n}

theorem msector_countFiles_setFile (f : MetaFile) (total : UInt8) (num : ℤ) {i : Fin n} (h0 : i ≠ 0)
    (hs : i ≠ s.1) : (countFiles (raid.setFile s f) total num).msector i = raid.msector i := by
  simp [countFiles, NvmeRaid.setFile, h0, hs]

omit [NeZero n] in
theorem msector_setFile {f : MetaFile} {i : Fin n} (hs : i ≠ s.1) :
    (raid.setFile s f).msector i = raid.msector i := by
  simp [NvmeRaid.setFile, hs]

omit [NeZero n] in
theorem ok_of_synced {raid' : NvmeRaid n} {out : Fin n → WriteOutcome} {media : Media}
    (hs : Synced raid media) (hns : raid'.ns = raid.ns) (hs' : Synced raid' (written raid' out media))
    {i : Fin n} (hne : raid'.msector i ≠ raid.msector i) : (out i).isOk := by
  by_contra hi
  have hcell := hs' i
  rw [written_ns, if_neg hi, hns, hs i] at hcell
  exact hne (toBytes_injective hcell).symm

theorem slotWritten_iff {raid' : NvmeRaid n} {out : Fin n → WriteOutcome} {media : Media}
    (hs : Synced raid media) (hns : raid'.ns = raid.ns)
    (htotal : (raid'.msector 0).totalFiles ≠ (raid.msector 0).totalFiles)
    (hfile : (raid'.file s).name 0 ≠ (raid.file s).name 0)
    (hothers : ∀ i, i ≠ 0 → i ≠ s.1 → raid'.msector i = raid.msector i) :
    Synced raid' (written raid' out media) ↔ SlotWritten out (some s) := by
  constructor
  · intro h t ht
    obtain rfl := Option.some.inj ht
    refine ⟨ok_of_synced hs hns h fun he => htotal (by rw [he]), ok_of_synced hs hns h fun he => hfile ?_⟩
    rw [NvmeRaid.file, NvmeRaid.file, he]
  · intro h
    obtain ⟨hzero, hslot⟩ := h s rfl
    refine synced_written_of hs hns fun i => ?_
    by_cases h0 : i = 0
    · exact Or.inr (h0 ▸ hzero)
    · by_cases hi : i = s.1
      · exact Or.inr (hi ▸ hslot)
      · exact Or.inl (hothers i h0 hi)

theorem synced_tableAdd_iff {out : Fin n → WriteOutcome} {media : Media} (hs : Synced raid media)
    {name : Name} {blsize : UInt64} (hname : name 0 ≠ 0) (hdead : ¬ raid.Live s) :
    Synced (tableAdd raid s name blsize) (written (tableAdd raid s name blsize) out media) ↔
      SlotWritten out (some s) := by
  refine slotWritten_iff hs rfl ?_ ?_ fun i h0 hi => msector_countFiles_setFile _ _ _ h0 hi
  · simp [tableAdd, countFiles]
  · rw [file_tableAdd_self]
    exact fun he => hdead fun h0 => hname (he.trans h0)

theorem synced_tableDel_iff {out : Fin n → WriteOutcome} {media : Media} (hs : Synced raid media)
    (hlive : raid.Live s) :
    Synced (tableDel raid s) (written (tableDel raid s) out media) ↔ SlotWritten out (some s) := by
  refine slotWritten_iff hs rfl ?_ ?_ fun i h0 hi => msector_countFiles_setFile _ _ _ h0 hi
  · have hone : (raid.msector 0).totalFiles - 1 ≠ (raid.msector 0).totalFiles := by
      have h256 := (raid.msector 0).totalFiles.toNat_lt
      rw [Ne, ← UInt8.toNat_inj, UInt8.toNat_sub, UInt8.toNat_one]
      omega
    have htotal : ((tableDel raid s).msector 0).totalFiles = (raid.msector 0).totalFiles - 1 := by
      simp [tableDel, countFiles]
    rwa [htotal]
  · have hcleared : ((tableDel raid s).file s).name 0 = 0 := by
      simp [tableDel]
    rw [hcleared]
    exact Ne.symm hlive

end change

section call
variable {st : OnDisk n} {out : Fin n → WriteOutcome} {name : Name} {blsize : UInt64}

theorem durable_of_same {c : MetaCall} (hm : Mountable st.raid) (hs : Synced st.raid st.media)
    (heq : c.exec out st = st) : Durable c out st := by
  refine ⟨fun _ => ?_, Or.inl ?_⟩
  · rwa [heq]
  · rw [heq]
    exact readsBack_of_synced hm hs

theorem durable_of_synced {c : MetaCall} (hn : n ≤ maxDisks) (hm : Mountable st.raid)
    (hs : Synced (c.exec out st).raid (c.exec out st).media) : Durable c out st :=
  ⟨fun _ => hs, Or.inr (readsBack_of_synced (c.exec_mountable hn out hm) hs)⟩

theorem durable_iff_slotWritten {c : MetaCall} {raid' : NvmeRaid n} {s : Slot n} (hn : n ≤ maxDisks)
    (hm : Mountable st.raid) (hexec : c.exec out st = ⟨raid', written raid' out st.media⟩)
    (hreports : c.reports out st)
    (hiff : Synced raid' (written raid' out st.media) ↔ SlotWritten out (some s)) :
    Durable c out st ↔ SlotWritten out (some s) := by
  rw [← hiff]
  constructor
  · intro h
    have hsync := h.synced hreports
    rwa [hexec] at hsync
  · intro h
    apply durable_of_synced hn hm
    rwa [hexec]

theorem slotWritten_none : SlotWritten out none := fun t ht => absurd ht (by simp)

variable (hn : n ≤ maxDisks) (hm : Mountable st.raid) (hs : Synced st.raid st.media)
include hn hm hs

theorem durable_add_iff :
    Durable (.add name blsize) out st ↔ (MetaCall.add name blsize).Reaches out st := by
  rcases callOn_addFile out st.media st.raid name blsize with ⟨heq, hno⟩ | ⟨s, heq, ha, hfree⟩
  · refine iff_of_true (durable_of_same hm hs (by rw [MetaCall.exec, heq])) fun ha => ?_
    rw [hno ha]
    exact slotWritten_none
  · have hexec : (MetaCall.add name blsize).exec out st =
        ⟨tableAdd st.raid s name blsize, written (tableAdd st.raid s name blsize) out st.media⟩ := by
      rw [MetaCall.exec, heq]
    have hreports : (MetaCall.add name blsize).reports out st := by
      rw [MetaCall.reports, heq]
      rfl
    rw [durable_iff_slotWritten hn hm hexec hreports (synced_tableAdd_iff hs ha.named (freeSlot_dead hfree)),
      MetaCall.Reaches, hfree]
    exact ⟨fun h _ => h, fun h => h ha⟩

theorem durable_del_iff : Durable (.del name) out st ↔ (MetaCall.del name).Reaches out st := by
  rcases callOn_delFile out st.media st.raid name with ⟨heq, hno⟩ | ⟨s, heq, hname, hfound⟩
  · refine iff_of_true (durable_of_same hm hs (by rw [MetaCall.exec, heq])) fun hname => ?_
    rw [hno hname]
    exact slotWritten_none
  · have hexec : (MetaCall.del name).exec out st =
        ⟨tableDel st.raid s, written (tableDel st.raid s) out st.media⟩ := by
      rw [MetaCall.exec, heq]
    have hreports : (MetaCall.del name).reports out st := by
      rw [MetaCall.reports, heq]
      rfl
    rw [durable_iff_slotWritten hn hm hexec hreports (synced_tableDel_iff hs (findFile_live hname hfound)),
      MetaCall.Reaches, hfound]
    exact ⟨fun h _ => h, fun h => h hname⟩

omit hn hm in
theorem exec_add_synced (hr : (MetaCall.add name blsize).Reaches out st) :
    Synced ((MetaCall.add name blsize).exec out st).raid ((MetaCall.add name blsize).exec out st).media := by
  rcases callOn_addFile out st.media st.raid name blsize with ⟨heq, _⟩ | ⟨s, heq, ha, hfree⟩
  · rwa [MetaCall.exec, heq]
  · rw [MetaCall.exec, heq]
    have hwritten := hr ha
    rw [hfree] at hwritten
    exact (synced_tableAdd_iff hs ha.named (freeSlot_dead hfree)).mpr hwritten

omit hn hm in
theorem MetaCall.exec_synced_of_reaches {c : MetaCall} (hr : c.Reaches out st) :
    Synced (c.exec out st).raid (c.exec out st).media := by
  cases c with
  | add name blsize => exact exec_add_synced hs hr
  | del name =>
    rcases callOn_delFile out st.media st.raid name with ⟨heq, _⟩ | ⟨s, heq, hname, hfound⟩
    · rwa [MetaCall.exec, heq]
    · rw [MetaCall.exec, heq]
      have hwritten := hr hname
      rw [hfound] at hwritten
      exact (synced_tableDel_iff hs (findFile_live hname hfound)).mpr hwritten
  | copy name originSize fpcap =>
    rcases callOn_copyTarget out st.media st.raid name originSize fpcap with
      heq | ⟨s, heq, hfound, ho, hp⟩ | ⟨r, heq, hr'⟩
    · rwa [MetaCall.exec, heq]
    · rw [MetaCall.exec, heq]
      refine synced_written_of hs rfl fun i => ?_
      by_cases hi : i = s.1
      · exact Or.inr (hi ▸ hr.1 s hfound ho hp)
      · exact Or.inl (msector_setFile hi)
    · have hadd := exec_add_synced hs hr.2
      rw [MetaCall.exec, hr'] at hadd
      rwa [MetaCall.exec, heq]
  | update =>
    rw [MetaCall.exec, callOn_updateRaid_only]
    exact synced_written_of hs rfl fun i => Or.inl rfl

end call

theorem DurableRun.spec {raid₀ : NvmeRaid n} {media₀ : Media} {st : OnDisk n} (hn : n ≤ maxDisks)
    (h0 : raid₀.numFiles = 0) (h : DurableRun raid₀ media₀ st) :
    Mountable st.raid ∧ Synced st.raid st.media := by
  induction h with
  | format =>
    rw [formatOn_eq]
    exact ⟨mountable_formatted hn h0, synced_written (fun _ => rfl) media₀⟩
  | step _ c out hr ih => exact ⟨c.exec_mountable hn out ih.1, c.exec_synced_of_reaches ih.2 hr⟩

/-- After calls that have written all that they changed, the next one is durable exactly if it does
so too. -/
theorem durable_iff_reaches (hn : n ≤ maxDisks) {raid₀ : NvmeRaid n} (h0 : raid₀.numFiles = 0)
    {media₀ : Media} {st : OnDisk n} (h : DurableRun raid₀ media₀ st) (out : Fin n → WriteOutcome) :
    (∀ name blsize, Durable (.add name blsize) out st ↔ (MetaCall.add name blsize).Reaches out st) ∧
      ∀ name, Durable (.del name) out st ↔ (MetaCall.del name).Reaches out st := by
  obtain ⟨hm, hs⟩ := h.spec hn h0
  exact ⟨fun _ _ => durable_add_iff hn hm hs, fun _ => durable_del_iff hn hm hs⟩

theorem durable_iff_reaches_one_disk :
    Durable (.add (fun _ => 65) 3) (fun _ => .ok) (formatOn oneDisk fun _ _ => 0) :=
  ((durable_iff_reaches (by decide) rfl .format fun _ => .ok).1 _ _).mpr fun _ _ _ => ⟨rfl, rfl⟩

/-- The only metadata write of a call on one disk is refused, and the call reports success. -/
theorem not_durable_refused_write :
    ¬ ∀ out name blsize, Durable (.add name blsize) out (formatOn oneDisk fun _ _ => 0) := by
  intro h
  have hstart := formatOn_eq oneDisk fun _ _ => 0
  have hm : Mountable (formatOn oneDisk fun _ _ => 0).raid := by
    rw [hstart]
    exact mountable_formatted (by decide) rfl
  have hs : Synced (formatOn oneDisk fun _ _ => 0).raid (formatOn oneDisk fun _ _ => 0).media := by
    rw [hstart]
    exact synced_written (fun _ => rfl) _
  have hdurable := h (fun _ => .ioError ⟨-5, by decide⟩) (fun _ => 65) 3
  have hreach := (durable_add_iff (by decide) hm hs).mp hdurable
  rw [hstart] at hreach
  have ha : Admits (formatted oneDisk) (fun _ => 65) 3 :=
    ⟨by decide +kernel, by decide, by decide +kernel, by decide⟩
  have hfree : freeSlot (formatted oneDisk) = some (0, 0) := by decide +kernel
  exact absurd (hreach ha (0, 0) hfree).1 (by decide)

end PcapReplay
