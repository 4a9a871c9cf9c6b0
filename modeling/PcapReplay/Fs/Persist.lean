import PcapReplay.Fs.Invariant

/-! Metadata writes that may fail, and the table that they leave on the disks. -/

namespace PcapReplay
open Interaction
variable {n : ℕ}

inductive WriteOutcome where
  | ok
  -- the pinned buffer could not be allocated
  | noMemory
  -- the write was refused, and the sector keeps what it holds
  | ioError (rc : {rc : ℤ // rc ≠ 0})

def WriteOutcome.isOk : WriteOutcome → Bool
  | .ok => true
  | _ => false

abbrev Media := ℕ → Sector

structure UpdateState where
  writes : ℕ
  media : Media

def updateEnv (out : ℕ → WriteOutcome) : (o : Op) → UpdateState → Ans o × UpdateState
  | .malloc _ _, s =>
    match out s.writes with
    | .noMemory => (none, { s with writes := s.writes + 1 })
    | _ => (some 0, s)
  | .writeWait ns _ data, s =>
    match out s.writes with
    | .ioError rc => (rc, { s with writes := s.writes + 1 })
    | _ => (0, ⟨s.writes + 1, Function.update s.media ns data⟩)
  | .readWait ns _, s => ((0, s.media ns), s)
  | .cmd _, s => (0, s)
  | .schedule, s => ((), s)
  | .process _, s => ((), s)
  | .waiting, s => (false, s)
  | .memcpy _ _ _, s => ((), s)

def writeOutcomes (out : Fin n → WriteOutcome) (k : ℕ) : WriteOutcome :=
  if h : k < n then out ⟨k, h⟩ else .ok

def callOn {α : Type} (out : Fin n → WriteOutcome) (media : Media) (p : Nvme α) : α × Media :=
  let r := p.run (updateEnv (writeOutcomes out)) ⟨0, media⟩
  (r.1, r.2.media)

def written (raid : NvmeRaid n) (out : Fin n → WriteOutcome) (media : Media) : Media := fun k =>
  match (List.finRange n).find? fun i => raid.ns i = k with
  | none => media k
  | some i => if (out i).isOk then (raid.msector i).toBytes else media k

theorem written_ns (raid : NvmeRaid n) (out : Fin n → WriteOutcome) (media : Media) (i : Fin n) :
    written raid out media (raid.ns i) =
      if (out i).isOk then (raid.msector i).toBytes else media (raid.ns i) := by
  have hfind : ((List.finRange n).find? fun j => raid.ns j = raid.ns i) = some i := by
    cases h : (List.finRange n).find? fun j => raid.ns j = raid.ns i with
    | none => simpa using List.find?_eq_none.mp h i (List.mem_finRange i)
    | some j =>
      have hns : raid.ns j = raid.ns i := by simpa using List.find?_some h
      rw [raid.ns.injective hns]
  rw [written, hfind]

theorem written_of_not (raid : NvmeRaid n) (out : Fin n → WriteOutcome) (media : Media) {k : ℕ}
    (hk : ∀ i, raid.ns i ≠ k) : written raid out media k = media k := by
  have hfind : ((List.finRange n).find? fun j => raid.ns j = k) = none := by
    simpa using hk
  rw [written, hfind]

theorem run_sioWritePinit (out : ℕ → WriteOutcome) (ns : ℕ) (m : MetaSector) (s : UpdateState) :
    ∀ s', ((sioWritePinit ns m).run (updateEnv out) s).2 = s' →
      s'.writes = s.writes + 1 ∧
        s'.media ns = (if (out s.writes).isOk then m.toBytes else s.media ns) ∧
        ∀ k, ns ≠ k → s'.media k = s.media k := by
  rintro _ rfl
  have hne : ∀ k, ns ≠ k → Function.update s.media ns m.toBytes k = s.media k := fun k hk =>
    Function.update_of_ne (Ne.symm hk) _ _
  cases ho : out s.writes with
  | ok => simpa [sioWritePinit, spdkMalloc, sioWrite, Op.ask, updateEnv, WriteOutcome.isOk, ho] using hne
  | noMemory => simp [sioWritePinit, spdkMalloc, Op.ask, updateEnv, WriteOutcome.isOk, ho]
  | ioError rc => simp [sioWritePinit, spdkMalloc, sioWrite, Op.ask, updateEnv, WriteOutcome.isOk, ho]

theorem run_collect_writes (out : ℕ → WriteOutcome) {ns : Fin n → ℕ} (hns : Function.Injective ns)
    (m : Fin n → MetaSector) (s : UpdateState) :
    ∀ s', ((Prog.collect fun i => sioWritePinit (ns i) (m i)).run (updateEnv out) s).2 = s' →
      (∀ i, s'.media (ns i) = if (out (s.writes + i)).isOk then (m i).toBytes else s.media (ns i)) ∧
        ∀ k, (∀ i, ns i ≠ k) → s'.media k = s.media k := by
  induction n generalizing s with
  | zero =>
    rintro _ rfl
    exact ⟨fun i => i.elim0, fun k _ => rfl⟩
  | succ n ih =>
    intro s' hs'
    simp only [Prog.collect, Prog.run_bind, Prog.run_pure] at hs'
    obtain ⟨hwrites, hfirst, hkept⟩ := run_sioWritePinit out (ns 0) (m 0) s _ rfl
    have hinj : Function.Injective fun i : Fin n => ns i.succ := fun i j hij =>
      Fin.succ_injective n (hns hij)
    have hzero : ∀ i : Fin n, ns 0 ≠ ns i.succ := fun i hi => Fin.succ_ne_zero i (hns hi).symm
    obtain ⟨hall, hothers⟩ := ih hinj (fun i => m i.succ) _ s' hs'
    refine ⟨fun i => ?_, fun k hk => ?_⟩
    · refine Fin.cases ?_ (fun i => ?_) i
      · rw [hothers _ fun i => (hzero i).symm, hfirst]
        rfl
      · have hsum : s.writes + 1 + (i : ℕ) = s.writes + (i.succ : ℕ) := by
          rw [Fin.val_succ]
          omega
        rw [hall i, hwrites, hsum, hkept _ (hzero i)]
    · rw [hothers k fun i => hk i.succ, hkept k (hk 0)]

section calls
variable {α : Type} (out : Fin n → WriteOutcome) (media : Media)

@[simp] theorem callOn_pure (a : α) : callOn out media (pure a : Nvme α) = (a, media) := rfl

theorem callOn_updateRaid (raid : NvmeRaid n) (a : α) :
    callOn out media (do updateRaid raid; pure a) = (a, written raid out media) := by
  obtain ⟨hall, hothers⟩ := run_collect_writes (writeOutcomes out) raid.ns.injective raid.msector
    ⟨0, media⟩ _ rfl
  refine Prod.ext ?_ ?_
  · simp only [callOn, Prog.run_bind, Prog.run_pure]
  · simp only [callOn, updateRaid, Prog.run_bind, Prog.run_pure]
    funext k
    by_cases hk : ∃ i, raid.ns i = k
    · obtain ⟨i, rfl⟩ := hk
      rw [written_ns, hall i]
      simp [writeOutcomes]
    · push Not at hk
      rw [written_of_not raid out media hk]
      exact hothers k hk

theorem callOn_updateRaid_only (raid : NvmeRaid n) :
    callOn out media (updateRaid raid) = ((), written raid out media) := by
  have hunit : (do updateRaid raid; pure () : Nvme Unit) = updateRaid raid := Prog.bind_done _
  rw [← hunit, callOn_updateRaid]

variable [NeZero n] (raid : NvmeRaid n) (name : Name)

theorem callOn_addFile (blsize : UInt64) :
    (callOn out media (addFile raid name blsize) = ((none, raid), media) ∧
        (Admits raid name blsize → freeSlot raid = none)) ∨
      ∃ s, callOn out media (addFile raid name blsize) = ((some s, tableAdd raid s name blsize),
          written (tableAdd raid s name blsize) out media) ∧
        Admits raid name blsize ∧ freeSlot raid = some s := by
  rcases addFile_eq raid name blsize with ⟨heq, hno⟩ | ⟨s, heq, ha, hs⟩
  · exact Or.inl ⟨by rw [heq, callOn_pure], hno⟩
  · exact Or.inr ⟨s, by rw [heq, callOn_updateRaid], ha, hs⟩

theorem callOn_delFile :
    (callOn out media (delFile raid name) = ((0, raid), media) ∧
        (name 0 ≠ 0 → findFile raid name = none)) ∨
      ∃ s, callOn out media (delFile raid name) = ((1, tableDel raid s),
          written (tableDel raid s) out media) ∧
        name 0 ≠ 0 ∧ findFile raid name = some s := by
  rcases delFile_eq raid name with ⟨heq, hno⟩ | ⟨s, heq, hname, hs⟩
  · exact Or.inl ⟨by rw [heq, callOn_pure], hno⟩
  · exact Or.inr ⟨s, by rw [heq, callOn_updateRaid], hname, hs⟩

theorem callOn_copyTarget (originSize : UInt64) (fpcap : Bool) :
    callOn out media (copyTarget raid name originSize fpcap) = ((.stop, raid), media) ∨
      (∃ s, callOn out media (copyTarget raid name originSize fpcap) =
          ((.file (some s), tableShrink raid s originSize),
            written (tableShrink raid s originSize) out media) ∧
        findFile raid name = some s ∧ originSize ≤ fileSize (raid.file s) ∧ fpcap = false) ∨
      ∃ r, callOn out media (copyTarget raid name originSize fpcap) = ((.file r.1.1, r.1.2), r.2) ∧
        callOn out media (addFile raid name (originBlocks originSize)) = r := by
  rcases copyTarget_eq raid name originSize fpcap with heq | ⟨s, heq, hs⟩ | ⟨heq, _⟩
  · exact Or.inl (by rw [heq, callOn_pure])
  · exact Or.inr (Or.inl ⟨s, by rw [heq, callOn_updateRaid], hs⟩)
  · refine Or.inr (Or.inr ⟨_, ?_, rfl⟩)
    simp only [heq, callOn, Prog.run_bind, Prog.run_pure]

end calls

def Synced (raid : NvmeRaid n) (media : Media) : Prop :=
  ∀ i, media (raid.ns i) = (raid.msector i).toBytes

theorem synced_written {raid : NvmeRaid n} {out : Fin n → WriteOutcome} (hout : ∀ i, (out i).isOk)
    (media : Media) : Synced raid (written raid out media) := by
  intro i
  rw [written_ns, if_pos (hout i)]

theorem synced_written_of {raid raid' : NvmeRaid n} {out : Fin n → WriteOutcome} {media : Media}
    (h : Synced raid media) (hns : raid'.ns = raid.ns)
    (hout : ∀ i, raid'.msector i = raid.msector i ∨ (out i).isOk) :
    Synced raid' (written raid' out media) := by
  intro i
  rw [written_ns]
  split_ifs with hi
  · rfl
  · rw [hns, h i, (hout i).resolve_right hi]

theorem toBytes_injective : Function.Injective MetaSector.toBytes := by
  intro m m' h
  rw [← MetaSector.ofBytes_toBytes m fun _ _ => rfl, h]
  exact (MetaSector.ofBytes_toBytes m' fun _ _ => rfl)

structure SameHeader (m' m : MetaSector) : Prop where
  magic : m'.magic = m.magic
  version : m'.version = m.version
  diskId : m'.diskId = m.diskId
  totalDisks : m'.totalDisks = m.totalDisks

theorem sameHeader_setFile (raid : NvmeRaid n) (s : Slot n) (f : MetaFile) (i : Fin n) :
    SameHeader ((raid.setFile s f).msector i) (raid.msector i) := by
  by_cases hi : i = s.1
  · subst hi
    constructor <;> simp [NvmeRaid.setFile]
  · constructor <;> simp [NvmeRaid.setFile, hi]

theorem sameHeader_countFiles [NeZero n] (raid : NvmeRaid n) (total : UInt8) (num : ℤ) (i : Fin n) :
    SameHeader ((countFiles raid total num).msector i) (raid.msector i) := by
  by_cases hi : i = 0
  · subst hi
    constructor <;> simp [countFiles]
  · constructor <;> simp [countFiles, hi]

theorem SameHeader.trans {m m' m'' : MetaSector} (h : SameHeader m'' m') (h' : SameHeader m' m) :
    SameHeader m'' m :=
  ⟨h.magic.trans h'.magic, h.version.trans h'.version, h.diskId.trans h'.diskId,
    h.totalDisks.trans h'.totalDisks⟩

structure OnDisk (n : ℕ) where
  raid : NvmeRaid n
  media : Media

inductive MetaCall where
  | add (name : Name) (blsize : UInt64)
  | del (name : Name)
  | copy (name : Name) (originSize : UInt64) (fpcap : Bool)
  | update

def MetaCall.exec [NeZero n] (out : Fin n → WriteOutcome) (st : OnDisk n) : MetaCall → OnDisk n
  | .add name blsize =>
    let r := callOn out st.media (addFile st.raid name blsize)
    ⟨r.1.2, r.2⟩
  | .del name =>
    let r := callOn out st.media (delFile st.raid name)
    ⟨r.1.2, r.2⟩
  | .copy name originSize fpcap =>
    let r := callOn out st.media (copyTarget st.raid name originSize fpcap)
    ⟨r.1.2, r.2⟩
  | .update => ⟨st.raid, (callOn out st.media (updateRaid st.raid)).2⟩

inductive TableChange [NeZero n] (raid : NvmeRaid n) : NvmeRaid n → Prop
  | add (s : Slot n) (name : Name) (blsize : UInt64) (hname : name 0 ≠ 0) (hs : ¬ raid.Live s) :
      TableChange raid (tableAdd raid s name blsize)
  | del (s : Slot n) (hs : raid.Live s) : TableChange raid (tableDel raid s)
  | shrink (s : Slot n) (originSize : UInt64) : TableChange raid (tableShrink raid s originSize)
  | same : TableChange raid raid

theorem MetaCall.exec_cases [NeZero n] (c : MetaCall) (out : Fin n → WriteOutcome) (st : OnDisk n) :
    c.exec out st = st ∨
      ∃ raid', c.exec out st = ⟨raid', written raid' out st.media⟩ ∧ TableChange st.raid raid' := by
  have hadd : ∀ name blsize, let r := callOn out st.media (addFile st.raid name blsize)
      (⟨r.1.2, r.2⟩ : OnDisk n) = st ∨ ∃ raid',
        (⟨r.1.2, r.2⟩ : OnDisk n) = ⟨raid', written raid' out st.media⟩ ∧ TableChange st.raid raid' := by
    intro name blsize
    rcases callOn_addFile out st.media st.raid name blsize with ⟨heq, _⟩ | ⟨s, heq, ha, hs⟩
    · exact Or.inl (by rw [heq])
    · exact Or.inr ⟨_, by rw [heq], .add s name blsize ha.named (freeSlot_dead hs)⟩
  cases c with
  | add name blsize => exact hadd name blsize
  | del name =>
    rcases callOn_delFile out st.media st.raid name with ⟨heq, _⟩ | ⟨s, heq, hname, hs⟩
    · exact Or.inl (by rw [MetaCall.exec, heq])
    · exact Or.inr ⟨_, by rw [MetaCall.exec, heq], .del s (findFile_live hname hs)⟩
  | copy name originSize fpcap =>
    rcases callOn_copyTarget out st.media st.raid name originSize fpcap with heq | ⟨s, heq, _⟩ | ⟨r, heq, hr⟩
    · exact Or.inl (by rw [MetaCall.exec, heq])
    · exact Or.inr ⟨_, by rw [MetaCall.exec, heq], .shrink s originSize⟩
    · rw [MetaCall.exec, heq, ← hr]
      exact hadd name (originBlocks originSize)
  | update =>
    refine Or.inr ⟨_, ?_, .same⟩
    rw [MetaCall.exec, callOn_updateRaid_only]

namespace TableChange
variable [NeZero n] {raid raid' : NvmeRaid n}

theorem ns_eq (h : TableChange raid raid') : raid'.ns = raid.ns := by
  cases h <;> rfl

theorem sameHeader (h : TableChange raid raid') (i : Fin n) :
    SameHeader (raid'.msector i) (raid.msector i) := by
  cases h with
  | add s name blsize _ _ => exact (sameHeader_countFiles _ _ _ i).trans (sameHeader_setFile raid s _ i)
  | del s _ => exact (sameHeader_countFiles _ _ _ i).trans (sameHeader_setFile raid s _ i)
  | shrink s originSize => exact sameHeader_setFile raid s _ i
  | same => exact ⟨rfl, rfl, rfl, rfl⟩

theorem counted (h : TableChange raid raid') (hn : n ≤ maxDisks) (hc : Counted raid) : Counted raid' := by
  cases h with
  | add s name blsize hname hs => exact hc.add hn hname hs
  | del s hs => exact hc.del hs
  | shrink s originSize => exact hc.shrink s originSize
  | same => exact hc

end TableChange

theorem MetaCall.exec_ns [NeZero n] (c : MetaCall) (out : Fin n → WriteOutcome) (st : OnDisk n) :
    (c.exec out st).raid.ns = st.raid.ns := by
  rcases c.exec_cases out st with heq | ⟨raid', heq, hc⟩
  · rw [heq]
  · rw [heq]
    exact hc.ns_eq

structure Mountable [NeZero n] (raid : NvmeRaid n) : Prop where
  magic : ∀ i, (raid.msector i).magic = magicNumber
  ids : ∀ i, (raid.msector i).diskId.toNat = i
  totals : ∀ i, (raid.msector i).totalDisks.toNat = n
  counted : Counted raid

section mountable
variable [NeZero n] {raid raid' : NvmeRaid n} (hn : n ≤ maxDisks)
include hn

theorem mountable_formatted (h0 : raid.numFiles = 0) : Mountable (formatted raid) :=
  ⟨fun _ => rfl, fun i => diskId_toNat hn i.isLt.le, fun _ => diskId_toNat hn le_rfl,
    counted_formatted raid h0⟩

theorem TableChange.mountable (h : TableChange raid raid') (hm : Mountable raid) : Mountable raid' where
  magic i := by rw [(h.sameHeader i).magic, hm.magic i]
  ids i := by rw [(h.sameHeader i).diskId, hm.ids i]
  totals i := by rw [(h.sameHeader i).totalDisks, hm.totals i]
  counted := h.counted hn hm.counted

theorem MetaCall.exec_mountable (c : MetaCall) (out : Fin n → WriteOutcome) {st : OnDisk n}
    (hm : Mountable st.raid) : Mountable (c.exec out st).raid := by
  rcases c.exec_cases out st with heq | ⟨raid', heq, hc⟩
  · rwa [heq]
  · rw [heq]
    exact hc.mountable hn hm

end mountable

end PcapReplay
