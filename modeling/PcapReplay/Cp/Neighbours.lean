import PcapReplay.Cp.Frame

/-! Copies and removals one after the other, each by a process of its own, and the files they are
not about. -/

namespace PcapReplay
open Interaction Dma Prog
variable {n : ℕ} [NeZero n]

/-- `cp --from-sys --to-raid`, which stops where `addFile` has refused the file, and the table that it
leaves however it ends. -/
def copyOrStop (raid : NvmeRaid n) (rounds : ℕ) (toRaid : Name) (map : Ptr) (originSize : UInt64) :
    Nvme (NvmeRaid n) := do
  let (target, raid) ← copyTarget raid toRaid originSize false
  match target with
  | .file (some s) =>
    let _ ← copyBlocks raid rounds (some s) map originSize
    pure raid
  | _ => pure raid

inductive FileOp where
  | copy (name : Name) (originSize : UInt64)
  | remove (name : Name)

namespace FileOp

def name : FileOp → Name
  | copy name _ => name
  | remove name => name

def call (raid : NvmeRaid n) (rounds : ℕ) (map : Ptr) : FileOp → Nvme (NvmeRaid n)
  | copy name originSize => copyOrStop raid rounds name map originSize
  | remove name => do
    let r ← delFile raid name
    pure r.2

end FileOp

structure RaidState (n : ℕ) where
  raid : NvmeRaid n
  disks : ℕ → ℕ → UInt8

def RaidState.block (st : RaidState n) (b : UInt64) : Block := fun a =>
  st.disks (st.raid.ns (superGetdisk n b)) ((superGetdisklba n b).toNat * sectorLength + a)

/-- A process that finds these disks runs the operation, in any order of completions, and what it has
submitted completes. -/
inductive FileStep (op : FileOp) (st : RaidState n) : RaidState n → Prop
  | mk {π : Policy} {w w' v : World} {map : Ptr} {rounds : ℕ} {raid' : NvmeRaid n} (hw : Fresh w map)
      (hdisks : ∀ ns, w.bus.store (.disk ns) = st.disks ns)
      (hrun : Runs π (op.call st.raid rounds map) w raid' w') (hev : Bus.Evolves w'.bus v.bus)
      (hidle : v.flights = 0) : FileStep op st ⟨raid', fun ns => v.bus.store (.disk ns)⟩

inductive FileRun (raid₀ : NvmeRaid n) : RaidState n → Prop
  | format {π : Policy} {w w' : World} {map : Ptr} {raid : NvmeRaid n} (hw : Fresh w map)
      (hrun : Runs π (formatRaid raid₀) w raid w') : FileRun raid₀ ⟨raid, fun ns => w'.bus.store (.disk ns)⟩
  | step {st st' : RaidState n} (h : FileRun raid₀ st) (op : FileOp) (hstep : FileStep op st st') :
      FileRun raid₀ st'

def Op.SparesTable : Op → Prop
  | .cmd c => ∀ ns a, c.xfer.Writes (.disk ns) a → sectorLength ≤ a
  | _ => True

structure Spared (op : FileOp) (st st' : RaidState n) : Prop where
  files : ∀ s, st.raid.Live s → findFile st.raid op.name ≠ some s →
    st'.raid.file s = st.raid.file s ∧ ∀ b : UInt64, st.raid.Owns s b.toNat → st'.block b = st.block b
  commands : ∀ rounds map, Ensures Op.SparesTable (fun _ => True) (op.call st.raid rounds map)
  table : ∀ ns, (∀ a < sectorLength, st'.disks ns a = st.disks ns a) ∨
    ∃ i, ns = st'.raid.ns i ∧ ∀ a < sectorLength, st'.disks ns a = (st'.raid.msector i).toBytes a

structure Touches (raid raid' : NvmeRaid n) (name : Name) (s : Slot n) : Prop where
  inv : TableInv raid'
  ns : raid'.ns = raid.ns
  total : raid'.totalBlocks = raid.totalBlocks
  others : ∀ t, t ≠ s → raid'.file t = raid.file t
  target : findFile raid name = some s ∨ ¬ raid.Live s

def FileCells (raid : NvmeRaid n) (s : Slot n) : Space → ℕ → Prop :=
  DataCells raid (raid.file s).startBlock.toNat
    ((raid.file s).endBlock.toNat - (raid.file s).startBlock.toNat)

section call
variable {raid raid' : NvmeRaid n} {name : Name} {originSize : UInt64} {s : Slot n} (hi : TableInv raid)
include hi

theorem touches_tableShrink (hs : findFile raid name = some s) (ho : originSize ≤ fileSize (raid.file s)) :
    Touches raid (tableShrink raid s originSize) name s where
  inv := hi.shrink ho
  ns := rfl
  total := rfl
  others t ht := by rw [file_tableShrink, if_neg ht]
  target := Or.inl hs

theorem touches_tableDel (hname : name 0 ≠ 0) (hs : findFile raid name = some s) :
    Touches raid (tableDel raid s) name s where
  inv := hi.del hname hs
  ns := rfl
  total := rfl
  others t ht := by rw [file_tableDel, if_neg ht]
  target := Or.inl hs

theorem touches_tableAdd (hn : n ≤ maxDisks) (ht : n * 256 ≤ raid.totalBlocks.toNat)
    (ha : Admits raid name (originBlocks originSize)) (hs : freeSlot raid = some s) :
    Touches raid (tableAdd raid s name (originBlocks originSize)) name s where
  inv := hi.add hn ht ha hs
  ns := rfl
  total := rfl
  others t ht := by rw [file_tableAdd, if_neg ht]
  target := Or.inr (freeSlot_dead hs)

omit hi in
theorem Prepared.copyBlocks_ensures {rounds : ℕ} {map : Ptr} (h : Prepared raid s name originSize) :
    Ensures (Op.Within (FileCells raid s)) (fun _ => True)
      (copyBlocks raid rounds (some s) map originSize) := by
  have hend : (raid.file s).endBlock.toNat - (raid.file s).startBlock.toNat =
      (originBlocks originSize).toNat := by
    rw [h.extent, toNat_add_of_lt h.lt, Nat.add_sub_cancel_left]
  unfold FileCells
  rw [hend]
  exact PcapReplay.copyBlocks_ensures h.lt

theorem FileOp.call_cases (hn : n ≤ maxDisks) (ht : n * 256 ≤ raid.totalBlocks.toNat) (op : FileOp)
    (rounds : ℕ) (map : Ptr) :
    op.call raid rounds map = pure raid ∨
      ∃ (s : Slot n) (raid' : NvmeRaid n) (data : Nvme (Option Unit)),
        (op.call raid rounds map = do
          updateRaid raid'
          let _ ← data
          pure raid') ∧
        Touches raid raid' op.name s ∧ Ensures (Op.Within (FileCells raid' s)) (fun _ => True) data := by
  cases op with
  | copy name originSize =>
    simp only [FileOp.call, copyOrStop, FileOp.name]
    rcases copyTarget_eq raid name originSize false with heq | ⟨s, heq, hs, ho, _⟩ | ⟨heq, _⟩
    · rw [heq]
      exact Or.inl rfl
    · rw [heq]
      exact Or.inr ⟨s, _, _, bind_assoc _ _ _, touches_tableShrink hi hs ho,
        (prepared_tableShrink hi hs ho).copyBlocks_ensures⟩
    · rw [heq]
      rcases addFile_eq raid name (originBlocks originSize) with ⟨hadd, _⟩ | ⟨s, hadd, ha, hs⟩
      · rw [hadd]
        exact Or.inl rfl
      · rw [hadd]
        exact Or.inr ⟨s, _, _, by simp only [bind_assoc]; rfl, touches_tableAdd hi hn ht ha hs,
          (prepared_tableAdd hi hn ht ha).copyBlocks_ensures⟩
  | remove name =>
    simp only [FileOp.call, FileOp.name]
    rcases delFile_eq raid name with ⟨hdel, _⟩ | ⟨s, hdel, hname, hs⟩
    · rw [hdel]
      exact Or.inl rfl
    · rw [hdel]
      exact Or.inr ⟨s, _, pure (some ()), bind_assoc _ _ _, touches_tableDel hi hname hs,
        ensures_pure trivial⟩

end call

section cells
variable {raid raid' : NvmeRaid n} {name : Name} {s t : Slot n} (hi : TableInv raid)
include hi

theorem TableInv.apart (hst : s ≠ t) {b : ℕ} (hs : raid.Owns s b) : ¬ raid.Owns t b := by
  intro ht
  have hlive : ∀ u, raid.Owns u b → raid.Live u := by
    intro u hu
    by_contra hdead
    obtain ⟨_, hend⟩ := hi.free u hdead
    have hlt := hu.2
    rw [hend] at hlt
    exact absurd hlt (Nat.not_lt_zero _)
  exact hi.disjoint s t (hlive s hs) (hlive t ht) hst b hs ht

omit hi in
theorem fileCells_iff {a : ℕ} {ns : ℕ} : FileCells raid s (.disk ns) a ↔
    ∃ b, raid.Owns s b ∧ Space.disk ns = blockSpace raid b ∧ blockByte n b ≤ a ∧
      a < blockByte n b + sectorLength := by
  unfold FileCells DataCells BlockCells NvmeRaid.Owns
  constructor
  · rintro (⟨_, h⟩ | ⟨b, hb, h⟩)
    · exact Space.noConfusion h
    · exact ⟨b, ⟨hb.1, by omega⟩, h⟩
  · rintro ⟨b, hb, h⟩
    exact Or.inr ⟨b, ⟨hb.1, by omega⟩, h⟩

theorem TableInv.cells_apart (hst : s ≠ t) {b : UInt64} (hb : raid.Owns s b.toNat) {a : ℕ}
    (ha : blockByte n b.toNat ≤ a ∧ a < blockByte n b.toNat + sectorLength) :
    ¬ FileCells raid t (blockSpace raid b.toNat) a := by
  intro h
  obtain ⟨c, hc, hspace, hcell⟩ := fileCells_iff.mp h
  have hlt := (raid.file t).endBlock.toNat_lt
  have hbc : b.toNat = c := block_eq_of_cell b.toNat_lt (hc.2.trans hlt) hspace ha hcell
  rw [← hbc] at hc
  exact hi.apart hst hb hc

theorem TableInv.sectorLength_le (h63 : raid.totalBlocks.toNat ≤ 2 ^ 63) {b : ℕ} (hb : raid.Owns s b) :
    sectorLength ≤ blockByte n b := by
  have hend := hi.endBlock_le s
  have hlt : b < 2 ^ 63 := by
    have := hb.2
    omega
  have hofNat : (UInt64.ofNat b).toNat = b := toNat_ofNat_of_lt (by omega)
  have hstriped : Striped (UInt64.ofNat b) := by
    unfold Striped
    rw [hofNat, superSectorNum_eq]
    omega
  have hlba := hstriped.superGetdisklba_toNat (n := n)
  unfold blockByte
  rw [sectorLength_eq]
  omega

end cells

section steps
variable {raid₀ : NvmeRaid n} {st st' : RaidState n} {op : FileOp} (hn : n ≤ maxDisks)
include hn

theorem FileOp.call_spares {raid : NvmeRaid n} (hi : TableInv raid) (ht : n * 256 ≤ raid.totalBlocks.toNat)
    (h63 : raid.totalBlocks.toNat ≤ 2 ^ 63) (op : FileOp) (rounds : ℕ) (map : Ptr) :
    Ensures Op.SparesTable (fun _ => True) (op.call raid rounds map) := by
  rcases op.call_cases hi hn ht rounds map with heq | ⟨s, raid', data, heq, htouch, hdata⟩
  · rw [heq]
    exact ensures_pure trivial
  · rw [heq]
    have hupdate : Ensures Op.SparesTable (fun _ => True) (updateRaid raid') := by
      refine (updateRaid_ensures raid').mono (fun o ho => ?_) fun _ => id
      cases o with
      | cmd c => exact absurd ho id
      | _ => trivial
    refine hupdate.bind fun _ _ => ?_
    refine (hdata.mono (fun o ho => ?_) fun _ => id).bind fun _ _ => ensures_pure trivial
    cases o with
    | cmd c =>
      intro ns a hw
      obtain ⟨b, hb, _, hle, _⟩ := fileCells_iff.mp (ho _ _ hw)
      rw [← htouch.total] at h63
      exact (htouch.inv.sectorLength_le h63 hb).trans hle
    | _ => trivial

theorem FileStep.cases (hi : TableInv st.raid) (ht : n * 256 ≤ st.raid.totalBlocks.toNat)
    (h : FileStep op st st') : st' = st ∨
      ∃ (s : Slot n) (m : Store Space UInt8), Touches st.raid st'.raid op.name s ∧
        (∀ ns, (∀ a < sectorLength, m (.disk ns) a = st.disks ns a) ∨ ∃ i, ns = st'.raid.ns i ∧
          ∀ a < sectorLength, m (.disk ns) a = (st'.raid.msector i).toBytes a) ∧
        (∀ ns a, sectorLength ≤ a → m (.disk ns) a = st.disks ns a) ∧
        ∀ ns a, ¬ FileCells st'.raid s (.disk ns) a → st'.disks ns a = m (.disk ns) a := by
  obtain @⟨π, w, w', v, map, rounds, raid', hw, hdisks, hrun, hev, hidle⟩ := h
  rcases op.call_cases hi hn ht rounds map with heq | ⟨s, raid₁, data, heq, htouch, hdata⟩
  · rw [heq] at hrun
    obtain ⟨rfl, rfl⟩ := exec_pure.mp hrun
    have hsame := hev.of_idle hw.idle
    left
    simp only [hsame, hdisks]
  · rw [heq] at hrun
    obtain ⟨_, w₁, hupdate, hrun⟩ := exec_bind.mp hrun
    obtain ⟨_, w₂, hrest, hrun⟩ := exec_bind.mp hrun
    obtain ⟨rfl, rfl⟩ := exec_pure.mp hrun
    obtain ⟨_, htable⟩ := (updateRaid_ensures raid').exec hupdate (OnlyTable.start raid' hw.idle)
      fun _ _ _ _ => OnlyTable.step
    obtain ⟨_, hconf⟩ := hdata.exec hrest (Bus.confined_of_idle htable.idle)
      fun _ _ _ _ => World.step_confined fun buf _ => Or.inl ⟨buf, rfl⟩
    refine Or.inr ⟨s, w₁.bus.store, htouch, ?_, ?_, fun ns a hcell => (hconf.evolves hev).kept _ a hcell⟩
    · simpa only [hdisks] using htable.table
    · simpa only [hdisks] using htable.data

theorem FileStep.inv (hi : TableInv st.raid) (ht : n * 256 ≤ st.raid.totalBlocks.toNat)
    (h : FileStep op st st') : TableInv st'.raid ∧ st'.raid.totalBlocks = st.raid.totalBlocks := by
  rcases h.cases hn hi ht with rfl | ⟨s, m, htouch, _⟩
  · exact ⟨hi, rfl⟩
  · exact ⟨htouch.inv, htouch.total⟩

theorem FileStep.spared (hi : TableInv st.raid) (ht : n * 256 ≤ st.raid.totalBlocks.toNat)
    (h63 : st.raid.totalBlocks.toNat ≤ 2 ^ 63) (h : FileStep op st st') : Spared op st st' := by
  have hcommands := op.call_spares hn hi ht h63
  rcases h.cases hn hi ht with rfl | ⟨s, m, htouch, htable, hdata, hkept⟩
  · exact ⟨fun _ _ _ => ⟨rfl, fun _ _ => rfl⟩, hcommands, fun _ => Or.inl fun _ _ => rfl⟩
  · have h63' : st'.raid.totalBlocks.toNat ≤ 2 ^ 63 := by rwa [htouch.total]
    refine ⟨fun t hlive hne => ?_, hcommands, fun ns => ?_⟩
    · have hts : t ≠ s := by
        rintro rfl
        exact htouch.target.elim hne fun hdead => hdead hlive
      have hfile := htouch.others t hts
      refine ⟨hfile, fun b hb => ?_⟩
      have hb' : st'.raid.Owns t b.toNat := by
        unfold NvmeRaid.Owns
        rwa [hfile]
      funext a
      have ha := a.isLt
      have hcell : ¬ FileCells st'.raid s (blockSpace st'.raid b.toNat) (blockByte n b.toNat + a) :=
        htouch.inv.cells_apart hts hb' ⟨by omega, by omega⟩
      have hfirst := htouch.inv.sectorLength_le h63' hb'
      unfold blockSpace at hcell
      unfold blockByte at hcell hfirst
      rw [UInt64.ofNat_toNat] at hcell hfirst
      unfold RaidState.block
      rw [hkept _ _ hcell, hdata _ _ (by omega), htouch.ns]
    · have hfirst : ∀ a < sectorLength, st'.disks ns a = m (.disk ns) a := by
        intro a ha
        apply hkept
        rw [fileCells_iff]
        rintro ⟨b, hb, _, hle, _⟩
        have := htouch.inv.sectorLength_le h63' hb
        omega
      rcases htable ns with hold | ⟨i, hi, hnew⟩
      · exact Or.inl fun a ha => (hfirst a ha).trans (hold a ha)
      · exact Or.inr ⟨i, hi, fun a ha => (hfirst a ha).trans (hnew a ha)⟩

theorem FileRun.inv (ht : n * 256 ≤ raid₀.totalBlocks.toNat) (h0 : raid₀.numFiles = 0)
    (h : FileRun raid₀ st) : TableInv st.raid ∧ st.raid.totalBlocks = raid₀.totalBlocks := by
  induction h with
  | format hw hrun =>
    have hformat := Exec.returns hrun
    exact ⟨tableInv_format raid₀ h0 hformat, by rw [formatRaid_returns.mp hformat, formatted]⟩
  | step h op hstep ih =>
    obtain ⟨hi, htotal⟩ := ih
    rw [← htotal] at ht ⊢
    exact hstep.inv hn hi ht

end steps

theorem copyBlocks_none {raid : NvmeRaid n} {π : Policy} {w w' : World} {rounds : ℕ} {map : Ptr}
    {originSize : UInt64} (hrun : Runs π (copyBlocks raid rounds none map originSize) w (some ()) w') :
    w' = w := by
  unfold copyBlocks at hrun
  split_ifs at hrun with hmod
  · obtain ⟨res, _, _, hrun⟩ := exec_bind.mp hrun
    cases res with
    | none => exact absurd hrun.1 (by simp)
    | some p =>
      obtain ⟨_, _, _, hrun⟩ := exec_bind.mp hrun
      exact absurd hrun.1 (by simp)
  · unfold copyWhole at hrun
    split_ifs at hrun
    · exact absurd hrun.1 (by simp)
    · exact (exec_pure.mp hrun).2

theorem copyOrStop_of_copyIn {raid raid' : NvmeRaid n} {π : Policy} {w w' : World} {rounds : ℕ}
    {name : Name} {map : Ptr} {originSize : UInt64}
    (hrun : Runs π (copyIn raid rounds name map originSize) w (some raid') w') :
    Runs π (copyOrStop raid rounds name map originSize) w raid' w' := by
  unfold copyIn at hrun
  obtain ⟨⟨t, raid₁⟩, w₁, htarget, hrun⟩ := exec_bind.mp hrun
  refine exec_bind.mpr ⟨(t, raid₁), w₁, htarget, ?_⟩
  cases t with
  | stop =>
    obtain ⟨hraid, rfl⟩ := exec_pure.mp hrun
    exact exec_pure.mpr ⟨Option.some.inj hraid, rfl⟩
  | file raidFile =>
    obtain ⟨r, w₂, hcopy, hrun⟩ := exec_bind.mp hrun
    cases r with
    | none => exact absurd hrun.1 (by simp)
    | some _ =>
      obtain ⟨hraid, rfl⟩ := exec_pure.mp hrun
      obtain rfl := Option.some.inj hraid
      cases raidFile with
      | none =>
        obtain rfl := copyBlocks_none hcopy
        exact exec_pure.mpr ⟨rfl, rfl⟩
      | some s => exact exec_bind.mpr ⟨some (), w', hcopy, exec_pure.mpr ⟨rfl, rfl⟩⟩

theorem exists_fileRun (raid₀ : NvmeRaid n) : ∃ st, FileRun raid₀ st := by
  let w : World := ⟨⟨fun _ _ => 0, 0⟩, 0, 0, 1⟩
  have hw : Fresh w ⟨0, 0⟩ := ⟨rfl, rfl, rfl, Nat.one_pos⟩
  obtain ⟨raid, w', hrun⟩ := exists_promptRuns flawless (formatRaid raid₀) w
  exact ⟨_, .format hw hrun.runs⟩

theorem exists_fileStep (op : FileOp) (st : RaidState n) : ∃ st', FileStep op st st' := by
  let m : Store Space UInt8 := fun s a =>
    match s with
    | .mem _ => 0
    | .disk ns => st.disks ns a
  let w : World := ⟨⟨m, 0⟩, 0, 0, 1⟩
  have hw : Fresh w ⟨0, 0⟩ := ⟨rfl, rfl, rfl, Nat.one_pos⟩
  obtain ⟨raid', w', hrun⟩ := exists_promptRuns flawless (op.call st.raid 2 ⟨0, 0⟩) w
  obtain ⟨b, hev, hidle⟩ := w'.bus.exists_settled
  let v : World := { w' with bus := b }
  have hev' : Bus.Evolves w'.bus v.bus := hev
  exact ⟨_, .mk hw (fun _ => rfl) hrun.runs hev' hidle⟩

/-- Whatever was copied and removed before, an operation on a regular file leaves the other files
alone, and the metadata but for the table it writes. -/
theorem files_spared {raid₀ : NvmeRaid n} {st st' : RaidState n} {op : FileOp} (hn : n ≤ maxDisks)
    (ht : n * superSectorNum ≤ raid₀.totalBlocks.toNat) (h63 : raid₀.totalBlocks.toNat ≤ 2 ^ 63)
    (h0 : raid₀.numFiles = 0) (hrun : FileRun raid₀ st) (hstep : FileStep op st st') :
    Spared op st st' := by
  obtain ⟨hi, htotal⟩ := hrun.inv hn ht h0
  rw [← htotal] at ht h63
  exact hstep.spared hn hi ht h63

theorem files_spared_one_disk : ∃ st₁ st₂ : RaidState 1, FileRun (attached fun _ => 1024) st₁ ∧
    FileStep (.copy (fun _ => 65) 700) st₁ st₂ ∧ ∃ st₃, Spared (.copy (fun _ => 66) 100) st₂ st₃ := by
  obtain ⟨st₁, hrun⟩ := exists_fileRun (attached fun _ : Fin 1 => 1024)
  obtain ⟨st₂, hstep⟩ := exists_fileStep (.copy (fun _ => 65) 700) st₁
  obtain ⟨st₃, hnext⟩ := exists_fileStep (.copy (fun _ => 66) 100) st₂
  exact ⟨st₁, st₂, hrun, hstep, st₃,
    files_spared (by decide) (by decide +kernel) (by decide +kernel) rfl (hrun.step _ hstep) hnext⟩

end PcapReplay
