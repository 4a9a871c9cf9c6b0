import PcapReplay.Cp.Refused
import PcapReplay.Spcap.Confinement

/-! The recorded usage of the raid, in runs that also import captures. -/

namespace PcapReplay
open Interaction Prog Spcap
variable {n : ℕ} [NeZero n]

def Imports (raid : NvmeRaid n) (toRaid : Name) (originSize : UInt64) (pkts : List Packet)
    (raid' : NvmeRaid n) : Prop :=
  ∃ rounds zmalloc map wrote,
    (copyInto raid rounds true zmalloc toRaid map originSize (some pkts)).Returns (.ok (raid', wrote))

def ImportFits (raid : NvmeRaid n) (pkts : List Packet) : Prop :=
  (rightFreeBlock raid).toNat + (dirtyDisks n pkts).length * superSectorNum ≤ raid.totalBlocks.toNat

inductive UsageStep (P : NvmeRaid n → List Packet → Prop) : NvmeRaid n → NvmeRaid n → Prop
  | add {raid raid' : NvmeRaid n} {name : Name} {blsize : UInt64} {ret : Option (Slot n)}
      (h : (addFile raid name blsize).Returns (ret, raid')) : UsageStep P raid raid'
  | del {raid raid' : NvmeRaid n} {name : Name} {ret : UInt8}
      (h : (delFile raid name).Returns (ret, raid')) : UsageStep P raid raid'
  | copy {raid raid' : NvmeRaid n} {rounds : ℕ} {zmalloc : ℕ → Bool} {toRaid : Name} {map : Ptr}
      {originSize : UInt64} {capture : Option (List Packet)} {wrote : List (SuperWrite n)}
      (h : (copyInto raid rounds false zmalloc toRaid map originSize capture).Returns
        (.ok (raid', wrote))) : UsageStep P raid raid'
  | capture {raid raid' : NvmeRaid n} {toRaid : Name} {originSize : UInt64} {pkts : List Packet}
      (h : Imports raid toRaid originSize pkts raid') (hP : findFile raid toRaid = none → P raid pkts) :
      UsageStep P raid raid'

def UsageRun (P : NvmeRaid n → List Packet → Prop) (raid₀ raid : NvmeRaid n) : Prop :=
  ∃ raid₁, (formatRaid raid₀).Returns raid₁ ∧ Relation.ReflTransGen (UsageStep P) raid₁ raid

structure UsageExact (raid : NvmeRaid n) : Prop where
  used : (rightFreeBlock raid).toNat ≤ raid.totalBlocks.toNat
  free : (rightFreeBlock raid).toNat + (rightFreeBlocks raid).toNat = raid.totalBlocks.toNat
  room : ∀ name blsize s raid', (addFile raid name blsize).Returns (some s, raid') →
    (rightFreeBlock raid).toNat + blsize.toNat ≤ raid.totalBlocks.toNat

theorem usageExact_of_le {raid : NvmeRaid n}
    (h : (rightFreeBlock raid).toNat ≤ raid.totalBlocks.toNat) : UsageExact raid := by
  have hfree : (rightFreeBlock raid).toNat + (rightFreeBlocks raid).toNat = raid.totalBlocks.toNat := by
    rw [rightFreeBlocks, UInt64.toNat_sub_of_le _ _ (UInt64.le_iff_toNat_le.mpr h)]
    omega
  refine ⟨h, hfree, fun name blsize s raid' hadd => ?_⟩
  obtain ⟨_, ha, _⟩ := addFile_some hadd
  rw [← hfree]
  exact Nat.add_le_add_left (UInt64.le_iff_toNat_le.mp ha.space) _

def importBlocks (n : ℕ) [NeZero n] (pkts : List Packet) : UInt64 :=
  UInt64.ofNat ((dirtyDisks n pkts).length * superSectorNum)

theorem importBlocks_toNat (hn : n ≤ maxDisks) (pkts : List Packet) :
    (importBlocks n pkts).toNat = (dirtyDisks n pkts).length * superSectorNum := by
  have hle := length_dirtyDisks_le n pkts
  apply UInt64.toNat_ofNat_of_lt'
  simp only [maxDisks, UInt64.size, superSectorNum_eq] at *
  omega

omit [NeZero n] in
theorem setFile_setFile (raid : NvmeRaid n) (s : Slot n) (f g : MetaFile) :
    (raid.setFile s f).setFile s g = raid.setFile s g := by
  simp [NvmeRaid.setFile]

theorem setFile_countFiles (raid : NvmeRaid n) (s : Slot n) (f : MetaFile) (a : UInt8) (b : ℤ) :
    (countFiles raid a b).setFile s f = countFiles (raid.setFile s f) a b := by
  unfold countFiles NvmeRaid.setFile
  congr 1
  funext i
  by_cases hs : s.1 = 0
  · by_cases hi : i = 0 <;> simp [hs, hi]
  · have h0 : ¬ 0 = s.1 := fun h => hs h.symm
    by_cases hi : i = 0
    · simp [hi, h0]
    · by_cases his : i = s.1
      · subst his
        simp [hi]
      · simp [hi, his]

theorem setFile_tableAdd (raid : NvmeRaid n) (s : Slot n) (name : Name) (blsize blsize' : UInt64) :
    (tableAdd raid s name blsize).setFile s
        ⟨name, rightFreeBlock raid, rightFreeBlock raid + blsize'⟩ = tableAdd raid s name blsize' := by
  unfold tableAdd
  rw [setFile_countFiles, setFile_setFile]

section imports
variable {raid raid' : NvmeRaid n} {rounds : ℕ} {zmalloc : ℕ → Bool} {toRaid : Name} {map : Ptr}
  {originSize : UInt64} {pkts : List Packet} {s : Slot n}

theorem copyInto_of_slot (hnew : findFile raid toRaid = none)
    (hadd : addFile raid toRaid (originBlocks originSize) = do
      updateRaid (tableAdd raid s toRaid (originBlocks originSize))
      pure (some s, tableAdd raid s toRaid (originBlocks originSize))) :
    copyInto raid rounds true zmalloc toRaid map originSize (some pkts) =
      updateRaid (tableAdd raid s toRaid (originBlocks originSize)) >>= fun _ =>
        match importPcap zmalloc ((tableAdd raid s toRaid (originBlocks originSize)).file s) pkts with
        | none => pure (.error .broken)
        | some sp =>
          updateRaid ((tableAdd raid s toRaid (originBlocks originSize)).setFile s sp.file) >>= fun _ =>
            pure (.ok ((tableAdd raid s toRaid (originBlocks originSize)).setFile s sp.file, sp.wrote)) := by
  unfold copyInto
  rw [copyTarget_new hnew, hadd, bind_assoc, bind_assoc]
  rfl

theorem setFile_imported {blsize : UInt64} {sp : Spcap n}
    (h : Imported ((tableAdd raid s toRaid blsize).file s) pkts sp) :
    (tableAdd raid s toRaid blsize).setFile s sp.file = tableAdd raid s toRaid (importBlocks n pkts) := by
  rw [h.file_eq, file_tableAdd_self]
  exact setFile_tableAdd raid s toRaid blsize (importBlocks n pkts)

theorem imports_cases (h : Imports raid toRaid originSize pkts raid') :
    ((findFile raid toRaid).isSome ∧ raid' = raid) ∨
      ∃ s, Admits raid toRaid (originBlocks originSize) ∧ freeSlot raid = some s ∧
        raid' = tableAdd raid s toRaid (importBlocks n pkts) := by
  obtain ⟨rounds, zmalloc, map, wrote, h⟩ := h
  cases hfind : findFile raid toRaid with
  | some t =>
    -- a capture is not overwritten
    have hstop : copyTarget raid toRaid originSize true = pure (.stop, raid) := by
      unfold copyTarget
      simp only [hfind]
      split_ifs <;> rfl
    unfold copyInto at h
    rw [hstop, pure_bind, returns_pure] at h
    exact Or.inl ⟨rfl, congrArg Prod.fst (Except.ok.inj h)⟩
  | none =>
    obtain ⟨hrefused, _⟩ | ⟨s, hadd, ha, hs⟩ := addFile_eq raid toRaid (originBlocks originSize)
    · have hnull : (addFile raid toRaid (originBlocks originSize)).Returns (none, raid) := by
        rw [hrefused]
        exact returns_pure.mpr rfl
      rw [copyInto_of_entry hfind hnull, if_pos rfl, returns_pure] at h
      exact absurd h (by simp)
    · refine Or.inr ⟨s, ha, hs, ?_⟩
      rw [copyInto_of_slot hfind hadd, returns_bind_const] at h
      cases himport : (importPcap zmalloc ((tableAdd raid s toRaid (originBlocks originSize)).file s) pkts :
        Option (Spcap n)) with
      | none =>
        rw [himport, returns_pure] at h
        exact absurd h (by simp)
      | some sp =>
        rw [himport] at h
        obtain ⟨_, _, himported⟩ := importPcap_some (importPcap_granted himport)
        have hresult := returns_pure.mp (returns_bind_const.mp h)
        rw [← setFile_imported himported]
        exact congrArg Prod.fst (Except.ok.inj hresult)

theorem imports_of_admits (ha : Admits raid toRaid (originBlocks originSize)) (hs : freeSlot raid = some s)
    (hc : Covers n (rightFreeBlock raid)) (hfit : (captured pkts : Streams n).Fit) :
    Imports raid toRaid originSize pkts (tableAdd raid s toRaid (importBlocks n pkts)) := by
  have hcovers : Covers n ((tableAdd raid s toRaid (originBlocks originSize)).file s).startBlock := by
    rw [file_tableAdd_self]
    exact hc
  obtain ⟨sp, himport, himported⟩ := (importPcap_covered hcovers pkts).1 hfit
  refine ⟨0, fun _ => true, ⟨0, 0⟩, sp.wrote, ?_⟩
  rw [copyInto_of_slot ha.absent (addFile_of_admits ha hs), himport, ← setFile_imported himported]
  exact returns_bind_const.mpr (returns_bind_const.mpr (returns_pure.mpr rfl))

end imports

section runs
variable {P : NvmeRaid n → List Packet → Prop} {raid₀ raid raid' : NvmeRaid n} {toRaid : Name}
  {originSize : UInt64} {pkts : List Packet}

theorem copyIn_tableStep {rounds : ℕ} {map : Ptr}
    (h : (copyIn raid rounds toRaid map originSize).Returns (some raid')) : TableStep raid raid' := by
  unfold copyIn at h
  obtain ⟨⟨target, raid₁⟩, htarget, h⟩ := returns_bind.mp h
  have hstep : TableStep raid raid₁ := .copy htarget
  cases target with
  | stop =>
    obtain rfl := Option.some.inj (returns_pure.mp h)
    exact hstep
  | file raidFile =>
    obtain ⟨ret, _, h⟩ := returns_bind.mp h
    cases ret with
    | none => exact absurd (returns_pure.mp h) (Option.some_ne_none raid')
    | some _ =>
      obtain rfl := Option.some.inj (returns_pure.mp h)
      exact hstep

theorem copyInto_regular_tableStep {rounds : ℕ} {zmalloc : ℕ → Bool} {map : Ptr}
    {capture : Option (List Packet)} {wrote : List (SuperWrite n)}
    (h : (copyInto raid rounds false zmalloc toRaid map originSize capture).Returns (.ok (raid', wrote))) :
    TableStep raid raid' := by
  rw [copyInto_regular] at h
  obtain ⟨r, hcopy, h⟩ := returns_bind.mp h
  cases r with
  | none => exact absurd (returns_pure.mp h) (by simp)
  | some raid₁ =>
    obtain rfl := congrArg Prod.fst (Except.ok.inj (returns_pure.mp h))
    exact copyIn_tableStep hcopy

theorem ImportFits.admits (hn : n ≤ maxDisks) (hfit : ImportFits raid pkts)
    (ha : Admits raid toRaid (originBlocks originSize)) : Admits raid toRaid (importBlocks n pkts) := by
  unfold ImportFits at hfit
  have hle : (rightFreeBlock raid).toNat ≤ raid.totalBlocks.toNat := by omega
  refine ⟨ha.absent, ha.room, UInt64.le_iff_toNat_le.mpr ?_, ha.named⟩
  rw [rightFreeBlocks, UInt64.toNat_sub_of_le _ _ (UInt64.le_iff_toNat_le.mpr hle), importBlocks_toNat hn]
  omega

theorem UsageStep.tableStep (hn : n ≤ maxDisks) (h : UsageStep ImportFits raid raid') :
    raid' = raid ∨ TableStep raid raid' := by
  cases h with
  | add h => exact Or.inr (.add h)
  | del h => exact Or.inr (.del h)
  | copy h => exact Or.inr (copyInto_regular_tableStep h)
  | capture h hfit =>
    rcases imports_cases h with ⟨_, rfl⟩ | ⟨s, ha, hs, rfl⟩
    · exact Or.inl rfl
    · exact Or.inr (.add (returns_addFile ((hfit ha.absent).admits hn ha) hs))

theorem UsageRun.reachable (hn : n ≤ maxDisks) (h : UsageRun ImportFits raid₀ raid) :
    Reachable raid₀ raid := by
  obtain ⟨raid₁, h₁, hrun⟩ := h
  refine ⟨raid₁, h₁, ?_⟩
  induction hrun with
  | refl => exact .refl
  | tail _ hstep ih =>
    rcases hstep.tableStep hn with rfl | htable
    · exact ih
    · exact ih.tail htable

theorem importFits_of_used (hn : n ≤ maxDisks) (hnew : findFile raid toRaid = none)
    (h : Imports raid toRaid originSize pkts raid')
    (hlt : (rightFreeBlock raid).toNat + n * superSectorNum < 2 ^ 64)
    (hused : (rightFreeBlock raid').toNat ≤ raid'.totalBlocks.toNat) : ImportFits raid pkts := by
  rcases imports_cases h with ⟨hfound, _⟩ | ⟨s, _, _, rfl⟩
  · rw [hnew] at hfound
    exact absurd hfound (by simp)
  · have hblocks := importBlocks_toNat hn pkts
    have hk := Nat.mul_le_mul_right superSectorNum (length_dirtyDisks_le n pkts)
    have hend := endBlock_le_rightFreeBlock (tableAdd raid s toRaid (importBlocks n pkts)) s
    rw [file_tableAdd_self] at hend
    dsimp only at hend
    rw [toNat_add_of_lt (by omega), hblocks] at hend
    exact hend.trans hused

end runs

/-- In runs whose imports of new files fit, the usage is exact, and the next import keeps it so
exactly if it fits too. -/
theorem usageExact_of_fitting {raid₀ raid : NvmeRaid n} (hn : n ≤ maxDisks)
    (ht : n * superSectorNum ≤ raid₀.totalBlocks.toNat) (h0 : raid₀.numFiles = 0)
    (h : UsageRun ImportFits raid₀ raid) :
    UsageExact raid ∧ ∀ toRaid originSize pkts raid', findFile raid toRaid = none →
      Imports raid toRaid originSize pkts raid' →
      (rightFreeBlock raid).toNat + n * superSectorNum < 2 ^ 64 →
        (UsageExact raid' ↔ ImportFits raid pkts) := by
  have hexact : ∀ {r}, UsageRun ImportFits raid₀ r → UsageExact r := by
    intro r hr
    have hreach := hr.reachable hn
    refine usageExact_of_le ((hreach.inv hn ht h0).rightFreeBlock_le hn ?_)
    rwa [hreach.totalBlocks]
  refine ⟨hexact h, fun toRaid originSize pkts raid' hnew himports hlt => ⟨fun hafter => ?_, fun hfit => ?_⟩⟩
  · exact importFits_of_used hn hnew himports hlt hafter.used
  · obtain ⟨raid₁, h₁, hrun⟩ := h
    exact hexact ⟨raid₁, h₁, hrun.tail (.capture himports fun _ => hfit)⟩

theorem oneFileRaid_step {n : ℕ} [NeZero n] (P : NvmeRaid n → List Packet → Prop) (blsize : UInt64) :
    UsageStep P (formatted (attached fun _ : Fin n => 1024)) (oneFileRaid n blsize) := by
  obtain ⟨ret, hadd⟩ := oneFileRaid_added n blsize
  exact .add hadd

theorem usageExact_of_fitting_two_disks :
    UsageExact (tableAdd (oneFileRaid 2 512) (0, 1) (fun _ => 66) (importBlocks 2 twoPackets)) := by
  have ha : Admits (oneFileRaid 2 512) (fun _ => 66) (originBlocks 700) :=
    ⟨by decide +kernel, by decide +kernel, by decide +kernel, by decide⟩
  have hs : freeSlot (oneFileRaid 2 512) = some (0, 1) := by decide +kernel
  have hstart : rightFreeBlock (oneFileRaid 2 512) = 1024 := by decide +kernel
  have hfit : ImportFits (oneFileRaid 2 512) twoPackets := by
    unfold ImportFits
    rw [dirtyDisks_twoPackets, hstart]
    decide +kernel
  have hc : Covers 2 (rightFreeBlock (oneFileRaid 2 512)) := by
    rw [hstart]
    exact covers_of_le (by decide)
  have himports := imports_of_admits ha hs hc fit_twoPackets
  have hrun : UsageRun ImportFits (attached fun _ : Fin 2 => 1024) _ :=
    ⟨_, formatRaid_returns.mpr rfl, (Relation.ReflTransGen.single (oneFileRaid_step _ 512)).tail
      (.capture himports fun _ => hfit)⟩
  exact (usageExact_of_fitting (by decide) (by decide +kernel) rfl hrun).1

/-- A capture file of 24 bytes is imported when one block of the disk is left. -/
theorem import_past_the_raid :
    ¬ ∀ raid, UsageRun (fun _ _ => True) (attached fun _ : Fin 1 => 1024) raid → UsageExact raid := by
  intro hall
  have ha : Admits (oneFileRaid 1 767) (fun _ => 66) (originBlocks 24) :=
    ⟨by decide +kernel, by decide +kernel, by decide +kernel, by decide⟩
  obtain ⟨s, hs⟩ : ∃ s, freeSlot (oneFileRaid 1 767) = some s :=
    Option.ne_none_iff_exists'.mp (by decide +kernel)
  have hstart : rightFreeBlock (oneFileRaid 1 767) = 1023 := by decide +kernel
  have hc : Covers 1 (rightFreeBlock (oneFileRaid 1 767)) := by
    rw [hstart]
    exact covers_of_le (by decide)
  have himports := imports_of_admits ha hs hc fit_nil
  have hrun : UsageRun (fun _ _ => True) (attached fun _ : Fin 1 => 1024) _ :=
    ⟨_, formatRaid_returns.mpr rfl, (Relation.ReflTransGen.single (oneFileRaid_step _ 767)).tail
      (.capture himports fun _ => trivial)⟩
  have hfit := importFits_of_used (by decide) ha.absent himports (by rw [hstart]; decide) (hall _ hrun).used
  unfold ImportFits at hfit
  rw [dirtyDisks_nil, hstart] at hfit
  exact absurd hfit (by decide +kernel)

end PcapReplay
