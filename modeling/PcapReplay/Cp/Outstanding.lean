import PcapReplay.Cp.RoundTrip

/-! Writes that are still outstanding when a copy returns. -/

namespace PcapReplay
open Interaction Dma Prog Striping
variable {n : ℕ} [NeZero n] {raid : NvmeRaid n} {π : Policy} {w w₁ w' : World} {rounds : ℕ}

theorem sioChunk_idle {inLoop : Bool} {mem payload : Ptr} {lba : UInt64} {blocks : ℕ} {rc : ℤ}
    (hπ : ¬ π.reject) (hbal : w.Balanced) (hpos : 1 ≤ blocks) (h32 : blocks < 2 ^ 32)
    (hlt : lba.toNat + blocks < 2 ^ 64)
    (htasks : w.taskScheduled.toNat + (split superSectorNum lba.toNat blocks).length < 2 ^ 64)
    (hrun : Runs π (sioChunk .write raid rounds inLoop mem payload lba blocks) w (some rc) w') :
    rc = 0 ∧ w'.flights = 0 ∧ w'.Balanced ∧
      w'.taskScheduled.toNat = w.taskScheduled.toNat + (split superSectorNum lba.toNat blocks).length := by
  have hofNat : (UInt32.ofNat blocks).toNat = blocks := UInt32.toNat_ofNat_of_lt' h32
  obtain ⟨w₁, ret, w₂, hcopy, htransfer, hwaits⟩ := exec_sioChunk_write hrun
  have hsame := World.memcpy_sameTasks hcopy
  have hsub := sioTransfer_submits .write raid mem lba (UInt32.ofNat blocks) (by omega) (by omega)
  have hlen : (pieces .write raid mem lba.toNat (UInt32.ofNat blocks).toNat).length =
      (split superSectorNum lba.toNat blocks).length := by
    rw [hofNat]
    exact List.length_map _
  obtain ⟨hret, hbal₂, hts₂, _⟩ := hsub.counts hπ (hsame.balanced hbal)
    (by rwa [hsame.scheduled, hlen]) htransfer
  obtain ⟨done, hwait, hrc⟩ := hwaits hret
  cases done with
  | none => exact absurd hrc (by simp)
  | some _ =>
    obtain ⟨hidle, hbal₃, hts₃⟩ := sioWaittasks_idle hπ hbal₂ hwait
    exact ⟨Option.some.inj hrc, hidle, hbal₃, by rw [hts₃, hts₂, hsame.scheduled, hlen]⟩

theorem sioChunks_idle (mem payload : Ptr) (lba : UInt64) (lbaCount : UInt32) {rc : ℤ} (hπ : ¬ π.reject)
    (hbal : w.Balanced) (hlt : lba.toNat + lbaCount.toNat < 2 ^ 64)
    (htasks : w.taskScheduled.toNat + sioTasks n lba.toNat lbaCount.toNat < 2 ^ 64)
    (hstart : w.flights = 0 ∨ lbaCount ≠ 0)
    (hrun : Runs π (sioChunks .write raid rounds mem payload lba lbaCount) w (some rc) w') :
    w'.flights = 0 ∧ w'.Balanced := by
  induction payload, lba, lbaCount using @sioChunks.induct n _ generalizing w with
  | case1 payload lba lbaCount h ih =>
    have h32 := lbaCount.toNat_lt
    have hpos := gigaSectorNum_pos n
    have hlba' : (lba + UInt64.ofNat (gigaSectorNum n)).toNat = lba.toNat + gigaSectorNum n :=
      toNat_add_ofNat (by omega)
    rw [hlba', toNat_sub_ofNat h] at ih
    rw [sioTasks, if_pos ⟨hpos, h⟩] at htasks
    rw [sioChunks, dif_pos h] at hrun
    obtain ⟨res, w₁, hchunk, hrun⟩ := exec_bind.mp hrun
    cases res with
    | none => exact absurd hrun.1 (by simp)
    | some rc₁ =>
      obtain ⟨rfl, hidle, hbal₁, hts₁⟩ :=
        sioChunk_idle hπ hbal hpos (by omega) (by omega) (by omega) hchunk
      exact ih hbal₁ (by omega) (by omega) (Or.inl hidle) hrun
  | case2 payload lba lbaCount h hpos =>
    have hne : lbaCount.toNat ≠ 0 := fun hz => hpos (UInt32.toNat_inj.mp hz)
    rw [sioTasks, if_neg fun hc => h hc.2] at htasks
    rw [sioChunks, dif_neg h, if_pos hpos] at hrun
    obtain ⟨_, hidle, hbal', _⟩ := sioChunk_idle hπ hbal (by omega) lbaCount.toNat_lt hlt htasks hrun
    exact ⟨hidle, hbal'⟩
  | case3 payload lba lbaCount h hzero =>
    rw [sioChunks, dif_neg h, if_neg hzero] at hrun
    obtain ⟨_, rfl⟩ := exec_pure.mp hrun
    exact ⟨hstart.resolve_right hzero, hbal⟩

theorem copyWhole_idle {s : Slot n} {map : Ptr} {blocks : UInt64} (hπ : ¬ π.reject) (hbal : w.Balanced)
    (htasks : w.taskScheduled.toNat < 2 ^ 63)
    (hlt : (raid.file s).startBlock.toNat + blocks.toNat < 2 ^ 64)
    (hstart : w.flights = 0 ∨ blocks.toUInt32 ≠ 0)
    (hrun : Runs π (copyWhole raid rounds (some s) map blocks) w (some ()) w') :
    w'.flights = 0 ∧ w'.Balanced := by
  unfold copyWhole at hrun
  split_ifs at hrun with hblocks
  · obtain ⟨res, w₁, htransfer, hrun⟩ := exec_bind.mp hrun
    cases res with
    | none => exact absurd hrun.1 (by simp)
    | some rc =>
      obtain ⟨_, rfl⟩ := exec_pure.mp hrun
      obtain ⟨mem, w₂, hmalloc, hchunks⟩ := exec_bind.mp htransfer
      have hsame := World.malloc_sameTasks hmalloc
      cases mem with
      | none => exact absurd hchunks.1 (by simp)
      | some mem =>
        have hcount := toNat_toUInt32_le blocks
        have h32 := blocks.toUInt32.toNat_lt
        have hle := sioTasks_le n (raid.file s).startBlock.toNat blocks.toUInt32.toNat
        exact sioChunks_idle _ _ _ _ hπ (hsame.balanced hbal) (by omega)
          (by rw [hsame.scheduled]; omega) (hstart.imp_left hsame.idle) hchunks
  · obtain ⟨_, rfl⟩ := exec_pure.mp hrun
    refine ⟨hstart.resolve_right fun hne => hne ?_, hbal⟩
    rw [not_not] at hblocks
    rw [hblocks]
    rfl

def LeavesNothing (raid : NvmeRaid n) (name : Name) (originSize : UInt64) : Prop :=
  ∀ π : Policy, ¬ π.reject → ∀ w map, Fresh w map → ∀ rounds raid' w',
    Runs π (copyIn raid rounds name map originSize) w (some raid') w' →
      w'.taskCompleted = w'.taskScheduled ∧ w'.flights = 0

theorem counters_eq (hidle : w.flights = 0) (hbal : w.Balanced) : w.taskCompleted = w.taskScheduled := by
  apply UInt64.toNat_inj.mp
  unfold World.Balanced at hbal
  rw [hbal, hidle, Multiset.card_zero, Nat.add_zero]

section copies
variable {name : Name} {originSize : UInt64} {s : Slot n} {map : Ptr}

theorem copyBlocks_idle (hπ : ¬ π.reject) (hidle : w.flights = 0) (hbal : w.Balanced)
    (htasks : w.taskScheduled.toNat + 1 < 2 ^ 63)
    (hlt : (raid.file s).startBlock.toNat + (originBlocks originSize).toNat < 2 ^ 64)
    (hmap : map.buf < w.nextBuf)
    (hwaits : originSize.toNat % 512 = 0 ∨ originSize.toNat / 512 % 2 ^ 32 ≠ 0)
    (hrun : Runs π (copyBlocks raid rounds (some s) map originSize) w (some ()) w') :
    w'.flights = 0 ∧ w'.Balanced := by
  have hsize := originBlocks_toNat originSize
  unfold copyBlocks at hrun
  split_ifs at hrun with hmod
  · obtain ⟨hblocks, _, _⟩ := originBlocks_sub_one hmod
    obtain ⟨res, wm, hmalloc, hrun⟩ := exec_bind.mp hrun
    cases res with
    | none => exact absurd hrun.1 (by simp)
    | some p =>
      obtain ⟨_, wc, hcopy, hrun⟩ := exec_bind.mp hrun
      obtain ⟨rc, wb, hblock, hlater⟩ := exec_bind.mp hrun
      obtain ⟨_, _, hbal₁, hts₁, _⟩ :=
        paddedBlock_run hπ hidle hbal htasks hlt hmap hmod hmalloc hcopy hblock
      rw [mod_sectorLength_ne] at hmod
      have hcount : (originBlocks originSize - 1).toUInt32 ≠ 0 := by
        rw [Ne, ← UInt32.toNat_inj, UInt64.toNat_toUInt32, UInt32.toNat_zero]
        have hwhole : (originBlocks originSize - 1).toNat = originSize.toNat / 512 := by omega
        rw [hwhole]
        exact hwaits.resolve_left hmod
      exact copyWhole_idle hπ hbal₁ (by omega) (by omega) (Or.inr hcount) hlater
  · exact copyWhole_idle hπ hbal (by omega) hlt (Or.inl hidle) hrun

theorem leavesNothing_of_waits (hi : TableInv raid) (hn : n ≤ maxDisks)
    (ht : n * 256 ≤ raid.totalBlocks.toNat) (hfit : FileFits raid name originSize)
    (hwaits : originSize.toNat % 512 = 0 ∨ originSize.toNat / 512 % 2 ^ 32 ≠ 0) :
    LeavesNothing raid name originSize := by
  intro π hπ w map hw rounds raid' w' hrun
  obtain ⟨s, raid₁, wt, r, hs, htarget, hcopy, hr⟩ := exec_copyIn_fits hi hn ht hfit hrun
  obtain ⟨_, rfl, rfl⟩ := Option.map_eq_some_iff.mp hr.symm
  have hkeeps := copyTarget_keeps htarget
  have hts : wt.taskScheduled.toNat = 0 := by rw [hkeeps.scheduled, hw.scheduled_toNat]
  obtain ⟨hidle, hbal⟩ := copyBlocks_idle hπ (hkeeps.idle hw.idle) (hkeeps.balanced hw.balanced) (by omega)
    hs.lt (hw.mapped.trans_le hkeeps.nextBuf_le) hwaits hcopy
  exact ⟨counters_eq hidle hbal, hidle⟩

end copies

namespace World

def stalled : (o : Op) → World → Ans o × World
  | .cmd c, w => (0, { w with bus := w.bus.submit c.xfer c.ns })
  | .schedule, w => ((), { w with taskScheduled := w.taskScheduled + 1 })
  | .process _, w => ((), w)
  | .waiting, w => (decide (w.taskCompleted < w.taskScheduled), w)
  | .malloc _ _, w =>
    let m : Store Space UInt8 := fun s a => if s = .mem w.nextBuf then 0 else w.bus.store s a
    (some w.nextBuf, { w.setStore m with nextBuf := w.nextBuf + 1 })
  | .memcpy dst src len, w => ((), w.setStore ((memXfer dst src len).exec w.bus.store))
  | .readWait ns lba, w => ((0, w.sector ns lba), w)
  | .writeWait ns lba data, w => (0, w.setStore (writeSector w.bus.store ns lba data))

theorem step_stalled (π : Policy) (o : Op) (w : World) : step π o w (stalled o w).1 (stalled o w).2 := by
  refine ⟨w.bus, .refl, ?_⟩
  cases o with
  | cmd c => exact Or.inl ⟨rfl, rfl⟩
  | schedule => rfl
  | process ns => exact ⟨0, w.bus, ⟨rfl, 0, rfl, (zero_add _).symm, by simp⟩, by simp [stalled]⟩
  | waiting => exact ⟨rfl, rfl⟩
  | malloc len zero =>
    exact Or.inl ⟨rfl, _, fun s a hs => if_neg hs, fun _ a => if_pos rfl, rfl⟩
  | memcpy dst src len => rfl
  | readWait ns lba => exact ⟨rfl, Or.inl ⟨rfl, rfl⟩⟩
  | writeWait ns lba data => exact Or.inl ⟨rfl, rfl⟩

end World

open World

theorem runs_stalled {α : Type} (π : Policy) (p : Nvme α) (w : World) :
    Runs π p w (run stalled p w).1 (run stalled p w).2 :=
  exec_run (step_stalled π) p w

omit [NeZero n] in
theorem run_stalled_pollAll (raid : NvmeRaid n) (w : World) : run stalled (pollAll raid) w = ((), w) := by
  unfold pollAll
  induction List.finRange n with
  | nil => rfl
  | cons i l ih => exact ih

def World.Pending (k : ℕ) (w w' : World) : Prop :=
  w'.taskScheduled.toNat = w.taskScheduled.toNat + k ∧ w'.taskCompleted = w.taskCompleted

theorem World.Pending.trans {j k : ℕ} (h : w.Pending j w₁) (h' : w₁.Pending k w') :
    w.Pending (j + k) w' :=
  ⟨by rw [h'.1, h.1, Nat.add_assoc], h'.2.trans h.2⟩

theorem run_stalled_block (raid : NvmeRaid n) (payload : Ptr) (lba : UInt64)
    (htasks : w.taskScheduled.toNat + 1 < 2 ^ 64) :
    w.Pending 1 (run stalled (sioRwrite raid payload lba 1) w).2 := by
  have hfit : (1 : UInt32).toNat ≤ toBoundary lba := toBoundary_pos lba
  rw [sioRwrite, sioTransfer, dif_pos hfit]
  simp only [cmd, schedule, Op.ask, run_bind, run_ask, stalled, ne_eq, not_true_eq_false, if_false,
    run_stalled_pollAll, run_pure]
  exact ⟨toNat_add_ofNat htasks, rfl⟩

section stalled
variable {name : Name} {originSize : UInt64} {s : Slot n} {map : Ptr}

theorem run_stalled_copyWhole (raid : NvmeRaid n) (rounds : ℕ) (s : Slot n) (map : Ptr) {blocks : UInt64}
    (w : World) (hzero : blocks.toUInt32 = 0) :
    (run stalled (copyWhole raid rounds (some s) map blocks) w).1 = some () ∧
      w.Pending 0 (run stalled (copyWhole raid rounds (some s) map blocks) w).2 := by
  have hpos := gigaSectorNum_pos n
  have hnone : ¬ gigaSectorNum n ≤ (0 : UInt32).toNat := Nat.not_le.mpr hpos
  unfold copyWhole
  split_ifs with hblocks
  · simp only [sioRwritePinit, sioTransferPinit, spdkMalloc, Op.ask, run_bind, run_ask, stalled, hzero]
    rw [sioChunks, dif_neg hnone, if_neg (by simp)]
    exact ⟨rfl, rfl, rfl⟩
  · exact ⟨rfl, rfl, rfl⟩

theorem run_stalled_copyBlocks (raid : NvmeRaid n) (rounds : ℕ) (s : Slot n) (map : Ptr) (w : World)
    (htasks : w.taskScheduled.toNat + 1 < 2 ^ 64) (hmod : originSize.toNat % 512 ≠ 0)
    (hzero : originSize.toNat / 512 % 2 ^ 32 = 0) :
    (run stalled (copyBlocks raid rounds (some s) map originSize) w).1 = some () ∧
      w.Pending 1 (run stalled (copyBlocks raid rounds (some s) map originSize) w).2 := by
  have hsize := originBlocks_toNat originSize
  have hmod' := mod_sectorLength_ne.mpr hmod
  obtain ⟨hblocks, _⟩ := originBlocks_sub_one hmod'
  have hwhole : (originBlocks originSize - 1).toNat = originSize.toNat / 512 := by omega
  have hcount : (originBlocks originSize - 1).toUInt32 = 0 := by
    rw [← UInt32.toNat_inj, UInt64.toNat_toUInt32, UInt32.toNat_zero, hwhole, hzero]
  -- up to the write of the last sector no task is counted
  obtain ⟨w₁, heq, hsched, hcompl⟩ : ∃ w₁ : World,
      run stalled (copyBlocks raid rounds (some s) map originSize) w =
        run stalled (sioRwrite raid ⟨w.nextBuf, 0⟩
            ((raid.file s).startBlock + (originBlocks originSize - 1)) 1 >>= fun _ =>
          copyWhole raid rounds (some s) map (originBlocks originSize - 1)) w₁ ∧
        w₁.taskScheduled = w.taskScheduled ∧ w₁.taskCompleted = w.taskCompleted := by
    unfold copyBlocks
    rw [if_pos hmod']
    exact ⟨_, rfl, rfl, rfl⟩
  rw [heq, run_bind]
  have hblock := run_stalled_block raid ⟨w.nextBuf, 0⟩
    ((raid.file s).startBlock + (originBlocks originSize - 1)) (by rwa [hsched])
  obtain ⟨hdone, hwhole⟩ := run_stalled_copyWhole raid rounds s map
    (run stalled (sioRwrite raid ⟨w.nextBuf, 0⟩
      ((raid.file s).startBlock + (originBlocks originSize - 1)) 1) w₁).2 hcount
  have hboth := hblock.trans hwhole
  unfold World.Pending at hboth ⊢
  rw [hsched, hcompl] at hboth
  exact ⟨hdone, hboth⟩

theorem not_leavesNothing (hi : TableInv raid) (hn : n ≤ maxDisks)
    (ht : n * 256 ≤ raid.totalBlocks.toNat) (hfit : FileFits raid name originSize)
    (hmod : originSize.toNat % 512 ≠ 0) (hzero : originSize.toNat / 512 % 2 ^ 32 = 0) :
    ¬ LeavesNothing raid name originSize := by
  intro hall
  let w : World := ⟨⟨fun _ _ => 0, 0⟩, 0, 0, 1⟩
  have hw : Fresh w ⟨0, 0⟩ := ⟨rfl, rfl, rfl, Nat.one_pos⟩
  have hrun := runs_stalled flawless (copyIn raid 0 name ⟨0, 0⟩ originSize) w
  have htarget := runs_stalled flawless (copyTarget raid name originSize false) w
  unfold copyIn at hrun
  rw [run_bind] at hrun
  generalize run stalled (copyTarget raid name originSize false) w = r at hrun htarget
  obtain ⟨⟨t, raid₁⟩, w₁⟩ := r
  obtain ⟨s, rfl, _⟩ := copyTarget_fits hi hn ht hfit (Exec.returns htarget)
  have hkeeps := copyTarget_keeps htarget
  have hts : w₁.taskScheduled.toNat = 0 := by rw [hkeeps.scheduled, hw.scheduled_toNat]
  obtain ⟨hdone, hsched, hcompl⟩ := run_stalled_copyBlocks raid₁ 0 s ⟨0, 0⟩ w₁ (by omega) hmod hzero
  simp only [run_bind, hdone, run_pure] at hrun
  obtain ⟨hcounters, _⟩ := hall flawless id w ⟨0, 0⟩ hw 0 _ _ hrun
  rw [hcompl, hkeeps.completed, hw.completed] at hcounters
  rw [← hcounters, hts] at hsched
  exact absurd hsched (by decide)

end stalled

/-- A copy waits for all its writes exactly when the last wait of the whole sectors is made: behind a
padded sector there must be whole ones, as the parameter for their number shows them. -/
theorem leavesNothing_iff {raid₀ raid : NvmeRaid n} {name : Name} {originSize : UInt64} (hn : n ≤ maxDisks)
    (h0 : raid₀.numFiles = 0) (h : Reachable raid₀ raid)
    (hholds : n * superSectorNum ≤ raid₀.totalBlocks.toNat) (hfit : FileFits raid name originSize) :
    LeavesNothing raid name originSize ↔
      originSize.toNat % 512 = 0 ∨ originSize.toNat / 512 % 2 ^ 32 ≠ 0 := by
  have hi := h.inv hn hholds h0
  have ht : n * 256 ≤ raid.totalBlocks.toNat := by
    rw [h.totalBlocks]
    exact hholds
  constructor
  · intro hall
    by_contra hwaits
    push Not at hwaits
    exact not_leavesNothing hi hn ht hfit hwaits.1 hwaits.2 hall
  · exact leavesNothing_of_waits hi hn ht hfit

theorem leavesNothing_iff_one_disk :
    LeavesNothing (formatted (attached fun _ : Fin 1 => 1024)) (fun _ => 65) 700 := by
  let raid : NvmeRaid 1 := formatted (attached fun _ => 1024)
  have hfree : freeSlot raid = some (0, 0) := by decide +kernel
  have hfit : FileFits raid (fun _ => 65) 700 :=
    fileFits_of_admits ⟨by decide +kernel, by decide, by decide +kernel, by decide⟩ hfree
  have hreach : Reachable (attached fun _ : Fin 1 => 1024) raid := ⟨_, formatRaid_returns.mpr rfl, .refl⟩
  exact (leavesNothing_iff (by decide) rfl hreach (by decide +kernel) hfit).mpr (by decide)

/-- A file of 100 bytes is one padded sector, and nothing is waited for. -/
theorem padded_sector_outstanding :
    ¬ ∀ (raid : NvmeRaid 1) (name : Name) (originSize : UInt64),
      Reachable (attached fun _ : Fin 1 => 1024) raid → FileFits raid name originSize →
        LeavesNothing raid name originSize := by
  intro hall
  let raid : NvmeRaid 1 := formatted (attached fun _ => 1024)
  have hfree : freeSlot raid = some (0, 0) := by decide +kernel
  have hfit : FileFits raid (fun _ => 65) 100 :=
    fileFits_of_admits ⟨by decide +kernel, by decide, by decide +kernel, by decide⟩ hfree
  have hreach : Reachable (attached fun _ : Fin 1 => 1024) raid := ⟨_, formatRaid_returns.mpr rfl, .refl⟩
  have hi : TableInv raid := hreach.inv (by decide) (by decide +kernel) rfl
  exact not_leavesNothing hi (by decide) (by decide +kernel) hfit (by decide) (by decide)
    (hall raid _ _ hreach hfit)

end PcapReplay
