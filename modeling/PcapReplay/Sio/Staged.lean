import PcapReplay.Sio.Flat
import PcapReplay.Sio.Prompt

/-! `sio_rread_pinit` and `sio_rwrite_pinit` under every order of completion. -/

namespace PcapReplay
open Interaction Dma Prog
variable {n : ℕ} [NeZero n] {raid : NvmeRaid n} {π : Policy} {w w' : World} {rounds : ℕ} {payload : Ptr}
  {lba : UInt64} {lbaCount : UInt32}

def BlockCells (raid : NvmeRaid n) (lba count : ℕ) (s : Space) (a : ℕ) : Prop :=
  ∃ b, (lba ≤ b ∧ b < lba + count) ∧ s = blockSpace raid b ∧ blockByte n b ≤ a ∧
    a < blockByte n b + sectorLength

def PayloadCells (payload : Ptr) (count : ℕ) (s : Space) (a : ℕ) : Prop :=
  s = .mem payload.buf ∧ payload.off ≤ a ∧ a < payload.off + count * sectorLength

def StagedCells (raid : NvmeRaid n) (mem : ℕ) (payload : Ptr) (lba count : ℕ) (s : Space) (a : ℕ) : Prop :=
  s = .mem mem ∨ PayloadCells payload count s a ∨ BlockCells raid lba count s a

theorem hasCells_stagedCells (dir : Dir) (raid : NvmeRaid n) (mem : ℕ) (payload : Ptr) (lba count : ℕ) :
    HasCells (StagedCells raid mem payload lba count) dir raid payload lba count := by
  intro b hb hlt s a hcell
  have hdisk : s = blockSpace raid b ∧ blockByte n b ≤ a ∧ a < blockByte n b + sectorLength →
      StagedCells raid mem payload lba count s a := fun h => Or.inr (Or.inr ⟨b, ⟨hb, hlt⟩, h⟩)
  have hpayload : s = .mem payload.buf ∧ payload.off + (b - lba) * sectorLength ≤ a ∧
      a < payload.off + (b - lba) * sectorLength + sectorLength →
      StagedCells raid mem payload lba count s a := by
    simp only [sectorLength_eq]
    rintro ⟨rfl, hle, hlt'⟩
    exact Or.inr (Or.inl ⟨rfl, by omega, by simp only [sectorLength_eq]; omega⟩)
  cases dir with
  | read =>
    rw [blockCmd_read] at hcell
    exact hcell.elim hdisk hpayload
  | write =>
    rw [blockCmd_write] at hcell
    exact hcell.elim hpayload hdisk

def WriteDone (raid : NvmeRaid n) (payload : Ptr) (lba : UInt64) (count : ℕ) (w w' : World) : Prop :=
  ∃ v, Bus.Evolves w.bus v ∧ w'.flights = v.flights ∧
    (∀ k < count, ∀ a : Fin sectorLength, flat raid w'.bus.store (lba + UInt64.ofNat k) a =
      w.bus.store (.mem payload.buf) (payload.off + k * sectorLength + a)) ∧
    ∀ s a, s ≠ .mem w.nextBuf → ¬ BlockCells raid lba.toNat count s a → w'.bus.store s a = v.store s a

def ReadDone (raid : NvmeRaid n) (payload : Ptr) (lba : UInt64) (count : ℕ) (w w' : World) : Prop :=
  ∃ v, Bus.Evolves w.bus v ∧ w'.flights = v.flights ∧
    (∀ k < count, ∀ a : Fin sectorLength,
      w'.bus.store (.mem payload.buf) (payload.off + k * sectorLength + a) =
        flat raid w.bus.store (lba + UInt64.ofNat k) a) ∧
    ∀ s a, s ≠ .mem w.nextBuf → ¬ PayloadCells payload count s a → w'.bus.store s a = v.store s a

section effect
variable {count mem : ℕ} {m₀ m : Store Space UInt8}

theorem kept_of_write {s : Space} {a : ℕ}
    (h : Effect (fun s a => StagedCells raid mem payload lba.toNat count s a ∧ s ≠ .mem mem)
      (blockXfers .write raid payload lba.toNat count : Multiset (Xfer Space)) m₀ m)
    (hs : StagedCells raid mem payload lba.toNat count s a) (hne : s ≠ .mem mem)
    (hblock : ¬ BlockCells raid lba.toNat count s a) : m s a = m₀ s a := by
  apply h.kept s a ⟨hs, hne⟩
  intro x hx hw
  obtain ⟨b, hb, rfl⟩ := (mem_blockXfers .write raid payload).mp (Multiset.mem_coe.mp hx)
  rw [blockCmd_write] at hw
  exact hblock ⟨b, hb, hw⟩

theorem kept_of_read {s : Space} {a : ℕ}
    (h : Effect (fun s a => StagedCells raid mem payload lba.toNat count s a ∧ s ≠ .mem mem)
      (blockXfers .read raid payload lba.toNat count : Multiset (Xfer Space)) m₀ m)
    (hs : StagedCells raid mem payload lba.toNat count s a) (hne : s ≠ .mem mem)
    (hpayload : ¬ PayloadCells payload count s a) : m s a = m₀ s a := by
  apply h.kept s a ⟨hs, hne⟩
  intro x hx hw
  obtain ⟨b, hb, rfl⟩ := (mem_blockXfers .read raid payload).mp (Multiset.mem_coe.mp hx)
  rw [blockCmd_read] at hw
  obtain ⟨rfl, hle, hlt⟩ := hw
  simp only [sectorLength_eq] at hle hlt
  exact hpayload ⟨rfl, by omega, by simp only [sectorLength_eq]; omega⟩

end effect

/-- Whatever the order in which the commands move their data and complete, a staged transfer that
returns is done. The task counter must not wrap during the call. -/
theorem sioPinit_done (hπ : ¬ π.reject) (raid : NvmeRaid n) (rounds : ℕ) (payload : Ptr) (lba : UInt64)
    (lbaCount : UInt32) (w : World) (hlt : lba.toNat + lbaCount.toNat + superSectorNum ≤ 2 ^ 64)
    (hbal : w.Balanced) (htasks : w.taskScheduled.toNat + sioTasks n lba.toNat lbaCount.toNat < 2 ^ 64)
    (hbuf : payload.buf ≠ w.nextBuf)
    (hothers : w.bus.Avoids (StagedCells raid w.nextBuf payload lba.toNat lbaCount.toNat)) :
    (∀ rc w', Runs π (sioRwritePinit raid rounds payload lba lbaCount) w (some rc) w' →
      rc = 0 ∧ WriteDone raid payload lba lbaCount.toNat w w') ∧
    (∀ rc w', Runs π (sioRreadPinit raid rounds payload lba lbaCount) w (some rc) w' →
      rc = 0 ∧ ReadDone raid payload lba lbaCount.toNat w w') := by
  have hmem : ∀ a, StagedCells raid w.nextBuf payload lba.toNat lbaCount.toNat (.mem w.nextBuf) a :=
    fun a => Or.inl rfl
  have hlt' : lba.toNat + lbaCount.toNat < 2 ^ 64 := by
    simp only [superSectorNum_eq] at hlt
    omega
  have hblock : ∀ k < lbaCount.toNat, (lba + UInt64.ofNat k).toNat = lba.toNat + k :=
    fun k hk => toNat_add_ofNat (by omega)
  constructor
  · intro rc w' hrun
    obtain ⟨hrc, hrest, heff⟩ := sioTransferPinit_run hπ hmem
      (hasCells_stagedCells _ _ _ _ _ _) hothers hbuf hlt' hbal htasks hrun
    obtain ⟨v, hev, hflights, hframe, hown⟩ := hrest.others hothers
    refine ⟨hrc, v, hev, hflights, fun k hk a => ?_, fun s a hne hb => ?_⟩
    · rw [flat_of_written heff (by rw [hblock k hk]; omega), hblock k hk, Nat.add_sub_cancel_left]
    · by_cases hs : StagedCells raid w.nextBuf payload lba.toNat lbaCount.toNat s a
      · rw [kept_of_write heff hs hne hb, hown s a hs]
      · exact hframe s a hs
  · intro rc w' hrun
    obtain ⟨hrc, hrest, heff⟩ := sioTransferPinit_run hπ hmem
      (hasCells_stagedCells _ _ _ _ _ _) hothers hbuf hlt' hbal htasks hrun
    obtain ⟨v, hev, hflights, hframe, hown⟩ := hrest.others hothers
    refine ⟨hrc, v, hev, hflights, fun k hk a => ?_, fun s a hne hp => ?_⟩
    · exact payload_of_read heff (by omega) hk a
    · by_cases hs : StagedCells raid w.nextBuf payload lba.toNat lbaCount.toNat s a
      · rw [kept_of_read heff hs hne hp, hown s a hs]
      · exact hframe s a hs

theorem sioPinit_done_two_disks : ∃ w',
    Runs ⟨False, False, False⟩ (sioRwritePinit (attached fun _ : Fin 2 => 1024) 2 ⟨0, 0⟩ 700 600)
      ⟨⟨fun _ _ => 0, 0⟩, 0, 0, 1⟩ (some 0) w' ∧
    WriteDone (attached fun _ : Fin 2 => 1024) ⟨0, 0⟩ 700 600 ⟨⟨fun _ _ => 0, 0⟩, 0, 0, 1⟩ w' := by
  let raid : NvmeRaid 2 := attached fun _ => 1024
  let w : World := ⟨⟨fun _ _ => 0, 0⟩, 0, 0, 1⟩
  have htasks : w.taskScheduled.toNat + sioTasks 2 700 600 < 2 ^ 64 := by
    have := sioTasks_le 2 700 600
    simp only [w, UInt64.toNat_zero]
    omega
  have hbal : w.Balanced := rfl
  have hidle : w.flights = 0 := rfl
  obtain ⟨r, w', hrun⟩ := exists_promptRuns ⟨False, False, False⟩ (sioRwritePinit raid 2 ⟨0, 0⟩ 700 600) w
  obtain ⟨rfl, _⟩ := sioTransferPinit_returns id id hidle hbal (by decide) htasks hrun
  have hdone := (sioPinit_done id raid 2 ⟨0, 0⟩ 700 600 w (by decide) hbal htasks (by decide)
    (Bus.avoids_of_idle hidle)).1 0 w' hrun.runs
  exact ⟨w', hrun.runs, hdone.2⟩

omit [NeZero n] in
theorem pollAll_nothing (π : Policy) (raid : NvmeRaid n) (w : World) : Runs π (pollAll raid) w () w := by
  have hstep : ∀ ns, World.step π (.process ns) w () w := by
    intro ns
    refine ⟨w.bus, .refl, 0, w.bus, ⟨rfl, 0, rfl, (zero_add _).symm, by simp⟩, ?_⟩
    show w = { w with taskCompleted := w.taskCompleted + 0 }
    rw [UInt64.add_zero]
  have hlist : ∀ l : List (Fin n), Runs π (l.forM fun i => process (raid.ns i)) w () w := by
    intro l
    induction l with
    | nil => exact exec_pure.mpr ⟨rfl, rfl⟩
    | cons i l ih => exact exec_bind.mpr ⟨(), w, exec_ask.mpr (hstep _), ih⟩
  exact hlist _

theorem exec_malloc (π : Policy) (len : ℕ) (w : World) :
    Runs π (spdkMalloc len) w (some w.nextBuf) { w with nextBuf := w.nextBuf + 1 } :=
  exec_ask.mpr ⟨w.bus, .refl, Or.inl ⟨rfl, w.bus.store, fun _ _ _ => rfl, nofun, rfl⟩⟩

/-- A counter that wraps during the call ends the wait at once. -/
theorem sioPinit_wrapped_counter : ∃ w w' : World, w.Balanced ∧ w.flights = 0 ∧
    Runs ⟨False, False, False⟩ (sioRwritePinit (attached fun _ : Fin 1 => 1024) 1 ⟨0, 0⟩ 0 1) w (some 0) w' ∧
    ¬ WriteDone (attached fun _ : Fin 1 => 1024) ⟨0, 0⟩ 0 1 w w' := by
  let raid : NvmeRaid 1 := attached fun _ => 1024
  let π : Policy := ⟨False, False, False⟩
  let w : World := ⟨⟨fun _ _ => 0, 0⟩, 18446744073709551615, 18446744073709551615, 1⟩
  let w₁ : World := { w with nextBuf := 2 }
  let w₂ : World := w₁.setStore ((memXfer ⟨1, 0⟩ ⟨0, 0⟩ (1 * sectorLength)).exec w.bus.store)
  let c : Command := sioCmd .write raid ⟨1, 0⟩ 0 (UInt32.ofNat 1)
  let w₃ : World := { w₂ with bus := w₂.bus.submit c.xfer c.ns }
  let w₄ : World := { w₃ with taskScheduled := w₃.taskScheduled + 1 }
  have htransfer : Runs π (sioTransfer .write raid ⟨1, 0⟩ 0 (UInt32.ofNat 1)) w₂ 0 w₄ := by
    rw [sioTransfer, dif_pos (by decide)]
    refine exec_bind.mpr ⟨0, w₃, exec_ask.mpr ⟨w₂.bus, .refl, Or.inl ⟨rfl, rfl⟩⟩, ?_⟩
    refine exec_bind.mpr ⟨(), w₄, exec_ask.mpr ⟨w₃.bus, .refl, rfl⟩, ?_⟩
    exact exec_bind.mpr ⟨(), w₄, pollAll_nothing π raid w₄, exec_pure.mpr ⟨rfl, rfl⟩⟩
  have hwait : Runs π (sioWaittasks raid 1) w₄ (some ()) w₄ := by
    have hstop : false = decide (w₄.taskCompleted < w₄.taskScheduled) := by decide
    exact exec_bind.mpr ⟨false, w₄, exec_ask.mpr ⟨w₄.bus, .refl, hstop, rfl⟩, exec_pure.mpr ⟨rfl, rfl⟩⟩
  refine ⟨w, w₄, (Nat.add_zero _).symm, rfl, ?_, ?_⟩
  · refine exec_bind.mpr ⟨some 1, w₁, exec_malloc π _ w, ?_⟩
    show Runs π (sioChunks .write raid 1 ⟨1, 0⟩ ⟨0, 0⟩ 0 1) w₁ (some 0) w₄
    rw [sioChunks, dif_neg (by decide), if_pos (by decide)]
    refine exec_bind.mpr ⟨(), w₂, exec_ask.mpr ⟨w₁.bus, .refl, rfl⟩, ?_⟩
    refine exec_bind.mpr ⟨0, w₄, htransfer, ?_⟩
    exact exec_bind.mpr ⟨some (), w₄, hwait, exec_pure.mpr ⟨rfl, rfl⟩⟩
  · rintro ⟨v, hev, hflights, _⟩
    rw [hev.of_idle rfl] at hflights
    have hcons : w₄.flights = ⟨c.xfer, c.ns, false⟩ ::ₘ 0 := rfl
    exact absurd (hcons.symm.trans hflights) Multiset.cons_ne_zero

end PcapReplay
