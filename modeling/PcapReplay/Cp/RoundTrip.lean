import PcapReplay.Cp.Prompt

/-! A file copied into the raid and out of it again. -/

namespace PcapReplay
open Interaction Dma Prog
variable {n : ℕ} [NeZero n]

def flawless : Policy := ⟨False, False, False⟩

structure Fresh (w : World) (map : Ptr) : Prop where
  idle : w.flights = 0
  scheduled : w.taskScheduled = 0
  completed : w.taskCompleted = 0
  mapped : map.buf < w.nextBuf

structure RoundTrip (raid : NvmeRaid n) (name : Name) (originSize : UInt64) (w : World) (map : Ptr) where
  raid' : NvmeRaid n
  rounds : ℕ
  returned : World
  copiedIn : Runs flawless (copyIn raid rounds name map originSize) w (some raid') returned
  settled : World
  completes : Bus.Evolves returned.bus settled.bus
  idle : settled.flights = 0
  -- the other process, with an empty file at `map'`
  other : World
  map' : Ptr
  disks : ∀ ns, other.bus.store (.disk ns) = settled.bus.store (.disk ns)
  fresh : Fresh other map'
  truncated : ∀ i, other.bus.store (.mem map'.buf) (map'.off + i) = 0
  rounds' : ℕ
  size : Option UInt64
  final : World
  copiedOut : Runs flawless (copyOut raid' rounds' name map') other (some size) final

def RoundTrip.out {raid : NvmeRaid n} {name : Name} {originSize : UInt64} {w : World} {map : Ptr}
    (t : RoundTrip raid name originSize w map) (i : ℕ) : UInt8 :=
  t.final.bus.store (.mem t.map'.buf) (t.map'.off + i)

def CopiesBack (raid : NvmeRaid n) (name : Name) (originSize : UInt64) : Prop :=
  ∀ w map, Fresh w map → Nonempty (RoundTrip raid name originSize w map) ∧
    ∀ t : RoundTrip raid name originSize w map, ∃ bytes, t.size = some bytes ∧
      bytes.toNat = (originSize.toNat + 511) / 512 * 512 ∧
      ∀ i < (originSize.toNat + 511) / 512 * 512, t.out i = padded w.bus.store map originSize.toNat i

namespace Fresh
variable {w : World} {map : Ptr}

theorem balanced (h : Fresh w map) : w.Balanced := by
  unfold World.Balanced
  rw [h.scheduled, h.completed, h.idle, Multiset.card_zero, Nat.add_zero]

theorem scheduled_toNat (h : Fresh w map) : w.taskScheduled.toNat = 0 := by
  rw [h.scheduled, UInt64.toNat_zero]

end Fresh

section copies
variable {raid raid' : NvmeRaid n} {name : Name} {originSize : UInt64} {w w₁ w₂ : World} {map : Ptr}
  {rounds : ℕ}

theorem exec_copyIn_fits {step : (o : Op) → World → Ans o → World → Prop} (hi : TableInv raid)
    (hn : n ≤ maxDisks) (ht : n * 256 ≤ raid.totalBlocks.toNat) (hfit : FileFits raid name originSize)
    {r : Option (NvmeRaid n)} (hrun : Exec step (copyIn raid rounds name map originSize) w r w₁) :
    ∃ s raid₁ wt c, Prepared raid₁ s name originSize ∧
      Exec step (copyTarget raid name originSize false) w (.file (some s), raid₁) wt ∧
      Exec step (copyBlocks raid₁ rounds (some s) map originSize) wt c w₁ ∧ r = c.map fun _ => raid₁ := by
  unfold copyIn at hrun
  obtain ⟨⟨t, raid₁⟩, wt, htarget, hrun⟩ := exec_bind.mp hrun
  obtain ⟨s, rfl, hs⟩ := copyTarget_fits hi hn ht hfit (Exec.returns htarget)
  obtain ⟨c, wc, hcopy, hrun⟩ := exec_bind.mp hrun
  cases c with
  | none =>
    obtain ⟨rfl, rfl⟩ := exec_pure.mp hrun
    exact ⟨s, raid₁, wt, none, hs, htarget, hcopy, rfl⟩
  | some _ =>
    obtain ⟨rfl, rfl⟩ := exec_pure.mp hrun
    exact ⟨s, raid₁, wt, some (), hs, htarget, hcopy, rfl⟩

theorem copyIn_run (hi : TableInv raid) (hn : n ≤ maxDisks) (ht : n * 256 ≤ raid.totalBlocks.toNat)
    (hfit : FileFits raid name originSize) (hw : Fresh w map)
    (hrun : Runs flawless (copyIn raid rounds name map originSize) w (some raid') w₁)
    (hev : Bus.Evolves w₁.bus w₂.bus) (hidle : w₂.flights = 0) :
    ∃ s, Prepared raid' s name originSize ∧ ((originBlocks originSize).toNat < 2 ^ 32 →
      BlocksAre raid' w₂.bus.store (raid'.file s).startBlock (originBlocks originSize).toNat
        (padded w.bus.store map originSize.toNat)) := by
  obtain ⟨s, raid₁, wt, r, hs, htarget, hcopy, hr⟩ := exec_copyIn_fits hi hn ht hfit hrun
  obtain ⟨_, rfl, rfl⟩ := Option.map_eq_some_iff.mp hr.symm
  refine ⟨s, hs, fun h32 => ?_⟩
  have hkeeps := copyTarget_keeps htarget
  have hts : wt.taskScheduled.toNat = 0 := by rw [hkeeps.scheduled, hw.scheduled_toNat]
  have hmap := hw.mapped.trans_le hkeeps.nextBuf_le
  have hblocks := copyBlocks_run id (hkeeps.idle hw.idle) (hkeeps.balanced hw.balanced) (by omega) hmap
    h32 hs.lt hcopy hev hidle
  unfold padded at hblocks ⊢
  rwa [hkeeps.memory hw.idle map.buf hw.mapped] at hblocks

theorem copyIn_returns (hi : TableInv raid) (hn : n ≤ maxDisks) (ht : n * 256 ≤ raid.totalBlocks.toNat)
    (hfit : FileFits raid name originSize) (hw : Fresh w map) {r : Option (NvmeRaid n)}
    (hrun : PromptRuns flawless (copyIn raid (rounds + 2) name map originSize) w r w₁) :
    ∃ raid', r = some raid' := by
  obtain ⟨s, raid₁, wt, c, hs, htarget, hcopy, rfl⟩ := exec_copyIn_fits hi hn ht hfit hrun
  have hkeeps := copyTarget_keeps (PromptRuns.runs htarget)
  have hts : wt.taskScheduled.toNat = 0 := by rw [hkeeps.scheduled, hw.scheduled_toNat]
  obtain rfl := copyBlocks_returns id id (hkeeps.idle hw.idle) (hkeeps.balanced hw.balanced) (by omega)
    (hw.mapped.trans_le hkeeps.nextBuf_le) hs.lt hcopy
  exact ⟨raid₁, rfl⟩

theorem exists_roundTrip (hi : TableInv raid) (hn : n ≤ maxDisks) (ht : n * 256 ≤ raid.totalBlocks.toNat)
    (hfit : FileFits raid name originSize) (hw : Fresh w map) :
    Nonempty (RoundTrip raid name originSize w map) := by
  obtain ⟨r, w₁, hin⟩ := exists_promptRuns flawless (copyIn raid 2 name map originSize) w
  obtain ⟨raid', rfl⟩ := copyIn_returns hi hn ht hfit hw hin
  obtain ⟨b, hev, hidle⟩ := w₁.bus.exists_settled
  let w₂ : World := { w₁ with bus := b }
  have hev₂ : Bus.Evolves w₁.bus w₂.bus := hev
  obtain ⟨s, hs, _⟩ := copyIn_run hi hn ht hfit hw hin.runs hev₂ hidle
  -- the other process finds the disks, and an empty file in a memory of zeros
  let m : Store Space UInt8 := fun s a =>
    match s with
    | .mem _ => 0
    | .disk ns => b.store (.disk ns) a
  let w₃ : World := ⟨⟨m, 0⟩, 0, 0, 1⟩
  have hw₃ : Fresh w₃ ⟨0, 0⟩ := ⟨rfl, rfl, rfl, Nat.one_pos⟩
  obtain ⟨r, w₄, hout⟩ := exists_promptRuns flawless (copyOut raid' 2 name ⟨0, 0⟩) w₃
  have hts : w₃.taskScheduled.toNat < 2 ^ 63 := by
    rw [hw₃.scheduled_toNat]
    decide
  obtain ⟨size, rfl⟩ := copyOut_returns id id hw₃.idle hw₃.balanced hts hs hout
  exact ⟨⟨raid', 2, w₁, hin.runs, w₂, hev, hidle, w₃, ⟨0, 0⟩, fun _ => rfl, hw₃, fun _ => rfl, 2, size, w₄,
    hout.runs⟩⟩

section trip
variable (hi : TableInv raid) (hn : n ≤ maxDisks) (ht : n * 256 ≤ raid.totalBlocks.toNat)
  (hfit : FileFits raid name originSize) (hw : Fresh w map) (t : RoundTrip raid name originSize w map)
include hi hn ht hfit hw

theorem RoundTrip.size_eq : t.size = some (originBlocks originSize * UInt64.ofNat sectorLength) := by
  obtain ⟨s, hs, _⟩ := copyIn_run hi hn ht hfit hw t.copiedIn t.completes t.idle
  have hts := t.fresh.scheduled_toNat
  exact (copyOut_run id t.fresh.idle t.fresh.balanced (by omega) t.fresh.mapped hs t.copiedOut).1

theorem RoundTrip.out_eq (h32 : (originBlocks originSize).toNat < 2 ^ 32) {i : ℕ}
    (hlt : i < (originBlocks originSize).toNat * 512) :
    t.out i = padded w.bus.store map originSize.toNat i := by
  obtain ⟨s, hs, hblocks⟩ := copyIn_run hi hn ht hfit hw t.copiedIn t.completes t.idle
  have hts := t.fresh.scheduled_toNat
  obtain ⟨_, hread, _⟩ :=
    copyOut_run id t.fresh.idle t.fresh.balanced (by omega) t.fresh.mapped hs t.copiedOut
  have hcount := toNat_toUInt32_of_lt h32
  have hk : i / 512 < (originBlocks originSize).toNat := Nat.div_lt_of_lt_mul (by omega)
  let a : Fin sectorLength := ⟨i % 512, Nat.mod_lt _ (by decide)⟩
  have hia : i / 512 * sectorLength + a = i := Nat.div_add_mod' i 512
  have hflat : flat t.raid' t.other.bus.store = flat t.raid' t.settled.bus.store := by
    funext b a
    exact congrFun (t.disks _) _
  have hout := hread (i / 512) (by omega) a
  rw [Nat.add_assoc, hia, hflat, hblocks h32 _ hk a, hia] at hout
  exact hout

theorem RoundTrip.out_eq_zero {i : ℕ} (hle : (originBlocks originSize).toNat % 2 ^ 32 * 512 ≤ i) :
    t.out i = 0 := by
  obtain ⟨s, hs, _⟩ := copyIn_run hi hn ht hfit hw t.copiedIn t.completes t.idle
  have hts := t.fresh.scheduled_toNat
  obtain ⟨_, _, hkept⟩ :=
    copyOut_run id t.fresh.idle t.fresh.balanced (by omega) t.fresh.mapped hs t.copiedOut
  rw [← t.truncated i]
  apply hkept
  rwa [UInt64.toNat_toUInt32]

end trip

section main
variable (hi : TableInv raid) (hn : n ≤ maxDisks) (ht : n * 256 ≤ raid.totalBlocks.toNat)
  (hfit : FileFits raid name originSize)
include hi hn ht hfit

theorem copiesBack_of_lt (h32 : (originBlocks originSize).toNat < 2 ^ 32) :
    CopiesBack raid name originSize := by
  intro w map hw
  refine ⟨exists_roundTrip hi hn ht hfit hw, fun t => ⟨_, t.size_eq hi hn ht hfit hw, ?_, fun i hlt => ?_⟩⟩
  · rw [← originBlocks_toNat, UInt64.toNat_mul, Nat.mod_eq_of_lt]
    · rfl
    · show (originBlocks originSize).toNat * 512 < 2 ^ 64
      omega
  · rw [← originBlocks_toNat] at hlt
    exact t.out_eq hi hn ht hfit hw h32 hlt

theorem not_copiesBack (h : 2 ^ 32 ≤ (originBlocks originSize).toNat) :
    ¬ CopiesBack raid name originSize := by
  intro hback
  let w : World := ⟨⟨fun _ _ => 1, 0⟩, 0, 0, 1⟩
  have hw : Fresh w ⟨0, 0⟩ := ⟨rfl, rfl, rfl, Nat.one_pos⟩
  have hblocks := originBlocks_toNat originSize
  obtain ⟨⟨t⟩, hall⟩ := hback w ⟨0, 0⟩ hw
  obtain ⟨_, _, _, hout⟩ := hall t
  have hone := hout ((originBlocks originSize).toNat % 2 ^ 32 * 512) (by omega)
  rw [t.out_eq_zero hi hn ht hfit hw le_rfl, padded, if_pos (by omega)] at hone
  exact absurd (show (0 : UInt8) = 1 from hone) (by decide)

end main

end copies

/-- A file that fits comes back from the raid exactly when its number of sectors has 32 bits. -/
theorem copiesBack_iff {raid₀ raid : NvmeRaid n} {name : Name} {originSize : UInt64} (hn : n ≤ maxDisks)
    (h0 : raid₀.numFiles = 0) (h : Reachable raid₀ raid)
    (hholds : n * superSectorNum + (originBlocks originSize).toNat ≤ raid₀.totalBlocks.toNat)
    (hfit : FileFits raid name originSize) :
    CopiesBack raid name originSize ↔ (originSize.toNat + 511) / 512 < 2 ^ 32 := by
  have ht : n * 256 ≤ raid₀.totalBlocks.toNat := (Nat.le_add_right _ _).trans hholds
  have hi := h.inv hn ht h0
  rw [← h.totalBlocks] at ht
  rw [← originBlocks_toNat]
  constructor
  · intro hback
    by_contra h32
    exact not_copiesBack hi hn ht hfit (Nat.not_lt.mp h32) hback
  · exact copiesBack_of_lt hi hn ht hfit

theorem copiesBack_iff_one_disk :
    CopiesBack (formatted (attached fun _ : Fin 1 => 1024)) (fun _ => 65) 700 := by
  let raid : NvmeRaid 1 := formatted (attached fun _ => 1024)
  have hfree : freeSlot raid = some (0, 0) := by decide +kernel
  have hfit : FileFits raid (fun _ => 65) 700 :=
    fileFits_of_admits ⟨by decide +kernel, by decide, by decide +kernel, by decide⟩ hfree
  have hreach : Reachable (attached fun _ : Fin 1 => 1024) raid := ⟨_, formatRaid_returns.mpr rfl, .refl⟩
  exact (copiesBack_iff (by decide) rfl hreach (by decide +kernel) hfit).mpr (by decide)

/-- A file of 2^32 sectors on a drive of twice as many. -/
theorem copy_of_many_blocks_lost :
    ¬ ∀ (raid : NvmeRaid 1) (name : Name) (originSize : UInt64),
      Reachable (attached fun _ : Fin 1 => 8589934592) raid → FileFits raid name originSize →
        CopiesBack raid name originSize := by
  intro hback
  let raid : NvmeRaid 1 := formatted (attached fun _ => 8589934592)
  have hfree : freeSlot raid = some (0, 0) := by decide +kernel
  have hfit : FileFits raid (fun _ => 65) 2199023255552 :=
    fileFits_of_admits ⟨by decide +kernel, by decide, by decide +kernel, by decide⟩ hfree
  have hreach : Reachable (attached fun _ : Fin 1 => 8589934592) raid :=
    ⟨_, formatRaid_returns.mpr rfl, .refl⟩
  have hi : TableInv raid := hreach.inv (by decide) (by decide +kernel) rfl
  have hlost := not_copiesBack hi (by decide) (by decide +kernel) hfit (by decide +kernel)
  exact hlost (hback raid _ _ hreach hfit)

end PcapReplay
