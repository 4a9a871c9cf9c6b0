import PcapReplay.Cp.Runs

/-! The copies return on a prompt machine. -/

namespace PcapReplay
open Interaction Dma Prog
variable {n : ℕ} [NeZero n] {raid : NvmeRaid n} {π : Policy} {w w₁ w' : World} {rounds : ℕ} {s : Slot n}
  {map : Ptr} {blocks originSize : UInt64} {name : Name}

theorem block_idle {payload : Ptr} {lba : UInt64} {rc : ℤ} (hπ : ¬ π.reject) (hidle : w.flights = 0)
    (hrun : PromptRuns π (sioRwrite raid payload lba 1) w rc w') : w'.flights = 0 := by
  have hfit : (1 : UInt32).toNat ≤ toBoundary lba := toBoundary_pos lba
  rw [sioRwrite, sioTransfer, dif_pos hfit] at hrun
  obtain ⟨r, w₁, hcmd, hrun⟩ := exec_bind.mp hrun
  obtain ⟨⟨b, _, hrc⟩, hq₁⟩ := exec_ask.mp hcmd
  rcases hrc with ⟨rfl, _⟩ | ⟨hreject, _⟩
  · rw [if_neg (not_not.mpr rfl)] at hrun
    obtain ⟨_, w₂, hsched, hrun⟩ := exec_bind.mp hrun
    obtain ⟨_, w₃, hpoll, hrun⟩ := exec_bind.mp hrun
    obtain ⟨_, rfl⟩ := exec_pure.mp hrun
    obtain ⟨_, hq₂⟩ := exec_ask.mp hsched
    refine pollAll_idle (fun q hq => ?_) hpoll
    rw [show w₂.queues = w₁.queues from hq₂, show w₁.queues = _ ::ₘ w.queues from hq₁,
      queues_eq_zero.mpr hidle, Multiset.cons_zero, Multiset.mem_singleton] at hq
    exact ⟨_, hq⟩
  · exact absurd hreject hπ

theorem copyWhole_returns {r : Option Unit} (hπ : ¬ π.reject) (hmemory : ¬ π.noMemory)
    (hidle : w.flights = 0) (hbal : w.Balanced) (htasks : w.taskScheduled.toNat < 2 ^ 63)
    (hlt : (raid.file s).startBlock.toNat + blocks.toNat < 2 ^ 64)
    (hrun : PromptRuns π (copyWhole raid (rounds + 2) (some s) map blocks) w r w') : r = some () := by
  unfold copyWhole at hrun
  split_ifs at hrun
  · have hcount := toNat_toUInt32_le blocks
    have h32 := blocks.toUInt32.toNat_lt
    have hle := sioTasks_le n (raid.file s).startBlock.toNat blocks.toUInt32.toNat
    obtain ⟨res, w₁, htransfer, hrun⟩ := exec_bind.mp hrun
    obtain ⟨rfl, _⟩ := sioTransferPinit_returns hπ hmemory hidle hbal (by omega) (by omega) htransfer
    exact (exec_pure.mp hrun).1
  · exact (exec_pure.mp hrun).1

theorem malloc_returns {len : ℕ} {zero : Bool} {r : Option ℕ} (hmemory : ¬ π.noMemory)
    (hrun : Runs π (Op.malloc len zero).ask w r w') : r = some w.nextBuf := by
  obtain ⟨_, _, ⟨hr, _⟩ | ⟨hno, _⟩⟩ := exec_ask.mp hrun
  · exact hr
  · exact absurd hno hmemory

theorem copyBlocks_returns {r : Option Unit} (hπ : ¬ π.reject) (hmemory : ¬ π.noMemory)
    (hidle : w.flights = 0) (hbal : w.Balanced) (htasks : w.taskScheduled.toNat + 1 < 2 ^ 63)
    (hmap : map.buf < w.nextBuf)
    (hlt : (raid.file s).startBlock.toNat + (originBlocks originSize).toNat < 2 ^ 64)
    (hrun : PromptRuns π (copyBlocks raid (rounds + 2) (some s) map originSize) w r w') : r = some () := by
  unfold copyBlocks at hrun
  split_ifs at hrun with hmod
  · obtain ⟨hblocks, _, _⟩ := originBlocks_sub_one hmod
    obtain ⟨res, wm, hmalloc, hrun⟩ := exec_bind.mp hrun
    obtain rfl := malloc_returns hmemory (PromptRuns.runs hmalloc)
    obtain ⟨_, wc, hcopy, hrun⟩ := exec_bind.mp hrun
    obtain ⟨rc, wb, hblock, hlater⟩ := exec_bind.mp hrun
    obtain ⟨_, hsame, hbal₁, hts₁, _⟩ := paddedBlock_run hπ hidle hbal htasks hlt hmap hmod
      (PromptRuns.runs hmalloc) (PromptRuns.runs hcopy) (PromptRuns.runs hblock)
    exact copyWhole_returns hπ hmemory (block_idle hπ (hsame.idle hidle) hblock) hbal₁ (by omega) (by omega)
      hlater
  · exact copyWhole_returns hπ hmemory hidle hbal (by omega) hlt hrun

theorem copyOut_returns {r : Option (Option UInt64)} (hπ : ¬ π.reject) (hmemory : ¬ π.noMemory)
    (hidle : w.flights = 0) (hbal : w.Balanced) (htasks : w.taskScheduled.toNat < 2 ^ 63)
    (hs : Prepared raid s name originSize)
    (hrun : PromptRuns π (copyOut raid (rounds + 2) name map) w r w') : ∃ size, r = some size := by
  have hlt := hs.lt
  have hcount := toNat_toUInt32_le (originBlocks originSize)
  have h32 := (originBlocks originSize).toUInt32.toNat_lt
  have hle := sioTasks_le n (raid.file s).startBlock.toNat (originBlocks originSize).toUInt32.toNat
  unfold copyOut at hrun
  simp only [hs.found, hs.blocks_eq] at hrun
  obtain ⟨res, w₁, htransfer, hrun⟩ := exec_bind.mp hrun
  obtain ⟨rfl, _⟩ := sioTransferPinit_returns hπ hmemory hidle hbal (by omega) (by omega) htransfer
  exact ⟨_, (exec_pure.mp hrun).1⟩

end PcapReplay
