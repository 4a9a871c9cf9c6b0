import PcapReplay.Sio.Pinit

/-! On a machine whose checks find every command of their queue completed, the raid transfers
return. -/

namespace PcapReplay
open Interaction Striping Dma Prog
variable {n : ℕ} {raid : NvmeRaid n} {π : Policy} {w w' : World}

def OnRaid (raid : NvmeRaid n) (w : World) : Prop := ∀ q ∈ w.queues, ∃ i, q = raid.ns i

theorem queues_eq_zero : w.queues = 0 ↔ w.flights = 0 := Multiset.map_eq_zero

theorem Submits.promptRuns {α : Type} {p : Nvme α} {cs : List Command} {a r : α}
    (h : Submits raid p cs a) (hπ : ¬ π.reject) (hrun : PromptRuns π p w r w') :
    ∃ os, Script raid cs os ∧ Performs (World.promptStep π) accept os w w' := by
  obtain ⟨os, hos, hs⟩ := h
  obtain ⟨_, hp⟩ := Exec.performs accept hrun fun o ho s r s' hstep =>
    World.step_accept hπ hs o (by rwa [hos] at ho) s r s' hstep.1
  rw [hos] at hp
  exact ⟨os, hs, hp⟩

theorem Script.onRaid {cs : List Command} {os : List Op} (h : Script raid cs os)
    (hcs : ∀ c ∈ cs, ∃ i, c.ns = raid.ns i) (hw : OnRaid raid w)
    (hrun : Performs (World.promptStep π) accept os w w') : OnRaid raid w' := by
  induction h generalizing w with
  | nil =>
    obtain rfl : w' = w := hrun
    exact hw
  | poll i _ ih =>
    obtain ⟨w₁, ⟨_, hq⟩, hrest⟩ := hrun
    refine ih hcs (fun q hq' => ?_) hrest
    rw [show w₁.queues = _ from hq] at hq'
    exact hw q (Multiset.mem_of_mem_filter hq')
  | cmd c _ ih =>
    obtain ⟨w₁, ⟨_, hq⟩, w₂, ⟨_, hq'⟩, hrest⟩ := hrun
    refine ih (fun d hd => hcs d (List.mem_cons_of_mem c hd)) (fun q hmem => ?_) hrest
    rw [show w₂.queues = w₁.queues from hq', show w₁.queues = _ from hq, Multiset.mem_cons] at hmem
    rcases hmem with rfl | hmem
    · exact hcs c List.mem_cons_self
    · exact hw q hmem

theorem pollAll_idle {r : Unit} (hw : OnRaid raid w) (hrun : PromptRuns π (pollAll raid) w r w') :
    w'.flights = 0 := by
  have hlist : ∀ (l : List (Fin n)) (w : World),
      PromptRuns π (l.forM fun i => process (raid.ns i)) w r w' →
      ∀ q ∈ w'.queues, q ∈ w.queues ∧ ∀ i ∈ l, q ≠ raid.ns i := by
    intro l
    induction l with
    | nil =>
      intro w h q hq
      obtain ⟨_, rfl⟩ := exec_pure.mp h
      exact ⟨hq, by simp⟩
    | cons i l ih =>
      intro w h q hq
      obtain ⟨_, w₁, h₁, h₂⟩ := exec_bind.mp h
      obtain ⟨_, hq₁⟩ := exec_ask.mp h₁
      obtain ⟨hmem, hne⟩ := ih w₁ h₂ q hq
      rw [show w₁.queues = _ from hq₁, Multiset.mem_filter] at hmem
      refine ⟨hmem.1, fun j hj => ?_⟩
      rcases List.mem_cons.mp hj with rfl | hj
      · exact hmem.2
      · exact hne j hj
  rw [← queues_eq_zero]
  apply Multiset.eq_zero_of_forall_notMem
  intro q hq
  obtain ⟨hmem, hne⟩ := hlist (List.finRange n) w hrun q hq
  obtain ⟨i, rfl⟩ := hw q hmem
  exact hne i (List.mem_finRange i) rfl

theorem sioWaittasks_returns {rounds : ℕ} {r : Option Unit} (hπ : ¬ π.reject) (hbal : w.Balanced)
    (hw : OnRaid raid w) (hrun : PromptRuns π (sioWaittasks raid (rounds + 2)) w r w') :
    r = some () := by
  obtain ⟨again, w₁, hwait, hrun⟩ := exec_bind.mp hrun
  obtain ⟨⟨b, hdrift, hr, rfl⟩, hq⟩ := exec_ask.mp hwait
  cases again with
  | false => exact (exec_pure.mp hrun).1
  | true =>
    have hbal₁ := (World.drift_sameTasks hdrift).balanced hbal
    obtain ⟨_, w₂, hpoll, hrun⟩ := exec_bind.mp hrun
    have hidle : w₂.flights = 0 := by
      refine pollAll_idle (fun q hq' => hw q ?_) hpoll
      rwa [show World.queues _ = w.queues from hq] at hq'
    obtain ⟨os, hscript, hperf⟩ := (submits_pollAll raid).promptRuns hπ hpoll
    obtain ⟨hbal₂, _⟩ := hscript.balanced hbal₁ w.taskScheduled.toNat_lt
      (hperf.mono fun _ _ _ _ => And.left)
    -- the counters agree now
    obtain ⟨again, w₃, hwait, hrun⟩ := exec_bind.mp hrun
    obtain ⟨⟨b', hdrift', hr', rfl⟩, _⟩ := exec_ask.mp hwait
    cases again with
    | false => exact (exec_pure.mp hrun).1
    | true =>
      unfold World.Balanced at hbal₂
      rw [hidle, Multiset.card_zero] at hbal₂
      have hlt : w₂.taskCompleted.toNat < w₂.taskScheduled.toNat :=
        UInt64.lt_iff_toNat_lt.mp (of_decide_eq_true hr'.symm)
      omega

section staged
variable [NeZero n] {dir : Dir} {mem : Ptr} {payload : Ptr} {rounds : ℕ}

theorem pieces_onRaid (dir : Dir) (raid : NvmeRaid n) (payload : Ptr) (lba count : ℕ) :
    ∀ c ∈ pieces dir raid payload lba count, ∃ i, c.ns = raid.ns i := by
  intro c hc
  obtain ⟨p, _, rfl⟩ := List.mem_map.mp hc
  exact ⟨_, rfl⟩

theorem transfer_returns {w₁ : World} {lba : UInt64} {lbaCount : UInt32} {rc : ℤ} {r : Option Unit}
    (hπ : ¬ π.reject) (hidle : w.flights = 0) (hbal : w.Balanced) (hpos : 1 ≤ lbaCount.toNat)
    (hlt : lba.toNat + lbaCount.toNat < 2 ^ 64)
    (htasks : w.taskScheduled.toNat + (split superSectorNum lba.toNat lbaCount.toNat).length < 2 ^ 64)
    (hrun : PromptRuns π (sioTransfer dir raid payload lba lbaCount) w rc w₁)
    (hwait : PromptRuns π (sioWaittasks raid (rounds + 2)) w₁ r w') :
    rc = 0 ∧ r = some () ∧ w'.flights = 0 := by
  have hsub := sioTransfer_submits dir raid payload lba lbaCount hpos hlt
  have hbatch := pieces_batch dir raid payload (fun _ _ => True) hlt.le (by simp)
  have hlen : (pieces dir raid payload lba.toNat lbaCount.toNat).length =
      (split superSectorNum lba.toNat lbaCount.toNat).length := List.length_map _
  have havoid : w.bus.Avoids fun _ _ => True := Bus.avoids_of_idle hidle
  obtain ⟨hrc, hbal₁, _, _, mine, v, hst⟩ := hsub.staged hπ havoid (Bus.Staged.start w.bus)
    (by rwa [zero_add]) hbal (by rwa [hlen]) hrun.runs
  have hw₁ : OnRaid raid w₁ := by
    obtain ⟨os, hscript, hperf⟩ := hsub.promptRuns hπ hrun
    refine hscript.onRaid (pieces_onRaid dir raid payload _ _) (fun q hq => ?_) hperf
    rw [queues_eq_zero.mpr hidle] at hq
    exact absurd hq (Multiset.notMem_zero q)
  obtain rfl := sioWaittasks_returns hπ hbal₁ hw₁ hwait
  rw [zero_add] at hst
  exact ⟨hrc, rfl, (sioWaittasks_run hπ havoid hst hbatch hbal₁ hwait.runs).1⟩

theorem sioChunk_returns {inLoop : Bool} {lba : UInt64} {blocks : ℕ} {r : Option ℤ} (hπ : ¬ π.reject)
    (hidle : w.flights = 0) (hbal : w.Balanced) (hpos : 1 ≤ blocks) (h32 : blocks < 2 ^ 32)
    (hlt : lba.toNat + blocks < 2 ^ 64)
    (htasks : w.taskScheduled.toNat + (split superSectorNum lba.toNat blocks).length < 2 ^ 64)
    (hrun : PromptRuns π (sioChunk dir raid (rounds + 2) inLoop mem payload lba blocks) w r w') :
    r = some 0 ∧ w'.flights = 0 := by
  have hofNat : (UInt32.ofNat blocks).toNat = blocks := UInt32.toNat_ofNat_of_lt' h32
  rw [← hofNat] at hpos hlt htasks
  cases dir with
  | write =>
    obtain ⟨w₁, ret, w₂, hcopy, htransfer, hwaits⟩ := exec_sioChunk_write hrun
    have hsame := World.memcpy_sameTasks (PromptRuns.runs hcopy)
    rw [← hsame.scheduled] at htasks
    have hret := ((sioTransfer_submits .write raid mem lba _ hpos hlt).runs hπ (PromptRuns.runs htransfer)).1
    obtain ⟨done, hwait, hr⟩ := hwaits hret
    obtain ⟨_, rfl, hidle'⟩ := transfer_returns hπ (hsame.idle hidle) (hsame.balanced hbal) hpos
      hlt htasks htransfer hwait
    exact ⟨hr, hidle'⟩
  | read =>
    obtain ⟨ret, w₁, htransfer, hwaits⟩ := exec_sioChunk_read hrun
    have hret := ((sioTransfer_submits .read raid mem lba _ hpos hlt).runs hπ (PromptRuns.runs htransfer)).1
    obtain ⟨done, w₂, hwait, hr, hcopies⟩ := hwaits hret
    obtain ⟨_, rfl, hidle'⟩ := transfer_returns hπ hidle hbal hpos hlt htasks htransfer hwait
    have hcopy := hcopies () rfl
    exact ⟨hr, (World.memcpy_sameTasks (PromptRuns.runs hcopy)).idle hidle'⟩

theorem sioChunks_returns (payload : Ptr) (lba : UInt64) (lbaCount : UInt32) {mem : ℕ} {r : Option ℤ}
    (hπ : ¬ π.reject) (hidle : w.flights = 0) (hbal : w.Balanced)
    (hlt : lba.toNat + lbaCount.toNat < 2 ^ 64)
    (htasks : w.taskScheduled.toNat + sioTasks n lba.toNat lbaCount.toNat < 2 ^ 64)
    (hrun : PromptRuns π (sioChunks dir raid (rounds + 2) ⟨mem, 0⟩ payload lba lbaCount) w r w') :
    r = some 0 ∧ w'.flights = 0 := by
  induction payload, lba, lbaCount using @sioChunks.induct n _ generalizing w with
  | case1 payload lba lbaCount h ih =>
    have h32 := lbaCount.toNat_lt
    have hpos := gigaSectorNum_pos n
    have hlba' : (lba + UInt64.ofNat (gigaSectorNum n)).toNat = lba.toNat + gigaSectorNum n :=
      toNat_add_ofNat (by omega)
    rw [hlba', toNat_sub_ofNat h] at ih
    rw [sioTasks, if_pos ⟨hpos, h⟩] at htasks
    rw [sioChunks, dif_pos h] at hrun
    obtain ⟨res, w₁, hchunk, hrun⟩ := exec_bind.mp hrun
    obtain ⟨rfl, hidle₁⟩ := sioChunk_returns hπ hidle hbal hpos (by omega) (by omega) (by omega) hchunk
    obtain ⟨_, hphase⟩ := sioChunk_phase hπ (Bus.avoids_of_idle hidle) (fun _ => trivial)
      (Bus.resting_self (fun _ _ => True) w.bus) hbal hpos (by omega) (by omega) (by omega)
      (fun _ _ _ _ _ _ => trivial) (PromptRuns.runs hchunk)
    have hts := hphase.scheduled
    exact ih hidle₁ hphase.balanced (by omega) (by omega) hrun
  | case2 payload lba lbaCount h hpos =>
    have hne : lbaCount.toNat ≠ 0 := fun hz => hpos (UInt32.toNat_inj.mp hz)
    rw [sioTasks, if_neg fun hc => h hc.2] at htasks
    rw [sioChunks, dif_neg h, if_pos hpos] at hrun
    exact sioChunk_returns hπ hidle hbal (by omega) lbaCount.toNat_lt hlt htasks hrun
  | case3 payload lba lbaCount h hzero =>
    rw [sioChunks, dif_neg h, if_neg hzero] at hrun
    obtain ⟨hr, rfl⟩ := exec_pure.mp hrun
    exact ⟨hr, hidle⟩

theorem sioTransferPinit_returns {lba : UInt64} {lbaCount : UInt32} {r : Option ℤ}
    (hπ : ¬ π.reject) (hmemory : ¬ π.noMemory) (hidle : w.flights = 0) (hbal : w.Balanced)
    (hlt : lba.toNat + lbaCount.toNat < 2 ^ 64)
    (htasks : w.taskScheduled.toNat + sioTasks n lba.toNat lbaCount.toNat < 2 ^ 64)
    (hrun : PromptRuns π (sioTransferPinit dir raid (rounds + 2) payload lba lbaCount) w r w') :
    r = some 0 ∧ w'.flights = 0 := by
  obtain ⟨res, w₁, hmalloc, hrun⟩ := exec_bind.mp hrun
  have hsame := World.malloc_sameTasks (PromptRuns.runs hmalloc)
  cases res with
  | none =>
    obtain ⟨⟨_, _, ⟨hr, _⟩ | ⟨hno, _⟩⟩, _⟩ := exec_ask.mp hmalloc
    · exact absurd hr (by simp)
    · exact absurd hno hmemory
  | some buf =>
    rw [← hsame.scheduled] at htasks
    exact sioChunks_returns payload lba lbaCount hπ (hsame.idle hidle) (hsame.balanced hbal) hlt htasks hrun

end staged
end PcapReplay
