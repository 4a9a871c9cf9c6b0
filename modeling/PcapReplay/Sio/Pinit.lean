import PcapReplay.Sio.Runs

/-! Raid transfers through the staging buffer, under every order of completion. -/

namespace PcapReplay
open Interaction Striping Dma Prog
variable {n : ℕ} [NeZero n] {dir : Dir} {raid : NvmeRaid n} {π : Policy}

def HasCells (own : Space → ℕ → Prop) (dir : Dir) (raid : NvmeRaid n) (payload : Ptr) (lba count : ℕ) :
    Prop :=
  ∀ b, lba ≤ b → b < lba + count → ∀ s a, (blockCmd dir raid payload lba b).xfer.Reads s a ∨
    (blockCmd dir raid payload lba b).xfer.Writes s a → own s a

structure Phase (own R : Space → ℕ → Prop) (b₀ : Bus Space ℕ UInt8) (X : List (Xfer Space)) (tasks : ℕ)
    (w w' : World) : Prop where
  resting : Bus.Resting own b₀ w'.bus
  balanced : w'.Balanced
  scheduled : w'.taskScheduled.toNat = w.taskScheduled.toNat + tasks
  nextBuf : w'.nextBuf = w.nextBuf
  effect : Effect R (X : Multiset (Xfer Space)) w.bus.store w'.bus.store

section phases
variable {own : Space → ℕ → Prop} {b₀ : Bus Space ℕ UInt8} {w w₁ w' : World} {mem : ℕ} {lba : UInt64}
  {rounds : ℕ}

theorem memcpy_phase {dst src : Ptr} {len : ℕ} {r : Unit} (hb₀ : b₀.Avoids own)
    (hrest : Bus.Resting own b₀ w.bus) (hbal : w.Balanced)
    (hdst : ∀ s a, (memXfer dst src len).Writes s a → own s a)
    (hsrc : ∀ s a, (memXfer dst src len).Reads s a → own s a)
    (hrun : Runs π (memcpy dst src len) w r w') : Phase own own b₀ [memXfer dst src len] 0 w w' := by
  have hbal' := (World.memcpy_sameTasks hrun).balanced hbal
  obtain ⟨b, hdrift, rfl⟩ := exec_ask.mp hrun
  obtain ⟨hrest', hsame⟩ := hrest.drift hb₀ hdrift
  refine ⟨hrest'.setStore fun s a hs => Xfer.exec_of_not_writes (fun hw => hs (hdst s a hw)) _, hbal', rfl,
    rfl, ?_, ?_⟩
  · intro x hx i hi
    obtain rfl := List.mem_singleton.mp (Multiset.mem_coe.mp hx)
    exact (Xfer.exec_dst _ hi _).trans (hsame _ _ (hsrc _ _ (Xfer.reads_add _ hi)))
  · intro s a hs hw
    exact (Xfer.exec_of_not_writes (hw _ (by simp)) _).trans (hsame s a hs)

theorem transfer_phase {payload : Ptr} {lbaCount : UInt32} {rc : ℤ} (hπ : ¬ π.reject) (hb₀ : b₀.Avoids own)
    (hrest : Bus.Resting own b₀ w.bus) (hbal : w.Balanced)
    (hcells : HasCells own dir raid payload lba.toNat lbaCount.toNat) (hpos : 1 ≤ lbaCount.toNat)
    (hlt : lba.toNat + lbaCount.toNat < 2 ^ 64)
    (htasks : w.taskScheduled.toNat + (split superSectorNum lba.toNat lbaCount.toNat).length < 2 ^ 64)
    (hrun : Runs π (sioTransfer dir raid payload lba lbaCount) w rc w₁)
    (hwait : Runs π (sioWaittasks raid rounds) w₁ (some ()) w') :
    rc = 0 ∧ Phase own own b₀ (blockXfers dir raid payload lba.toNat lbaCount.toNat)
      (split superSectorNum lba.toNat lbaCount.toNat).length w w' := by
  obtain ⟨v, hst⟩ := hrest
  have hbatch := pieces_batch dir raid payload own hlt.le hcells
  have hlen : (pieces dir raid payload lba.toNat lbaCount.toNat).length =
      (split superSectorNum lba.toNat lbaCount.toNat).length := List.length_map _
  obtain ⟨rfl, hbal₁, hts₁, hbuf₁, mine₁, v₁, hst₁⟩ :=
    (sioTransfer_submits dir raid payload lba lbaCount hpos hlt).staged hπ hb₀ hst
      (by rwa [zero_add]) hbal (by rwa [hlen]) hrun
  rw [zero_add] at hst₁
  obtain ⟨hidle, hbal', hts', hbuf', mine', v', hst'⟩ :=
    sioWaittasks_run hπ hb₀ hst₁ hbatch hbal₁ hwait
  have heff := (hst'.effect hidle).parts (Command.dvd_len_map _)
  rw [pieces_parts dir raid payload _ _ hlt.le] at heff
  exact ⟨rfl, hst'.resting hidle, hbal', by rw [hts', hts₁, hlen], hbuf'.trans hbuf₁, heff⟩

theorem HasCells.staging {payload : Ptr} {lba count : ℕ} (h : HasCells own dir raid payload lba count)
    (hmem : ∀ a, own (.mem mem) a) : HasCells own dir raid ⟨mem, 0⟩ lba count := by
  intro b hb hlt s a hcell
  have hb' := h b hb hlt s a
  cases dir with
  | read =>
    rw [blockCmd_read] at hcell hb'
    rcases hcell with hr | ⟨rfl, _⟩
    · exact hb' (Or.inl hr)
    · exact hmem a
  | write =>
    rw [blockCmd_write] at hcell hb'
    rcases hcell with ⟨rfl, _⟩ | hw
    · exact hmem a
    · exact hb' (Or.inr hw)

theorem HasCells.payload {payload : Ptr} {lba count a : ℕ} (h : HasCells own dir raid payload lba count)
    (ha : payload.off ≤ a ∧ a < payload.off + count * sectorLength) : own (.mem payload.buf) a := by
  simp only [sectorLength_eq] at ha
  have hb := h (lba + (a - payload.off) / 512) (by omega) (by omega) (.mem payload.buf) a
  cases dir with
  | read =>
    rw [blockCmd_read] at hb
    exact hb (Or.inr ⟨rfl, by simp only [sectorLength_eq]; omega, by simp only [sectorLength_eq]; omega⟩)
  | write =>
    rw [blockCmd_write] at hb
    exact hb (Or.inl ⟨rfl, by simp only [sectorLength_eq]; omega, by simp only [sectorLength_eq]; omega⟩)

section stores
variable {m₀ m₁ m : Store Space UInt8} {payload : Ptr} {lba count : ℕ}

theorem effect_stage_write
    (h₁ : Effect own ([memXfer ⟨mem, 0⟩ payload (count * sectorLength)] : Multiset (Xfer Space)) m₀ m₁)
    (h₂ : Effect own (blockXfers .write raid ⟨mem, 0⟩ lba count : Multiset (Xfer Space)) m₁ m) :
    Effect (fun s a => own s a ∧ s ≠ .mem mem)
      (blockXfers .write raid payload lba count : Multiset (Xfer Space)) m₀ m := by
  simp only [sectorLength_eq] at h₁
  constructor
  · intro x hx i hi
    obtain ⟨b, hb, rfl⟩ := (mem_blockXfers .write raid payload).mp (Multiset.mem_coe.mp hx)
    rw [blockCmd_len, sectorLength_eq] at hi
    have hdisk := h₂.inPlace _ (Multiset.mem_coe.mpr
      ((mem_blockXfers .write raid ⟨mem, 0⟩).mpr ⟨b, hb, rfl⟩)) i
    have hstage := h₁.inPlace _ (Multiset.mem_singleton_self _) ((b - lba) * 512 + i)
    simp only [blockCmd_write, memXfer, Nat.zero_add, ← Nat.add_assoc, sectorLength_eq] at hdisk hstage ⊢
    rw [hdisk hi, hstage (by omega)]
  · rintro s a ⟨hs, hne⟩ hw
    have hdisk : m s a = m₁ s a := by
      apply h₂.kept s a hs
      intro x hx
      obtain ⟨b, hb, rfl⟩ := (mem_blockXfers .write raid ⟨mem, 0⟩).mp (Multiset.mem_coe.mp hx)
      exact hw (blockCmd .write raid payload lba b).xfer (Multiset.mem_coe.mpr
        ((mem_blockXfers .write raid payload).mpr ⟨b, hb, rfl⟩))
    rw [hdisk]
    apply h₁.kept s a hs
    intro x hx hx'
    obtain rfl := Multiset.mem_singleton.mp hx
    exact hne hx'.1

theorem effect_stage_read
    (h₁ : Effect own (blockXfers .read raid ⟨mem, 0⟩ lba count : Multiset (Xfer Space)) m₀ m₁)
    (h₂ : Effect own ([memXfer payload ⟨mem, 0⟩ (count * sectorLength)] : Multiset (Xfer Space)) m₁ m) :
    Effect (fun s a => own s a ∧ s ≠ .mem mem)
      (blockXfers .read raid payload lba count : Multiset (Xfer Space)) m₀ m := by
  simp only [sectorLength_eq] at h₂
  constructor
  · intro x hx i hi
    obtain ⟨b, hb, rfl⟩ := (mem_blockXfers .read raid payload).mp (Multiset.mem_coe.mp hx)
    rw [blockCmd_len, sectorLength_eq] at hi
    have hstage := h₁.inPlace _ (Multiset.mem_coe.mpr
      ((mem_blockXfers .read raid ⟨mem, 0⟩).mpr ⟨b, hb, rfl⟩)) i
    have hcopy := h₂.inPlace _ (Multiset.mem_singleton_self _) ((b - lba) * 512 + i)
    simp only [blockCmd_read, memXfer, Nat.zero_add, ← Nat.add_assoc, sectorLength_eq] at hstage hcopy ⊢
    rw [hcopy (by omega), hstage hi]
  · rintro s a ⟨hs, hne⟩ hw
    have hcopy : m s a = m₁ s a := by
      apply h₂.kept s a hs
      intro x hx hx'
      obtain rfl := Multiset.mem_singleton.mp hx
      obtain ⟨rfl, hle, hlt⟩ := hx'
      simp only [memXfer] at hle hlt
      -- the block of the payload in which the byte lies
      refine hw (blockCmd .read raid payload lba (lba + (a - payload.off) / 512)).xfer
        (Multiset.mem_coe.mpr ((mem_blockXfers .read raid payload).mpr ⟨_, ⟨by omega, by omega⟩, rfl⟩)) ?_
      rw [blockCmd_read]
      exact ⟨rfl, by simp only [sectorLength_eq]; omega, by simp only [sectorLength_eq]; omega⟩
    rw [hcopy]
    apply h₁.kept s a hs
    intro x hx hx'
    obtain ⟨b, _, rfl⟩ := (mem_blockXfers .read raid ⟨mem, 0⟩).mp (Multiset.mem_coe.mp hx)
    rw [blockCmd_read] at hx'
    exact hne hx'.1

end stores

section chunk
variable {inLoop : Bool} {payload : Ptr} {blocks : ℕ} {rc : ℤ} (hπ : ¬ π.reject)
  (hb₀ : b₀.Avoids own) (hmem : ∀ a, own (.mem mem) a) (hrest : Bus.Resting own b₀ w.bus)
  (hbal : w.Balanced) (hpos : 1 ≤ blocks) (h32 : blocks < 2 ^ 32) (hlt : lba.toNat + blocks < 2 ^ 64)
  (htasks : w.taskScheduled.toNat + (split superSectorNum lba.toNat blocks).length < 2 ^ 64)
include hπ hb₀ hmem hrest hbal hpos h32 hlt htasks

theorem sioChunk_write_phase (hcells : HasCells own .write raid payload lba.toNat blocks)
    (hrun : Runs π (sioChunk .write raid rounds inLoop ⟨mem, 0⟩ payload lba blocks) w (some rc) w') :
    rc = 0 ∧ Phase own (fun s a => own s a ∧ s ≠ .mem mem) b₀
      (blockXfers .write raid payload lba.toNat blocks) (split superSectorNum lba.toNat blocks).length
      w w' := by
  have hofNat : (UInt32.ofNat blocks).toNat = blocks := UInt32.toNat_ofNat_of_lt' h32
  have hstaging := hcells.staging hmem
  rw [← hofNat] at hpos hlt htasks hstaging
  obtain ⟨w₁, ret, w₂, hcopy, htransfer, hwaits⟩ := exec_sioChunk_write hrun
  have hret := ((sioTransfer_submits .write raid ⟨mem, 0⟩ lba _ hpos hlt).runs hπ htransfer).1
  obtain ⟨done, hwait, hrc⟩ := hwaits hret
  cases done with
  | none => exact absurd hrc (by simp)
  | some _ =>
    have hstaged := memcpy_phase hb₀ hrest hbal (by rintro s a ⟨rfl, _⟩; exact hmem a)
      (by rintro s a ⟨rfl, ha⟩; exact hcells.payload ha) hcopy
    have hts := hstaged.scheduled
    obtain ⟨_, hwritten⟩ := transfer_phase hπ hb₀ hstaged.resting hstaged.balanced hstaging hpos
      hlt (by omega) htransfer hwait
    rw [hofNat] at hwritten
    refine ⟨Option.some.inj hrc, hwritten.resting, hwritten.balanced, ?_,
      hwritten.nextBuf.trans hstaged.nextBuf, effect_stage_write hstaged.effect hwritten.effect⟩
    rw [hwritten.scheduled, hts, Nat.add_zero]

theorem sioChunk_read_phase (hcells : HasCells own .read raid payload lba.toNat blocks)
    (hrun : Runs π (sioChunk .read raid rounds inLoop ⟨mem, 0⟩ payload lba blocks) w (some rc) w') :
    rc = 0 ∧ Phase own (fun s a => own s a ∧ s ≠ .mem mem) b₀
      (blockXfers .read raid payload lba.toNat blocks) (split superSectorNum lba.toNat blocks).length
      w w' := by
  have hofNat : (UInt32.ofNat blocks).toNat = blocks := UInt32.toNat_ofNat_of_lt' h32
  have hstaging := hcells.staging hmem
  rw [← hofNat] at hpos hlt htasks hstaging
  obtain ⟨ret, w₁, htransfer, hwaits⟩ := exec_sioChunk_read hrun
  have hret := ((sioTransfer_submits .read raid ⟨mem, 0⟩ lba _ hpos hlt).runs hπ htransfer).1
  obtain ⟨done, w₂, hwait, hrc, hcopies⟩ := hwaits hret
  cases done with
  | none => exact absurd hrc (by simp)
  | some u =>
    have hcopy := hcopies u rfl
    obtain ⟨_, hread⟩ := transfer_phase hπ hb₀ hrest hbal hstaging hpos hlt htasks htransfer hwait
    rw [hofNat] at hread
    have hcopied := memcpy_phase hb₀ hread.resting hread.balanced
      (by rintro s a ⟨rfl, ha⟩; exact hcells.payload ha) (by rintro s a ⟨rfl, _⟩; exact hmem a) hcopy
    refine ⟨Option.some.inj hrc, hcopied.resting, hcopied.balanced, ?_,
      hcopied.nextBuf.trans hread.nextBuf, effect_stage_read hread.effect hcopied.effect⟩
    rw [hcopied.scheduled, hread.scheduled, Nat.add_zero]

theorem sioChunk_phase (hcells : HasCells own dir raid payload lba.toNat blocks)
    (hrun : Runs π (sioChunk dir raid rounds inLoop ⟨mem, 0⟩ payload lba blocks) w (some rc) w') :
    rc = 0 ∧ Phase own (fun s a => own s a ∧ s ≠ .mem mem) b₀
      (blockXfers dir raid payload lba.toNat blocks) (split superSectorNum lba.toNat blocks).length
      w w' := by
  cases dir with
  | write => exact sioChunk_write_phase hπ hb₀ hmem hrest hbal hpos h32 hlt htasks hcells hrun
  | read => exact sioChunk_read_phase hπ hb₀ hmem hrest hbal hpos h32 hlt htasks hcells hrun

end chunk
end phases

def sioTasks (n lba count : ℕ) : ℕ :=
  if 0 < gigaSectorNum n ∧ gigaSectorNum n ≤ count then
    (split superSectorNum lba (gigaSectorNum n)).length +
      sioTasks n (lba + gigaSectorNum n) (count - gigaSectorNum n)
  else (split superSectorNum lba count).length
termination_by count

theorem sioTasks_le (n lba count : ℕ) : sioTasks n lba count ≤ count := by
  induction lba, count using sioTasks.induct n with
  | case1 lba count h ih =>
    have := @length_split_le superSectorNum lba (gigaSectorNum n)
    rw [sioTasks, if_pos h]
    omega
  | case2 lba count h =>
    rw [sioTasks, if_neg h]
    exact length_split_le lba count

section loop
variable {own : Space → ℕ → Prop} {b₀ : Bus Space ℕ UInt8} {w w₁ w' : World} {mem : ℕ} {rounds : ℕ}

theorem blockXfers_add (dir : Dir) (raid : NvmeRaid n) (payload : Ptr) (lba k count : ℕ) :
    blockXfers dir raid payload lba (k + count) = blockXfers dir raid payload lba k ++
      blockXfers dir raid (payload.add (k * sectorLength)) (lba + k) count := by
  unfold blockXfers
  rw [← List.range'_append_1, List.map_append]
  congr 1
  apply List.map_congr_left
  intro b hb
  rw [blockCmd_add _ _ _ (List.mem_range'_1.mp hb).1]

theorem HasCells.head {payload : Ptr} {lba k count : ℕ}
    (h : HasCells own dir raid payload lba (k + count)) : HasCells own dir raid payload lba k :=
  fun b hb hlt => h b hb (by omega)

theorem HasCells.tail {payload : Ptr} {lba k count : ℕ}
    (h : HasCells own dir raid payload lba (k + count)) :
    HasCells own dir raid (payload.add (k * sectorLength)) (lba + k) count := by
  intro b hb hlt s a
  rw [blockCmd_add _ _ _ hb]
  exact h b (by omega) (by omega) s a

theorem HasCells.batch {payload : Ptr} {lba count : ℕ} (h : HasCells own dir raid payload lba count)
    (hbuf : payload.buf ≠ mem) (hlt : lba + count ≤ 2 ^ 64) :
    Bus.Batch (fun s a => own s a ∧ s ≠ .mem mem)
      (blockXfers dir raid payload lba count : Multiset (Xfer Space)) := by
  apply blockXfers_batch dir raid payload _ hlt
  intro b hb hb' s a hcell
  refine ⟨h b hb hb' s a hcell, ?_⟩
  rintro rfl
  cases dir with
  | read =>
    rw [blockCmd_read] at hcell
    rcases hcell with ⟨hs, _⟩ | ⟨hs, _⟩
    · exact absurd hs (by simp [blockSpace])
    · exact hbuf (Space.mem.inj hs).symm
  | write =>
    rw [blockCmd_write] at hcell
    rcases hcell with ⟨hs, _⟩ | ⟨hs, _⟩
    · exact hbuf (Space.mem.inj hs).symm
    · exact absurd hs (by simp [blockSpace])

theorem sioChunks_phase (payload : Ptr) (lba : UInt64) (lbaCount : UInt32) {rc : ℤ} (hπ : ¬ π.reject)
    (hb₀ : b₀.Avoids own) (hmem : ∀ a, own (.mem mem) a) (hrest : Bus.Resting own b₀ w.bus)
    (hbal : w.Balanced) (hbuf : payload.buf ≠ mem)
    (hcells : HasCells own dir raid payload lba.toNat lbaCount.toNat)
    (hlt : lba.toNat + lbaCount.toNat < 2 ^ 64)
    (htasks : w.taskScheduled.toNat + sioTasks n lba.toNat lbaCount.toNat < 2 ^ 64)
    (hrun : Runs π (sioChunks dir raid rounds ⟨mem, 0⟩ payload lba lbaCount) w (some rc) w') :
    rc = 0 ∧ Phase own (fun s a => own s a ∧ s ≠ .mem mem) b₀
      (blockXfers dir raid payload lba.toNat lbaCount.toNat) (sioTasks n lba.toNat lbaCount.toNat) w w' := by
  induction payload, lba, lbaCount using @sioChunks.induct n _ generalizing w with
  | case1 payload lba lbaCount h ih =>
    have h32 := lbaCount.toNat_lt
    have hpos := gigaSectorNum_pos n
    have hlba' : (lba + UInt64.ofNat (gigaSectorNum n)).toNat = lba.toNat + gigaSectorNum n :=
      toNat_add_ofNat (by omega)
    obtain ⟨rest, hcount⟩ := Nat.exists_eq_add_of_le h
    rw [gigaSectorLength_eq, hlba', toNat_sub_ofNat h, hcount, Nat.add_sub_cancel_left] at ih
    rw [hcount, sioTasks, if_pos ⟨hpos, Nat.le_add_right _ _⟩, Nat.add_sub_cancel_left] at htasks ⊢
    rw [hcount] at hcells hlt
    have hbatch := hcells.batch hbuf (by omega)
    rw [sioChunks, dif_pos h, gigaSectorLength_eq] at hrun
    obtain ⟨res, w₁, hchunk, hrun⟩ := exec_bind.mp hrun
    cases res with
    | none => exact absurd hrun.1 (by simp)
    | some rc₁ =>
      obtain ⟨rfl, hfirst⟩ := sioChunk_phase hπ hb₀ hmem hrest hbal hpos (by omega) (by omega)
        (by omega) hcells.head hchunk
      have hts := hfirst.scheduled
      obtain ⟨hrc, hlast⟩ := ih hfirst.resting hfirst.balanced hbuf hcells.tail (by omega) (by omega) hrun
      refine ⟨hrc, hlast.resting, hlast.balanced, ?_, hlast.nextBuf.trans hfirst.nextBuf, ?_⟩
      · rw [hlast.scheduled, hts, Nat.add_assoc]
      · rw [blockXfers_add, ← Multiset.coe_add] at hbatch ⊢
        exact hbatch.effect_add hfirst.effect hlast.effect
  | case2 payload lba lbaCount h hpos =>
    have hne : lbaCount.toNat ≠ 0 := fun hz => hpos (UInt32.toNat_inj.mp hz)
    rw [sioTasks, if_neg fun hc => h hc.2] at htasks ⊢
    rw [sioChunks, dif_neg h, if_pos hpos] at hrun
    exact sioChunk_phase hπ hb₀ hmem hrest hbal (by omega) lbaCount.toNat_lt hlt htasks hcells hrun
  | case3 payload lba lbaCount h hzero =>
    rw [not_not] at hzero
    rw [sioTasks, if_neg fun hc => h hc.2, hzero, UInt32.toNat_zero, split_zero]
    rw [sioChunks, dif_neg h, if_neg (not_not.mpr hzero)] at hrun
    obtain ⟨hrc, rfl⟩ := exec_pure.mp hrun
    exact ⟨Option.some.inj hrc, hrest, hbal, rfl, rfl, by simp [blockXfers], fun _ _ _ _ => rfl⟩

end loop

section call
variable {own : Space → ℕ → Prop} {w w' : World} {rounds : ℕ} {payload : Ptr} {lba : UInt64}
  {lbaCount : UInt32}

theorem malloc_run {len : ℕ} {zero : Bool} {buf : ℕ} (hmem : ∀ a, own (.mem w.nextBuf) a)
    (hothers : w.bus.Avoids own) (hrun : Runs π (Op.malloc len zero).ask w (some buf) w') :
    buf = w.nextBuf ∧ w'.nextBuf = w.nextBuf + 1 ∧ Bus.Resting own w.bus w'.bus ∧
      (∀ s a, own s a → s ≠ .mem w.nextBuf → w'.bus.store s a = w.bus.store s a) ∧
      (zero → ∀ a, w'.bus.store (.mem w.nextBuf) a = 0) := by
  obtain ⟨b, hdrift, ⟨hbuf, m, hm, hz, rfl⟩ | ⟨_, hnone, _⟩⟩ := exec_ask.mp hrun
  · obtain ⟨hrest, hsame⟩ := (Bus.resting_self own w.bus).drift hothers hdrift
    refine ⟨Option.some.inj hbuf, rfl, hrest.setStore ?_, ?_, hz⟩
    · intro s a hs
      exact hm s a fun he => hs (he ▸ hmem a)
    · exact fun s a hs hne => (hm s a hne).trans (hsame s a hs)
  · exact absurd hnone (by simp)

theorem sioTransferPinit_run {rc : ℤ} (hπ : ¬ π.reject) (hmem : ∀ a, own (.mem w.nextBuf) a)
    (hcells : HasCells own dir raid payload lba.toNat lbaCount.toNat) (hothers : w.bus.Avoids own)
    (hbuf : payload.buf ≠ w.nextBuf) (hlt : lba.toNat + lbaCount.toNat < 2 ^ 64)
    (hbal : w.Balanced) (htasks : w.taskScheduled.toNat + sioTasks n lba.toNat lbaCount.toNat < 2 ^ 64)
    (hrun : Runs π (sioTransferPinit dir raid rounds payload lba lbaCount) w (some rc) w') :
    rc = 0 ∧ Bus.Resting own w.bus w'.bus ∧ Effect (fun s a => own s a ∧ s ≠ .mem w.nextBuf)
      (blockXfers dir raid payload lba.toNat lbaCount.toNat : Multiset (Xfer Space)) w.bus.store
        w'.bus.store := by
  obtain ⟨res, w₁, hmalloc, hrun⟩ := exec_bind.mp hrun
  cases res with
  | none => exact absurd hrun.1 (by simp)
  | some buf =>
    obtain ⟨rfl, _, hrest, hsame, _⟩ := malloc_run hmem hothers hmalloc
    have htasks₁ := World.malloc_sameTasks hmalloc
    obtain ⟨hrc, hphase⟩ := sioChunks_phase payload lba lbaCount hπ hothers hmem hrest
      (htasks₁.balanced hbal) hbuf hcells hlt (by rwa [htasks₁.scheduled]) hrun
    -- on the cells of its blocks the call found what was there before the staging buffer
    have hbatch := hcells.batch hbuf (by omega)
    have heff := hphase.effect.congr_source hbatch.reads_own fun s a hs => hsame s a hs.1 hs.2
    exact ⟨hrc, hphase.resting, heff⟩

end call
end PcapReplay
