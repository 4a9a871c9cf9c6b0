import PcapReplay.Cp.Copy
import PcapReplay.Sio.Staged

/-! Runs of the copies. -/

namespace PcapReplay
open Interaction Dma Prog
variable {n : ℕ} {raid : NvmeRaid n} {π : Policy} {w w₁ w' : World}

namespace World

structure Keeps (w w' : World) : Prop extends SameTasks w w' where
  nextBuf_le : w.nextBuf ≤ w'.nextBuf
  memory : w.flights = 0 → ∀ buf < w.nextBuf, w'.bus.store (.mem buf) = w.bus.store (.mem buf)

theorem Keeps.refl (w : World) : Keeps w w := ⟨⟨rfl, rfl, rfl⟩, le_rfl, fun _ _ _ => rfl⟩

theorem Keeps.trans (h : Keeps w w₁) (h' : Keeps w₁ w') : Keeps w w' where
  card := h'.card.trans h.card
  scheduled := h'.scheduled.trans h.scheduled
  completed := h'.completed.trans h.completed
  nextBuf_le := h.nextBuf_le.trans h'.nextBuf_le
  memory hw buf hbuf :=
    (h'.memory (h.idle hw) buf (hbuf.trans_le h.nextBuf_le)).trans (h.memory hw buf hbuf)

theorem keeps_drift {b : Bus Space ℕ UInt8} (h : Bus.Drift w.bus b) : Keeps w { w with bus := b } where
  toSameTasks := drift_sameTasks h
  nextBuf_le := le_rfl
  memory hw _ _ := by rw [h.evolves.of_idle hw]

theorem malloc_keeps {len : ℕ} {zero : Bool} {r : Option ℕ} (h : Runs π (Op.malloc len zero).ask w r w') :
    Keeps w w' := by
  have hsame := malloc_sameTasks h
  obtain ⟨b, hdrift, ⟨_, m, hm, _, rfl⟩ | ⟨_, _, rfl⟩⟩ := exec_ask.mp h
  · refine ⟨hsame, Nat.le_succ _, fun hw buf hbuf => ?_⟩
    funext a
    have hne : Space.mem buf ≠ .mem w.nextBuf := by simpa using hbuf.ne
    exact (hm _ a hne).trans (congrFun ((keeps_drift hdrift).memory hw buf hbuf) a)
  · exact keeps_drift hdrift

theorem writeWait_keeps {ns : ℕ} {lba : UInt64} {data : Sector} {r : ℤ}
    (h : Runs π (sioWrite ns lba data) w r w') : Keeps w w' := by
  obtain ⟨b, hdrift, ⟨_, rfl⟩ | ⟨_, _, rfl⟩⟩ := exec_ask.mp h
  · have hkeeps := keeps_drift hdrift
    refine ⟨⟨hdrift.card, rfl, rfl⟩, le_rfl, fun hw buf hbuf => ?_⟩
    exact (writeSector_mem _ ns lba data buf).trans (hkeeps.memory hw buf hbuf)
  · exact keeps_drift hdrift

theorem collect_keeps {α : Type} {k : ℕ} {f : Fin k → Nvme α} {r : Fin k → α}
    (hf : ∀ i w a w', Runs π (f i) w a w' → Keeps w w') (h : Runs π (collect f) w r w') : Keeps w w' := by
  induction k generalizing w w' with
  | zero =>
    obtain ⟨_, rfl⟩ := exec_pure.mp h
    exact .refl w'
  | succ k ih =>
    obtain ⟨a, w₁, h₀, h⟩ := exec_bind.mp h
    obtain ⟨g, w₂, h₁, h⟩ := exec_bind.mp h
    obtain ⟨_, rfl⟩ := exec_pure.mp h
    exact (hf 0 _ _ _ h₀).trans (ih (fun i => hf i.succ) h₁)

end World

theorem updateRaid_keeps {r : Unit} (h : Runs π (updateRaid raid) w r w') : w.Keeps w' := by
  obtain ⟨_, w₁, hall, h⟩ := exec_bind.mp h
  obtain ⟨_, rfl⟩ := exec_pure.mp h
  apply World.collect_keeps _ hall
  intro i w a w' hwrite
  obtain ⟨buf, w₁, hmalloc, hwrite⟩ := exec_bind.mp hwrite
  have hkeeps := World.malloc_keeps hmalloc
  cases buf with
  | none =>
    obtain ⟨_, rfl⟩ := exec_pure.mp hwrite
    exact hkeeps
  | some buf => exact hkeeps.trans (World.writeWait_keeps hwrite)

theorem pure_keeps {α : Type} {a r : α} (h : Runs π (pure a) w r w') : w.Keeps w' := by
  obtain ⟨_, rfl⟩ := exec_pure.mp h
  exact .refl w'

theorem updated_keeps {α : Type} {a r : α} (h : Runs π (updateRaid raid >>= fun _ => pure a) w r w') :
    w.Keeps w' := by
  obtain ⟨_, w₁, hwrite, h⟩ := exec_bind.mp h
  exact (updateRaid_keeps hwrite).trans (pure_keeps h)

section keeps
variable [NeZero n] {name : Name}

theorem addFile_keeps {blsize : UInt64} {r : Option (Slot n) × NvmeRaid n}
    (h : Runs π (addFile raid name blsize) w r w') : w.Keeps w' := by
  rcases addFile_eq raid name blsize with ⟨heq, _⟩ | ⟨s, heq, _⟩
  · rw [heq] at h
    exact pure_keeps h
  · rw [heq] at h
    exact updated_keeps h

theorem copyTarget_keeps {originSize : UInt64} {fpcap : Bool} {r : Target n × NvmeRaid n}
    (h : Runs π (copyTarget raid name originSize fpcap) w r w') : w.Keeps w' := by
  rcases copyTarget_eq raid name originSize fpcap with heq | ⟨s, heq, _⟩ | ⟨heq, _⟩
  · rw [heq] at h
    exact pure_keeps h
  · rw [heq] at h
    exact updated_keeps h
  · rw [heq] at h
    obtain ⟨r, w₁, hadd, h⟩ := exec_bind.mp h
    exact (addFile_keeps hadd).trans (pure_keeps h)

end keeps

section blocks
variable [NeZero n] {rounds : ℕ} {s : Slot n} {map : Ptr} {start blocks originSize : UInt64} {count : ℕ}

def BlocksAre (raid : NvmeRaid n) (m : Store Space UInt8) (start : UInt64) (count : ℕ) (f : ℕ → UInt8) :
    Prop :=
  ∀ k < count, ∀ a : Fin sectorLength, flat raid m (start + UInt64.ofNat k) a = f (k * sectorLength + a)

theorem BlocksAre.congr {m m' : Store Space UInt8} {f : ℕ → UInt8} (h : BlocksAre raid m start count f)
    (hlt : start.toNat + count ≤ 2 ^ 64)
    (hm : ∀ s a, BlockCells raid start.toNat count s a → m' s a = m s a) :
    BlocksAre raid m' start count f := by
  intro k hk a
  have hb : (start + UInt64.ofNat k).toNat = start.toNat + k := toNat_add_ofNat (by omega)
  rw [← h k hk a, flat_eq, flat_eq]
  apply hm
  exact ⟨_, ⟨by omega, by omega⟩, rfl, Nat.le_add_right _ _, Nat.add_lt_add_left a.isLt _⟩

theorem BlocksAre.append_one {m : Store Space UInt8} {f g h : ℕ → UInt8}
    (hf : BlocksAre raid m start count f) (hg : BlocksAre raid m (start + UInt64.ofNat count) 1 g)
    (hfh : ∀ i < count * sectorLength, f i = h i)
    (hgh : ∀ i < sectorLength, g i = h (count * sectorLength + i)) :
    BlocksAre raid m start (count + 1) h := by
  intro k hk a
  have ha := a.isLt
  rcases Nat.lt_or_ge k count with hlt | hge
  · have hle := Nat.mul_le_mul_right sectorLength (Nat.succ_le_of_lt hlt)
    rw [Nat.succ_mul] at hle
    rw [hf k hlt a, hfh _ (by omega)]
  · obtain rfl : k = count := by omega
    have hlast := hg 0 Nat.one_pos a
    have hzero : ∀ b : UInt64, b + UInt64.ofNat 0 = b := UInt64.add_zero
    rw [hzero, Nat.zero_mul, Nat.zero_add] at hlast
    rw [hlast, hgh a ha]

theorem stagedCells_apart {mem mem' : ℕ} {payload payload' : Ptr} {lba lba' count' : ℕ} {s : Space} {a : ℕ}
    (hmem : mem ≠ mem' ∧ mem ≠ payload'.buf) (hpayload : payload.buf ≠ mem' ∧ payload.buf ≠ payload'.buf)
    (hle : lba + count ≤ lba') (hlt : lba' + count' ≤ 2 ^ 64)
    (h : StagedCells raid mem payload lba count s a) : ¬ StagedCells raid mem' payload' lba' count' s a := by
  rcases h with rfl | ⟨rfl, _⟩ | ⟨b, hb, rfl, hcell⟩
  · rintro (h' | ⟨h', _⟩ | ⟨_, _, h', _⟩)
    · exact hmem.1 (Space.mem.inj h')
    · exact hmem.2 (Space.mem.inj h')
    · exact Space.noConfusion h'
  · rintro (h' | ⟨h', _⟩ | ⟨_, _, h', _⟩)
    · exact hpayload.1 (Space.mem.inj h')
    · exact hpayload.2 (Space.mem.inj h')
    · exact Space.noConfusion h'
  · rintro (h' | ⟨h', _⟩ | ⟨c, hc, h', hcell'⟩)
    · exact Space.noConfusion h'
    · exact Space.noConfusion h'
    · have hbc : b = c := block_eq_of_cell (by omega) (by omega) h' hcell hcell'
      omega

theorem copyWhole_run (hπ : ¬ π.reject) (hbal : w.Balanced) (htasks : w.taskScheduled.toNat < 2 ^ 63)
    (hmap : map.buf < w.nextBuf) (h32 : blocks.toNat < 2 ^ 32)
    (hlt : (raid.file s).startBlock.toNat + blocks.toNat < 2 ^ 64)
    (hothers : w.bus.Avoids
      (StagedCells raid w.nextBuf map (raid.file s).startBlock.toNat blocks.toNat))
    (hrun : Runs π (copyWhole raid rounds (some s) map blocks) w (some ()) w') :
    Bus.Resting (StagedCells raid w.nextBuf map (raid.file s).startBlock.toNat blocks.toNat) w.bus w'.bus ∧
      BlocksAre raid w'.bus.store (raid.file s).startBlock blocks.toNat
        fun i => w.bus.store (.mem map.buf) (map.off + i) := by
  unfold copyWhole at hrun
  split_ifs at hrun with hzero
  · have hcount := toNat_toUInt32_of_lt h32
    obtain ⟨r, w₁, htransfer, hrun⟩ := exec_bind.mp hrun
    cases r with
    | none => exact absurd hrun.1 (by simp)
    | some rc =>
      obtain ⟨_, rfl⟩ := exec_pure.mp hrun
      rw [← hcount] at hothers hlt ⊢
      have hsub := sioTasks_le n (raid.file s).startBlock.toNat blocks.toUInt32.toNat
      obtain ⟨_, hrest, heff⟩ := sioTransferPinit_run hπ (fun a => Or.inl rfl)
        (hasCells_stagedCells .write raid _ map _ _) hothers hmap.ne hlt hbal (by omega) htransfer
      refine ⟨hrest, fun k hk a => ?_⟩
      have hb : ((raid.file s).startBlock + UInt64.ofNat k).toNat = (raid.file s).startBlock.toNat + k :=
        toNat_add_ofNat (by omega)
      rw [flat_of_written heff (by rw [hb]; omega), hb, Nat.add_sub_cancel_left, Nat.add_assoc]
  · obtain ⟨_, rfl⟩ := exec_pure.mp hrun
    rw [not_not] at hzero
    subst hzero
    exact ⟨Bus.resting_self _ _, fun k hk => absurd hk (Nat.not_lt_zero k)⟩

theorem padding_run {p len : ℕ} {src : Ptr} {r : Unit} (hidle : w.flights = 0) (hsrc : src.buf < w.nextBuf)
    (hmalloc : Runs π (spdkZmalloc sectorLength) w (some p) w₁)
    (hcopy : Runs π (memcpy ⟨p, 0⟩ src len) w₁ r w') :
    p = w.nextBuf ∧ w.SameTasks w' ∧ w'.nextBuf = w.nextBuf + 1 ∧
      (∀ buf < w.nextBuf, w'.bus.store (.mem buf) = w.bus.store (.mem buf)) ∧
      ∀ a, w'.bus.store (.mem p) a = if a < len then w.bus.store (.mem src.buf) (src.off + a) else 0 := by
  have hkeeps := World.malloc_keeps hmalloc
  have hcopied := World.memcpy_sameTasks hcopy
  have havoid : w.bus.Avoids fun _ _ => True := Bus.avoids_of_idle hidle
  obtain ⟨rfl, hnext, _, _, hzero⟩ := malloc_run (fun _ => trivial) havoid hmalloc
  obtain ⟨b, hdrift, rfl⟩ := exec_ask.mp hcopy
  obtain rfl := hdrift.evolves.of_idle (hkeeps.idle hidle)
  have hmem := hkeeps.memory hidle
  refine ⟨rfl, ⟨?_, ?_, ?_⟩, hnext, fun buf hbuf => ?_, fun a => ?_⟩
  · rw [hcopied.card, hkeeps.card]
  · rw [hcopied.scheduled, hkeeps.scheduled]
  · rw [hcopied.completed, hkeeps.completed]
  · rw [← hmem buf hbuf]
    funext a
    apply Xfer.exec_of_not_writes
    rintro ⟨hb, _⟩
    exact hbuf.ne (Space.mem.inj hb)
  · rw [← hmem _ hsrc]
    show (memXfer ⟨w.nextBuf, 0⟩ src len).exec w₁.bus.store _ _ = _
    split_ifs with ha
    · have hdst := Xfer.exec_dst (memXfer ⟨w.nextBuf, 0⟩ src len) ha w₁.bus.store
      simpa only [memXfer, Nat.zero_add] using hdst
    · rw [Xfer.exec_of_not_writes, hzero rfl]
      rintro ⟨_, _, hlt⟩
      simp only [memXfer, Nat.zero_add] at hlt
      exact ha hlt

def padded (m : Store Space UInt8) (map : Ptr) (size i : ℕ) : UInt8 :=
  if i < size then m (.mem map.buf) (map.off + i) else 0

theorem padded_of_lt {m : Store Space UInt8} {size i : ℕ} (hi : i < size) :
    m (.mem map.buf) (map.off + i) = padded m map size i := (if_pos hi).symm

theorem padded_add {m : Store Space UInt8} {size k i : ℕ} :
    (if i < size - k then m (.mem map.buf) (map.off + k + i) else 0) = padded m map size (k + i) := by
  rw [padded]
  simp only [Nat.lt_sub_iff_add_lt', Nat.add_assoc]

theorem block_run {p : ℕ} {lba : UInt64} {rc : ℤ} (hπ : ¬ π.reject) (hidle : w.flights = 0)
    (hbal : w.Balanced) (htasks : w.taskScheduled.toNat + 1 < 2 ^ 63) (hlt : lba.toNat + 1 < 2 ^ 64)
    (hrun : Runs π (sioRwrite raid ⟨p, 0⟩ lba 1) w rc w₁) :
    w₁.Balanced ∧ w₁.taskScheduled.toNat = w.taskScheduled.toNat + 1 ∧ w₁.nextBuf = w.nextBuf ∧
      (∀ buf, buf ≠ p → w₁.bus.store (.mem buf) = w.bus.store (.mem buf)) ∧
      (∀ f ∈ w₁.flights, ∀ s a, f.xfer.Reads s a ∨ f.xfer.Writes s a →
        StagedCells raid p ⟨p, 0⟩ lba.toNat 1 s a) ∧
      ∀ v, Bus.Evolves w₁.bus v → v.flights = 0 →
        BlocksAre raid v.store lba 1 fun i => w.bus.store (.mem p) i := by
  have hsub := sioTransfer_submits .write raid ⟨p, 0⟩ lba 1 (by decide) hlt
  have hcells := hasCells_stagedCells .write raid p ⟨p, 0⟩ lba.toNat 1
  have havoid : w.bus.Avoids (StagedCells raid p ⟨p, 0⟩ lba.toNat 1) := Bus.avoids_of_idle hidle
  have hbatch := pieces_batch .write raid ⟨p, 0⟩ _ hlt.le hcells
  have hone : pieces .write raid ⟨p, 0⟩ lba.toNat 1 = [sioCmd .write raid ⟨p, 0⟩ lba 1] :=
    pieces_of_le .write raid ⟨p, 0⟩ lba 1 (by decide) (toBoundary_pos lba)
  rw [UInt32.toNat_one] at hsub
  obtain ⟨_, hbal₁, hts₁, hbuf₁, mine, v₁, hst⟩ := hsub.staged hπ havoid (Bus.Staged.start w.bus)
    (by rwa [zero_add]) hbal (by rw [hone]; simp only [List.length_singleton]; omega) hrun
  rw [zero_add] at hst
  obtain rfl := hst.evolves.of_idle hidle
  refine ⟨hbal₁, by rw [hts₁, hone, List.length_singleton], hbuf₁, ?_, ?_, ?_⟩
  · intro buf hbuf
    funext a
    apply hst.frame
    rintro (h | ⟨h, _⟩ | ⟨_, _, h, _⟩)
    · exact hbuf (Space.mem.inj h)
    · exact hbuf (Space.mem.inj h)
    · exact Space.noConfusion h
  · intro f hf s a hcell
    have hmine : f ∈ mine := by
      rwa [show w₁.flights = mine + w.bus.flights from hst.flights_eq,
        show w.bus.flights = 0 from hidle, add_zero] at hf
    have hmem := hst.mem f hmine
    rcases hcell with hr | hw
    · exact hbatch.reads_own _ hmem s a hr
    · exact hbatch.writes_own _ hmem s a hw
  · intro v hev hv k hk a
    obtain ⟨mine', v', hst'⟩ := hst.progress hbatch havoid hev
    have heff := (hst'.effect hv).parts (Command.dvd_len_map _)
    rw [pieces_parts .write raid ⟨p, 0⟩ _ _ hlt.le] at heff
    have hb : (lba + UInt64.ofNat k).toNat = lba.toNat + k := toNat_add_ofNat (by omega)
    rw [flat_of_written heff (by rw [hb]; omega), hb, Nat.add_sub_cancel_left, Nat.zero_add]

theorem paddedBlock_run {p : ℕ} {rc : ℤ} {r : Unit} {wm wc : World} {originSize : UInt64} (hπ : ¬ π.reject)
    (hidle : w.flights = 0) (hbal : w.Balanced) (htasks : w.taskScheduled.toNat + 1 < 2 ^ 63)
    (hlt : (raid.file s).startBlock.toNat + (originBlocks originSize).toNat < 2 ^ 64)
    (hmap : map.buf < w.nextBuf) (hmod : originSize % UInt64.ofNat sectorLength ≠ 0)
    (hmalloc : Runs π (spdkZmalloc sectorLength) w (some p) wm)
    (hcopy : Runs π (memcpy ⟨p, 0⟩
      (map.add ((originBlocks originSize - 1) * UInt64.ofNat sectorLength).toNat)
      (originSize - (originBlocks originSize - 1) * UInt64.ofNat sectorLength).toNat) wm r wc)
    (hblock : Runs π (sioRwrite raid ⟨p, 0⟩ ((raid.file s).startBlock + (originBlocks originSize - 1)) 1)
      wc rc w₁) :
    p = w.nextBuf ∧ w.SameTasks wc ∧ w₁.Balanced ∧
      w₁.taskScheduled.toNat = w.taskScheduled.toNat + 1 ∧ w₁.nextBuf = w.nextBuf + 1 ∧
      (∀ buf < w.nextBuf, w₁.bus.store (.mem buf) = w.bus.store (.mem buf)) ∧
      (∀ f ∈ w₁.flights, ∀ s' a, f.xfer.Reads s' a ∨ f.xfer.Writes s' a → StagedCells raid p ⟨p, 0⟩
        ((raid.file s).startBlock + (originBlocks originSize - 1)).toNat 1 s' a) ∧
      ∀ v, Bus.Evolves w₁.bus v → v.flights = 0 →
        BlocksAre raid v.store ((raid.file s).startBlock + (originBlocks originSize - 1)) 1
          fun i => padded w.bus.store map originSize.toNat
            ((originBlocks originSize - 1).toNat * sectorLength + i) := by
  obtain ⟨hblocks, hoff, hlen⟩ := originBlocks_sub_one hmod
  have hb : ((raid.file s).startBlock + (originBlocks originSize - 1)).toNat =
      (raid.file s).startBlock.toNat + (originBlocks originSize - 1).toNat := toNat_add_of_lt (by omega)
  have hsrc : (map.add ((originBlocks originSize - 1).toNat * sectorLength)).buf < w.nextBuf := hmap
  rw [hoff, hlen] at hcopy
  obtain ⟨rfl, hsame, hnext, hmem, hpad⟩ := padding_run hidle hsrc hmalloc hcopy
  obtain ⟨hbal₁, hts₁, hbuf₁, hmem₁, hlast, hdone⟩ := block_run hπ (hsame.idle hidle)
    (hsame.balanced hbal) (by rw [hsame.scheduled]; exact htasks) (by omega) hblock
  refine ⟨rfl, hsame, hbal₁, by rw [hts₁, hsame.scheduled], hbuf₁.trans hnext, fun buf hbuf => ?_, hlast,
    fun v hev hv => ?_⟩
  · rw [hmem₁ buf hbuf.ne, hmem buf hbuf]
  · have hend := hdone v hev hv
    simp only [hpad] at hend
    simp only [← padded_add]
    exact hend

theorem copyWhole_done (hπ : ¬ π.reject) (hidle : w.flights = 0) (hbal : w.Balanced)
    (htasks : w.taskScheduled.toNat < 2 ^ 63) (hmap : map.buf < w.nextBuf) (h32 : blocks.toNat < 2 ^ 32)
    (hlt : (raid.file s).startBlock.toNat + blocks.toNat < 2 ^ 64)
    (hrun : Runs π (copyWhole raid rounds (some s) map blocks) w (some ()) w₁)
    (hev : Bus.Evolves w₁.bus w'.bus) :
    BlocksAre raid w'.bus.store (raid.file s).startBlock blocks.toNat
      fun i => w.bus.store (.mem map.buf) (map.off + i) := by
  obtain ⟨hrest, hblocks⟩ := copyWhole_run hπ hbal htasks hmap h32 hlt (Bus.avoids_of_idle hidle) hrun
  obtain ⟨v, hv, hflights, _⟩ := hrest.others (Bus.avoids_of_idle hidle)
  obtain rfl := hv.of_idle hidle
  rw [hev.of_idle (hflights.trans hidle)]
  exact hblocks

theorem copyWhole_beside {p : ℕ} {f : ℕ → UInt8} (hπ : ¬ π.reject) (hbal : w.Balanced)
    (htasks : w.taskScheduled.toNat < 2 ^ 63) (hmap : map.buf < w.nextBuf) (hp : p < w.nextBuf)
    (hne : map.buf ≠ p) (h32 : blocks.toNat < 2 ^ 32)
    (hlt : (raid.file s).startBlock.toNat + blocks.toNat + 1 < 2 ^ 64)
    (hlast : ∀ f ∈ w.flights, ∀ s' a, f.xfer.Reads s' a ∨ f.xfer.Writes s' a →
      StagedCells raid p ⟨p, 0⟩ ((raid.file s).startBlock + blocks).toNat 1 s' a)
    (hdone : ∀ v, Bus.Evolves w.bus v → v.flights = 0 →
      BlocksAre raid v.store ((raid.file s).startBlock + blocks) 1 f)
    (hrun : Runs π (copyWhole raid rounds (some s) map blocks) w (some ()) w₁)
    (hev : Bus.Evolves w₁.bus w'.bus) (hidle : w'.flights = 0) :
    BlocksAre raid w'.bus.store (raid.file s).startBlock blocks.toNat
      (fun i => w.bus.store (.mem map.buf) (map.off + i)) ∧
    BlocksAre raid w'.bus.store ((raid.file s).startBlock + blocks) 1 f := by
  have hb : ((raid.file s).startBlock + blocks).toNat = (raid.file s).startBlock.toNat + blocks.toNat :=
    toNat_add_of_lt (by omega)
  have hapart : ∀ s' a, StagedCells raid p ⟨p, 0⟩ ((raid.file s).startBlock + blocks).toNat 1 s' a →
      ¬ StagedCells raid w.nextBuf map (raid.file s).startBlock.toNat blocks.toNat s' a :=
    fun s' a h h' => stagedCells_apart ⟨hp.ne', hp.ne'⟩ ⟨hne, hne⟩ (by rw [hb]) (by omega) h' h
  have hothers : w.bus.Avoids (StagedCells raid w.nextBuf map (raid.file s).startBlock.toNat blocks.toNat) :=
    fun f hf s' a hcell => hapart s' a (hlast f hf s' a hcell)
  obtain ⟨hrest, hblocks⟩ := copyWhole_run hπ hbal htasks hmap h32 (by omega) hothers hrun
  -- what the rest of the commands do shows neither in the blocks nor in the staging buffer
  obtain ⟨hrest', hsame⟩ := hrest.progress hothers hev
  obtain ⟨v, hv, hflights, hframe, _⟩ := hrest'.others hothers
  constructor
  · exact hblocks.congr (by omega) fun s' a h => hsame s' a (Or.inr (Or.inr h))
  · refine (hdone v hv (hflights.symm.trans hidle)).congr (by omega) fun s' a h => ?_
    exact hframe s' a (hapart s' a (Or.inr (Or.inr h)))

theorem copyBlocks_run (hπ : ¬ π.reject) (hidle : w.flights = 0) (hbal : w.Balanced)
    (htasks : w.taskScheduled.toNat + 1 < 2 ^ 63) (hmap : map.buf < w.nextBuf)
    (h32 : (originBlocks originSize).toNat < 2 ^ 32)
    (hlt : (raid.file s).startBlock.toNat + (originBlocks originSize).toNat < 2 ^ 64)
    (hrun : Runs π (copyBlocks raid rounds (some s) map originSize) w (some ()) w₁)
    (hev : Bus.Evolves w₁.bus w'.bus) (hidle' : w'.flights = 0) :
    BlocksAre raid w'.bus.store (raid.file s).startBlock (originBlocks originSize).toNat
      (padded w.bus.store map originSize.toNat) := by
  have hsize := originBlocks_toNat originSize
  unfold copyBlocks at hrun
  split_ifs at hrun with hmod
  · obtain ⟨hblocks, _, _⟩ := originBlocks_sub_one hmod
    obtain ⟨res, wm, hmalloc, hrun⟩ := exec_bind.mp hrun
    cases res with
    | none => exact absurd hrun.1 (by simp)
    | some p =>
      obtain ⟨_, wc, hcopy, hrun⟩ := exec_bind.mp hrun
      obtain ⟨rc, wb, hblock, hlater⟩ := exec_bind.mp hrun
      obtain ⟨rfl, _, hbal₁, hts₁, hbuf₁, hmem₁, hlast, hdone⟩ :=
        paddedBlock_run hπ hidle hbal htasks hlt hmap hmod hmalloc hcopy hblock
      obtain ⟨hwhole, hend⟩ := copyWhole_beside hπ hbal₁ (by omega) (by omega) (by omega) hmap.ne (by omega)
        (by omega) hlast hdone hlater hev hidle'
      rw [hmem₁ map.buf hmap] at hwhole
      rw [← hblocks]
      refine hwhole.append_one ?_ (fun i hi => padded_of_lt ?_) (fun i _ => rfl)
      · rw [UInt64.ofNat_toNat]
        exact hend
      · simp only [sectorLength_eq] at hi
        omega
  · rw [mod_sectorLength_ne, not_not] at hmod
    intro k hk a
    have ha := a.isLt
    simp only [sectorLength_eq] at ha
    rw [copyWhole_done hπ hidle hbal (by omega) hmap h32 hlt hrun hev k hk a]
    apply padded_of_lt
    simp only [sectorLength_eq]
    omega

theorem copyOut_run {name : Name} {size : Option UInt64} (hπ : ¬ π.reject) (hidle : w.flights = 0)
    (hbal : w.Balanced) (htasks : w.taskScheduled.toNat < 2 ^ 63) (hmap : map.buf < w.nextBuf)
    (hs : Prepared raid s name originSize)
    (hrun : Runs π (copyOut raid rounds name map) w (some size) w') :
    size = some (originBlocks originSize * UInt64.ofNat sectorLength) ∧
      (∀ k < (originBlocks originSize).toUInt32.toNat, ∀ a : Fin sectorLength,
        w'.bus.store (.mem map.buf) (map.off + k * sectorLength + a) =
          flat raid w.bus.store ((raid.file s).startBlock + UInt64.ofNat k) a) ∧
      ∀ i, (originBlocks originSize).toUInt32.toNat * sectorLength ≤ i →
        w'.bus.store (.mem map.buf) (map.off + i) = w.bus.store (.mem map.buf) (map.off + i) := by
  have hlt := hs.lt
  unfold copyOut at hrun
  simp only [hs.found, hs.blocks_eq] at hrun
  obtain ⟨res, w₁, htransfer, hrun⟩ := exec_bind.mp hrun
  cases res with
  | none => exact absurd hrun.1 (by simp)
  | some rc =>
    obtain ⟨hsize, rfl⟩ := exec_pure.mp hrun
    have hcount := toNat_toUInt32_le (originBlocks originSize)
    have hle := sioTasks_le n (raid.file s).startBlock.toNat (originBlocks originSize).toUInt32.toNat
    have h32 := (originBlocks originSize).toUInt32.toNat_lt
    have hothers : w.bus.Avoids (StagedCells raid w.nextBuf map (raid.file s).startBlock.toNat
        (originBlocks originSize).toUInt32.toNat) := Bus.avoids_of_idle hidle
    obtain ⟨_, hrest, heff⟩ := sioTransferPinit_run hπ (fun a => Or.inl rfl)
      (hasCells_stagedCells .read raid _ map _ _) hothers hmap.ne (by omega) hbal (by omega) htransfer
    obtain ⟨v, hv, _, hframe, _⟩ := hrest.others hothers
    obtain rfl := hv.of_idle hidle
    refine ⟨Option.some.inj hsize, fun k hk a => payload_of_read heff (by omega) hk a, fun i hi => ?_⟩
    apply hframe
    rintro (h | ⟨_, _, h⟩ | ⟨_, _, h, _⟩)
    · exact hmap.ne (Space.mem.inj h)
    · omega
    · exact Space.noConfusion h

end blocks
end PcapReplay
