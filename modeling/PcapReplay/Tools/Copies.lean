import PcapReplay.Tools.Contents

/-! What copies and removals do to the directory that a raid holds. -/

namespace PcapReplay
open Interaction Dma Prog
variable {n : ℕ} [NeZero n]

/-- The raid has room for its tables, and its blocks have numbers that the addressing can bear. -/
structure Sized (raid : NvmeRaid n) : Prop where
  reserved : n * 256 ≤ raid.totalBlocks.toNat
  small : raid.totalBlocks.toNat ≤ 2 ^ 63

omit [NeZero n] in
theorem Sized.of_total {raid raid' : NvmeRaid n} (h : Sized raid)
    (ht : raid'.totalBlocks = raid.totalBlocks) :
    Sized raid' := by
  obtain ⟨hle, h63⟩ := h
  rw [← ht] at hle h63
  exact ⟨hle, h63⟩

structure Kin (raid raid' : NvmeRaid n) : Prop where
  ns : raid'.ns = raid.ns
  total : raid'.totalBlocks = raid.totalBlocks
  counted : Counted raid → Counted raid'

theorem Kin.refl (raid : NvmeRaid n) : Kin raid raid := ⟨rfl, rfl, id⟩

theorem Kin.trans {raid raid₁ raid' : NvmeRaid n} (h : Kin raid raid₁) (h' : Kin raid₁ raid')
    : Kin raid raid' :=
  ⟨h'.ns.trans h.ns, h'.total.trans h.total, fun hc => h'.counted (h.counted hc)⟩

def memBytes (m : Store Space UInt8) (map : Ptr) (size : ℕ) : List UInt8 :=
  (List.range size).map fun i => m (.mem map.buf) (map.off + i)

omit [NeZero n] in
theorem length_memBytes (m : Store Space UInt8) (map : Ptr) (size : ℕ) :
    (memBytes m map size).length = size := by
  rw [memBytes, List.length_map, List.length_range]

theorem getD_memBytes (m : Store Space UInt8) (map : Ptr) (size i : ℕ) :
    (memBytes m map size).getD i 0 = padded m map size i := by
  unfold padded
  split_ifs with hi
  · rw [List.getD_eq_getElem _ _ (by rwa [length_memBytes])]
    simp [memBytes]
  · rw [List.getD_eq_default _ _ (by rw [length_memBytes]; omega)]

theorem memBytes_congr {m m' : Store Space UInt8} {map : Ptr} (h : m (.mem map.buf) = m' (.mem map.buf))
    (size : ℕ) : memBytes m map size = memBytes m' map size := by
  unfold memBytes
  rw [h]

section written
variable {st : RaidState n} {d : Directory} {raid' : NvmeRaid n} {name : Name} {s : Slot n} {w w₁ : World}

theorem Changes.rewritten {π : Policy} (hπ : π.Smooth) {r : Unit} (hc : Changes st.raid raid' s)
    (hidle : w.flights = 0) (hdisks : w.disks = st.disks) (hrun : Runs π (updateRaid raid') w r w₁) :
    w.Keeps w₁ ∧ Rewritten st ⟨raid', w₁.disks⟩ s := by
  obtain ⟨hkeeps, hsynced, hrest⟩ := updateRaid_run hπ hidle hrun
  refine ⟨hkeeps, hc, hsynced, fun k a ha _ => ?_⟩
  rw [← hdisks]
  exact hrest k a (Or.inr ha)

theorem Rewritten.data {disks disks' : Disks} (hr : Rewritten st ⟨raid', disks⟩ s) (hz : Sized st.raid)
    (hkept : ∀ k a, ¬ FileCells raid' s (.disk k) a → disks' k a = disks k a) :
    Rewritten st ⟨raid', disks'⟩ s where
  toChanges := hr.toChanges
  synced i a ha := by
    rw [← hr.synced i a ha]
    apply hkept
    rw [fileCells_iff]
    rintro ⟨b, hb, _, hle, _⟩
    have hfirst := hr.sound.sectorLength_le (hr.total ▸ hz.small) hb
    omega
  kept k a ha hcell := (hkept k a hcell).trans (hr.kept k a ha hcell)

omit [NeZero n] in
theorem Prepared.fileBlocks_eq {originSize : UInt64} (h : Prepared raid' s name originSize) :
    fileBlocks raid' s = (originBlocks originSize).toNat := by
  unfold fileBlocks
  rw [h.extent, toNat_add_of_lt h.lt, Nat.add_sub_cancel_left]

end written

theorem copyBlocks_none_empty {raid : NvmeRaid n} {π : Policy} {w w' : World} {rounds : ℕ} {map : Ptr}
    {originSize : UInt64} (hrun : Runs π (copyBlocks raid rounds none map originSize) w (some ()) w') :
    originSize = 0 := by
  have hblocks := originBlocks_toNat originSize
  unfold copyBlocks at hrun
  split_ifs at hrun with hmod
  · obtain ⟨res, _, _, hrun⟩ := exec_bind.mp hrun
    cases res with
    | none => exact absurd hrun.1 (by simp)
    | some p =>
      obtain ⟨_, _, _, hrun⟩ := exec_bind.mp hrun
      exact absurd hrun.1 (by simp)
  · unfold copyWhole at hrun
    split_ifs at hrun with hzero
    · exact absurd hrun.1 (by simp)
    · rw [mod_sectorLength_ne, not_not] at hmod
      rw [not_not] at hzero
      rw [hzero, UInt64.toNat_zero] at hblocks
      apply UInt64.toNat_inj.mp
      rw [UInt64.toNat_zero]
      omega

inductive Obtained (raid : NvmeRaid n) (name : Name) (originSize : UInt64) (s : Slot n) : NvmeRaid n → Prop
  | shrink (hs : findFile raid name = some s) (ho : originSize ≤ fileSize (raid.file s)) :
      Obtained raid name originSize s (tableShrink raid s originSize)
  | add (ha : Admits raid name (originBlocks originSize)) (hs : freeSlot raid = some s) :
      Obtained raid name originSize s (tableAdd raid s name (originBlocks originSize))

theorem copyIn_eq (raid : NvmeRaid n) (rounds : ℕ) (name : Name) (map : Ptr) (originSize : UInt64) :
    (copyIn raid rounds name map originSize = pure (some raid) ∧
        ∃ s, findFile raid name = some s ∧ fileSize (raid.file s) < originSize) ∨
      ((copyIn raid rounds name map originSize = do
          let r ← copyBlocks raid rounds none map originSize
          pure (r.map fun _ => raid)) ∧ findFile raid name = none) ∨
      ∃ s raid', Obtained raid name originSize s raid' ∧
        (copyIn raid rounds name map originSize = do
          updateRaid raid'
          let r ← copyBlocks raid' rounds (some s) map originSize
          pure (r.map fun _ => raid')) := by
  unfold copyIn copyTarget
  cases hs : findFile raid name with
  | some s =>
    simp only
    by_cases hlarge : fileSize (raid.file s) < originSize
    · rw [if_pos hlarge]
      exact Or.inl ⟨rfl, s, rfl, hlarge⟩
    · rw [if_neg hlarge, if_neg Bool.false_ne_true]
      simp only [bind_assoc, pure_bind]
      refine Or.inr (Or.inr ⟨s, _, .shrink hs (UInt64.not_lt.mp hlarge), ?_⟩)
      refine congrArg _ (funext fun _ => congrArg _ (funext fun r => ?_))
      cases r with
      | none => rfl
      | some _ => rfl
  | none =>
    rcases addFile_eq raid name (originBlocks originSize) with ⟨heq, _⟩ | ⟨s, heq, ha, hfree⟩
    · refine Or.inr (Or.inl ⟨?_, rfl⟩)
      simp only [heq, pure_bind]
      refine congrArg _ (funext fun r => ?_)
      cases r with
      | none => rfl
      | some _ => rfl
    · refine Or.inr (Or.inr ⟨s, _, .add ha hfree, ?_⟩)
      simp only [heq, bind_assoc, pure_bind]
      refine congrArg _ (funext fun _ => congrArg _ (funext fun r => ?_))
      cases r with
      | none => rfl
      | some _ => rfl

theorem copyIn_cases {raid raid' : NvmeRaid n} {π : Policy} {w w' : World} {rounds : ℕ} {name : Name}
    {map : Ptr} {originSize : UInt64}
    (hrun : Runs π (copyIn raid rounds name map originSize) w (some raid') w') :
    (raid' = raid ∧ w' = w ∧ ∃ s, findFile raid name = some s ∧ fileSize (raid.file s) < originSize) ∨
      (raid' = raid ∧ w' = w ∧ findFile raid name = none ∧ originSize = 0) ∨
      ∃ s w₁, Obtained raid name originSize s raid' ∧ Runs π (updateRaid raid') w () w₁ ∧
        Runs π (copyBlocks raid' rounds (some s) map originSize) w₁ (some ()) w' := by
  rcases copyIn_eq raid rounds name map originSize with ⟨heq, hlarge⟩ | ⟨heq, hs⟩ | ⟨s, raid₁, hobt, heq⟩
  · rw [heq] at hrun
    obtain ⟨hraid, rfl⟩ := exec_pure.mp hrun
    exact Or.inl ⟨Option.some.inj hraid, rfl, hlarge⟩
  · rw [heq] at hrun
    obtain ⟨r, w₁, hcopy, hrun⟩ := exec_bind.mp hrun
    obtain ⟨hraid, rfl⟩ := exec_pure.mp hrun
    obtain ⟨u, rfl, rfl⟩ := Option.map_eq_some_iff.mp hraid.symm
    obtain rfl := copyBlocks_none hcopy
    exact Or.inr (Or.inl ⟨rfl, rfl, hs, copyBlocks_none_empty hcopy⟩)
  · rw [heq] at hrun
    obtain ⟨_, w₁, hupdate, hrun⟩ := exec_bind.mp hrun
    obtain ⟨r, w₂, hcopy, hrun⟩ := exec_bind.mp hrun
    obtain ⟨hraid, rfl⟩ := exec_pure.mp hrun
    obtain ⟨u, rfl, rfl⟩ := Option.map_eq_some_iff.mp hraid.symm
    exact Or.inr (Or.inr ⟨s, w₁, hobt, hupdate, hcopy⟩)

section obtained
variable {raid raid' : NvmeRaid n} {name : Name} {originSize : UInt64} {s : Slot n}
  (h : Obtained raid name originSize s raid')
include h

theorem Obtained.tableChange : TableChange raid raid' := by
  cases h with
  | shrink hs ho => exact .shrink s originSize
  | add ha hs => exact .add s name _ ha.named (freeSlot_dead hs)

theorem Obtained.changes (hi : Sound raid) (hm : Headed raid) (hn : n ≤ maxDisks)
    (ht : n * 256 ≤ raid.totalBlocks.toNat) : Changes raid raid' s := by
  have hhead := hm.change h.tableChange
  cases h with
  | shrink hs ho => exact ⟨hi.shrink ho, hhead, rfl, rfl, fun t ht => by rw [file_tableShrink, if_neg ht]⟩
  | add ha hs => exact ⟨hi.add hn ht ha hs, hhead, rfl, rfl, fun t ht => by rw [file_tableAdd, if_neg ht]⟩

theorem Obtained.prepared (hi : Sound raid) (hn : n ≤ maxDisks) (ht : n * 256 ≤ raid.totalBlocks.toNat) :
    Prepared raid' s name originSize := by
  cases h with
  | shrink hs ho => exact hi.prepared_shrink hs ho
  | add ha hs => exact hi.prepared_add hn ht ha hs

theorem Obtained.name_iff (hi : Sound raid) (t : Slot n) (hlive : raid.Live t) :
    (raid.file t).name.str = name.str ↔ t = s := by
  cases h with
  | shrink hs ho =>
    by_cases hname : name 0 = 0
    · have hnil := (Name.str_eq_nil name).mpr hname
      rw [hnil]
      refine iff_of_false hlive.str_ne fun hts => ?_
      subst hts
      have hstr : name.str = (raid.file t).name.str := by
        rw [← cmpFile_eq_zero]
        simpa using List.find?_some hs
      exact hlive.str_ne (hstr.symm.trans hnil)
    · exact name_iff_of_found hi hname hs t hlive
  | add ha hs => exact name_iff_of_absent hi ha.absent (freeSlot_dead hs) t hlive

theorem Obtained.str_eq : (raid'.file s).name.str = name.str := by
  cases h with
  | shrink hs ho =>
    rw [file_tableShrink, if_pos rfl, eq_comm, ← cmpFile_eq_zero]
    simpa using List.find?_some hs
  | add ha hs => rw [file_tableAdd_self]

end obtained

theorem Obtained.fits {st : RaidState n} {d : Directory} {raid' : NvmeRaid n} {name : Name}
    {originSize : UInt64} {s : Slot n} (h : Obtained st.raid name originSize s raid') (hd : Carries st d)
    (hname : name 0 ≠ 0) {old : List UInt8} (hold : d name.str = some old) : originSize.toNat ≤ old.length := by
  cases h with
  | shrink hs ho =>
    obtain ⟨bytes, hbytes, hcontents⟩ := hd.found hname hs
    rw [hold] at hbytes
    rw [Option.some.inj hbytes, ← hcontents.fileSize_toNat hd.sound]
    exact UInt64.le_iff_toNat_le.mp ho
  | add ha hs =>
    rw [hd.absent ha.absent] at hold
    exact absurd hold (by simp)

theorem Carries.copyIn {st : RaidState n} {d : Directory} {name : Name} {originSize : UInt64} {w w' v : World}
    {map : Ptr} {rounds : ℕ} {raid' : NvmeRaid n} (h : Carries st d) (hn : n ≤ maxDisks) (hz : Sized st.raid)
    (hw : Fresh w map) (hdisks : w.disks = st.disks) (h32 : (originBlocks originSize).toNat < 2 ^ 32)
    (hrun : Runs flawless (copyIn st.raid rounds name map originSize) w (some raid') w')
    (hev : Bus.Evolves w'.bus v.bus) (hidle : v.flights = 0) :
    ∃ d', d.Step (.cpIn name.str (memBytes w.bus.store map originSize.toNat)) .nothing d' ∧
      Carries ⟨raid', v.disks⟩ d' ∧ Kin st.raid raid' := by
  let bytes := memBytes w.bus.store map originSize.toNat
  have hlength : bytes.length = originSize.toNat := length_memBytes _ _ _
  rcases copyIn_cases hrun with ⟨rfl, rfl, s, hs, hlarge⟩ | ⟨rfl, rfl, hs, rfl⟩ | ⟨s, w₁, hobt, hupdate, hcopy⟩
  · -- the file in the raid is smaller
    have hsame : v.disks = st.disks := by
      rw [← hdisks]
      unfold World.disks
      rw [hev.of_idle hw.idle]
    refine ⟨d, ?_, by rw [hsame]; exact h, .refl _⟩
    by_cases hname : name 0 = 0
    · rw [(Name.str_eq_nil name).mpr hname]
      exact .storeUnnamed d _
    · obtain ⟨old, hold, hcontents⟩ := h.found hname hs
      refine .tooLarge hold ?_
      have hlt := UInt64.lt_iff_toNat_lt.mp hlarge
      rw [hcontents.fileSize_toNat h.sound] at hlt
      exact hlt.trans_eq hlength.symm
  · have hsame : v.disks = st.disks := by
      rw [← hdisks]
      unfold World.disks
      rw [hev.of_idle hw.idle]
    exact ⟨d, .refused (h.absent hs), by rw [hsame]; exact h, .refl _⟩
  · have hprep := hobt.prepared h.sound hn hz.reserved
    have hchanges := hobt.changes h.sound h.headed hn hz.reserved
    have hkin : Kin st.raid raid' := ⟨hchanges.ns, hchanges.total, hobt.tableChange.counted hn⟩
    have hlen := hprep.fileBlocks_eq
    obtain ⟨hkeeps, hr₁⟩ := hchanges.rewritten ⟨id, id⟩ hw.idle hdisks hupdate
    have hw₁ := hw.keeps hkeeps
    obtain ⟨_, hconf⟩ := hprep.copyBlocks_ensures.exec hcopy (Bus.confined_of_idle hw₁.idle)
      fun _ _ _ _ => World.step_confined fun buf _ => Or.inl ⟨buf, rfl⟩
    have hr : Rewritten st ⟨raid', v.disks⟩ s :=
      hr₁.data hz fun k a hcell => (hconf.evolves hev).kept _ a hcell
    have hblocks := copyBlocks_run id hw₁.idle hw₁.balanced (by rw [hw₁.scheduled_toNat]; decide) hw₁.mapped
      h32 hprep.lt hcopy hev hidle
    have hpadded : padded w₁.bus.store map originSize.toNat = fun i => (pad bytes).getD i 0 := by
      funext i
      rw [getD_pad, getD_memBytes]
      unfold padded
      rw [hkeeps.memory hw.idle map.buf hw.mapped]
    rw [hpadded] at hblocks
    have hcontents : Contents ⟨raid', v.disks⟩ s (pad bytes) := by
      refine ⟨?_, hlen.trans_lt h32, fun k hk a => hblocks k (hlen ▸ hk) a⟩
      rw [length_pad, hlength, ← originBlocks_toNat]
      exact congrArg (· * 512) hlen.symm
    have hstr := hobt.str_eq
    by_cases hname : name 0 = 0
    · -- the slot is a free one, and has no blocks
      have hnil := (Name.str_eq_nil name).mpr hname
      have hdead : ¬ raid'.Live s := not_not.mpr ((Name.head_eq_zero hstr).mpr hname)
      have hsame : Function.update d name.str none = d := by
        rw [Function.update_eq_self_iff, hnil, h.unnamed]
      refine ⟨d, by rw [hnil]; exact .storeUnnamed d _, ?_, hkin⟩
      rw [← hsame]
      exact h.rewritten hr hz.small (hobt.name_iff h.sound) (fun _ => rfl) (fun _ => hdead) nofun
    · have hne : name.str ≠ [] := fun hnil => hname ((Name.str_eq_nil name).mp hnil)
      have hlive : raid'.Live s := fun h0 => hname ((Name.head_eq_zero hstr).mp h0)
      refine ⟨Function.update d name.str (some (pad bytes)), .store hne fun old hold => ?_, ?_, hkin⟩
      · exact hlength.trans_le (hobt.fits h hname hold)
      · exact h.rewritten hr hz.small (hobt.name_iff h.sound) (fun hnil => absurd hnil hne)
          (fun hnone => absurd hnone (by simp)) fun bytes' hb => ⟨hlive, hstr, Option.some.inj hb ▸ hcontents⟩

theorem prepared_of_found {raid : NvmeRaid n} {name : Name} {s : Slot n} (hi : Sound raid)
    (hs : findFile raid name = some s) (h32 : fileBlocks raid s < 2 ^ 32) :
    Prepared raid s name (UInt64.ofNat (fileBlocks raid s * 512)) ∧
      (originBlocks (UInt64.ofNat (fileBlocks raid s * 512))).toNat = fileBlocks raid s := by
  have hle := hi.startBlock_le s
  have hlt := (raid.file s).endBlock.toNat_lt
  have hsize : (UInt64.ofNat (fileBlocks raid s * 512)).toNat = fileBlocks raid s * 512 :=
    toNat_ofNat_of_lt (by omega)
  have hblocks : (originBlocks (UInt64.ofNat (fileBlocks raid s * 512))).toNat = fileBlocks raid s := by
    rw [originBlocks_toNat, hsize]
    omega
  have hsum : (raid.file s).startBlock.toNat + fileBlocks raid s = (raid.file s).endBlock.toNat :=
    Nat.add_sub_cancel' hle
  refine ⟨⟨hs, ?_, by omega⟩, hblocks⟩
  apply UInt64.toNat_inj.mp
  rw [toNat_add_of_lt (by omega), hblocks, hsum]

theorem Carries.fileBlocks_lt {st : RaidState n} {d : Directory} (h : Carries st d) (s : Slot n) :
    fileBlocks st.raid s < 2 ^ 32 := by
  by_cases hlive : st.raid.Live s
  · obtain ⟨_, _, hcontents⟩ := h.files s hlive
    exact hcontents.small
  · obtain ⟨hstart, hend⟩ := h.sound.free hlive
    rw [fileBlocks, hstart, hend]
    decide

theorem copyOut_quiet {raid : NvmeRaid n} {name : Name} {w w' : World} {map : Ptr} {rounds : ℕ}
    {bytes : Option UInt64} (hi : Sound raid) (hz : Sized raid) (hw : Fresh w map)
    (hrun : Runs flawless (copyOut raid rounds name map) w (some bytes) w') :
    w'.flights = 0 ∧ w'.disks = w.disks := by
  unfold copyOut at hrun
  cases hs : findFile raid name with
  | none =>
    simp only [hs] at hrun
    obtain ⟨_, rfl⟩ := exec_pure.mp hrun
    exact ⟨hw.idle, rfl⟩
  | some s =>
    simp only [hs] at hrun
    obtain ⟨res, w₁, htransfer, hrun⟩ := exec_bind.mp hrun
    cases res with
    | none => exact absurd hrun.1 (by simp)
    | some rc =>
      obtain ⟨_, rfl⟩ := exec_pure.mp hrun
      have hcount := toNat_toUInt32_le ((raid.file s).endBlock - (raid.file s).startBlock)
      have hle := hi.startBlock_le s
      have hend := hi.endBlock_le s
      have h63 := hz.small
      rw [hi.length_toNat, fileBlocks] at hcount
      have hts := hw.scheduled_toNat
      have htasks := sioTasks_le n (raid.file s).startBlock.toNat
        ((raid.file s).endBlock - (raid.file s).startBlock).toUInt32.toNat
      have h32 := ((raid.file s).endBlock - (raid.file s).startBlock).toUInt32.toNat_lt
      obtain ⟨_, v, hev, hflights, _, hkept⟩ := (sioPinit_done id raid rounds map (raid.file s).startBlock
        ((raid.file s).endBlock - (raid.file s).startBlock).toUInt32 w
        (by simp only [superSectorNum_eq]; omega) hw.balanced (by omega) hw.mapped.ne
        (Bus.avoids_of_idle hw.idle)).2 rc w' htransfer
      obtain rfl := hev.of_idle hw.idle
      refine ⟨hflights.trans hw.idle, ?_⟩
      funext k a
      apply hkept
      · simp
      · rintro ⟨hk, _⟩
        exact Space.noConfusion hk

theorem Carries.copyOut {st : RaidState n} {d : Directory} {name : Name} {w w' : World} {map : Ptr}
    {rounds : ℕ} {bytes : Option UInt64} (h : Carries st d) (hw : Fresh w map)
    (hdisks : w.disks = st.disks)
    (hrun : Runs flawless (copyOut st.raid rounds name map) w (some bytes) w') :
    d.Step (.cpOut name.str) (.copied (bytes.map fun k => memBytes w'.bus.store map k.toNat)) d := by
  cases hs : findFile st.raid name with
  | none =>
    unfold PcapReplay.copyOut at hrun
    simp only [hs] at hrun
    obtain ⟨hnone, _⟩ := exec_pure.mp hrun
    obtain rfl := Option.some.inj hnone
    by_cases hname : name 0 = 0
    · rw [(Name.str_eq_nil name).mpr hname]
      exact .loadUnnamed d (Or.inl rfl)
    · have hload := @Directory.Step.load d name.str fun hnil => hname ((Name.str_eq_nil name).mp hnil)
      rwa [h.absent hs] at hload
  | some s =>
    have h32 := h.fileBlocks_lt s
    obtain ⟨hprep, hblocks⟩ := prepared_of_found h.sound hs h32
    obtain ⟨hsize, hout, _⟩ := copyOut_run id hw.idle hw.balanced (by rw [hw.scheduled_toNat]; decide)
      hw.mapped hprep hrun
    have hbytes : (originBlocks (UInt64.ofNat (fileBlocks st.raid s * 512)) * UInt64.ofNat sectorLength).toNat =
        fileBlocks st.raid s * 512 := by
      rw [UInt64.toNat_mul, hblocks, Nat.mod_eq_of_lt]
      · rfl
      · show fileBlocks st.raid s * 512 < 2 ^ 64
        omega
    rw [hsize, Option.map_some, hbytes]
    by_cases hname : name 0 = 0
    · have hdead : ¬ st.raid.Live s := by
        refine not_not.mpr ((Name.head_eq_zero ?_).mp hname)
        rw [← cmpFile_eq_zero]
        simpa using List.find?_some hs
      obtain ⟨hstart, hend⟩ := h.sound.free hdead
      rw [(Name.str_eq_nil name).mpr hname, fileBlocks, hstart, hend]
      exact .loadUnnamed d (Or.inr rfl)
    · obtain ⟨old, hold, hcontents⟩ := h.found hname hs
      have hload := @Directory.Step.load d name.str fun hnil => hname ((Name.str_eq_nil name).mp hnil)
      have hcount : (originBlocks (UInt64.ofNat (fileBlocks st.raid s * 512))).toUInt32.toNat =
          fileBlocks st.raid s := by
        rw [toNat_toUInt32_of_lt (by rwa [hblocks]), hblocks]
      rw [hcount] at hout
      have hsame : memBytes w'.bus.store map (fileBlocks st.raid s * 512) = old := by
        refine List.ext_getElem (by rw [length_memBytes, hcontents.length]) fun i hi hi' => ?_
        rw [length_memBytes] at hi
        have hia : i / 512 * sectorLength + i % 512 = i := Nat.div_add_mod' i 512
        have hk : i / 512 < fileBlocks st.raid s := Nat.div_lt_of_lt_mul (by omega)
        have hbyte := hout (i / 512) hk ⟨i % 512, Nat.mod_lt _ (by decide)⟩
        have hstored := hcontents.blocks (i / 512) hk ⟨i % 512, Nat.mod_lt _ (by decide)⟩
        rw [Nat.add_assoc, hia] at hbyte
        rw [hia, List.getD_eq_getElem _ _ hi'] at hstored
        have hget : (memBytes w'.bus.store map (fileBlocks st.raid s * 512))[i] =
            w'.bus.store (.mem map.buf) (map.off + i) := by
          simp [memBytes]
        have hblock : flat st.raid w.bus.store = st.block := by
          unfold RaidState.block
          rw [← hdisks]
          rfl
        rw [hget, hbyte, hblock, hstored]
      rwa [hsame, ← hold]

theorem changes_tableDel {raid : NvmeRaid n} {name : Name} {s : Slot n} (hi : Sound raid) (hm : Headed raid)
    (hname : name 0 ≠ 0) (hs : findFile raid name = some s) : Changes raid (tableDel raid s) s where
  sound := hi.del hname hs
  headed := hm.change (.del s (findFile_live hname hs))
  ns := rfl
  total := rfl
  others t ht := by rw [file_tableDel, if_neg ht]

theorem Carries.deleted {st st' : RaidState n} {d : Directory} {file : Name} {s : Slot n} (h : Carries st d)
    (h63 : st.raid.totalBlocks.toNat ≤ 2 ^ 63) (hname : file 0 ≠ 0) (hs : findFile st.raid file = some s)
    (hr : Rewritten st st' s) (hfile : st'.raid.file s = (tableDel st.raid s).file s) :
    Carries st' (Function.update d file.str none) := by
  refine h.rewritten hr h63 (name_iff_of_found h.sound hname hs) (fun _ => rfl) (fun _ => ?_) nofun
  unfold NvmeRaid.Live
  rw [hfile, file_tableDel, if_pos rfl]
  simp

theorem Carries.delFile {π : Policy} (hπ : π.Smooth) {file : Name} {st : RaidState n} {d : Directory}
    {w w' : World} {ret : UInt8} {raid' : NvmeRaid n} (h : Carries st d) (hz : Sized st.raid)
    (hidle : w.flights = 0) (hdisks : w.disks = st.disks) (hrun : Runs π (delFile st.raid file) w (ret, raid') w') :
    decide (ret ≠ 0) = (d file.str).isSome ∧ Carries ⟨raid', w'.disks⟩ (Function.update d file.str none) ∧
      w.Keeps w' ∧ (raid' = st.raid ∨ TableChange st.raid raid') ∧ raid'.totalBlocks = st.raid.totalBlocks := by
  rcases delFile_eq st.raid file with ⟨heq, hno⟩ | ⟨s, heq, hname, hs⟩
  · rw [heq] at hrun
    obtain ⟨hret, rfl⟩ := exec_pure.mp hrun
    obtain ⟨rfl, rfl⟩ := Prod.mk.inj hret
    have habsent : d file.str = none := by
      by_cases hname : file 0 = 0
      · rw [(Name.str_eq_nil file).mpr hname, h.unnamed]
      · exact h.absent (hno hname)
    have hsame : Function.update d file.str none = d := by
      rw [Function.update_eq_self_iff, habsent]
    refine ⟨by rw [habsent]; rfl, ?_, .refl _, Or.inl rfl, rfl⟩
    rw [hsame, hdisks]
    exact h
  · rw [heq] at hrun
    obtain ⟨_, w₁, hupdate, hrun⟩ := exec_bind.mp hrun
    obtain ⟨hret, rfl⟩ := exec_pure.mp hrun
    obtain ⟨rfl, rfl⟩ := Prod.mk.inj hret
    obtain ⟨bytes, hbytes, _⟩ := h.found hname hs
    obtain ⟨hkeeps, hr⟩ := (changes_tableDel h.sound h.headed hname hs).rewritten hπ hidle hdisks hupdate
    exact ⟨by rw [hbytes]; rfl, h.deleted hz.small hname hs hr rfl, hkeeps,
      Or.inr (.del s (findFile_live hname hs)), rfl⟩

theorem Carries.rmRun {files : List Name} {st : RaidState n} {d : Directory} {w w' : World} {ok : List Bool}
    {raid' : NvmeRaid n} (h : Carries st d) (hn : n ≤ maxDisks) (hz : Sized st.raid) (hidle : w.flights = 0)
    (hdisks : w.disks = st.disks) (hrun : Runs flawless (rmRun st.raid files) w (ok, raid') w') :
    ok = (d.remove (files.map Name.str)).1 ∧ Carries ⟨raid', w'.disks⟩ (d.remove (files.map Name.str)).2 ∧
      w.Keeps w' ∧ Kin st.raid raid' := by
  induction files generalizing st d w ok with
  | nil =>
    obtain ⟨heq, rfl⟩ := exec_pure.mp hrun
    obtain ⟨rfl, rfl⟩ := Prod.mk.inj heq
    exact ⟨rfl, by rw [hdisks]; exact h, .refl _, .refl _⟩
  | cons file files ih =>
    obtain ⟨⟨ret, raid₁⟩, w₁, hdel, hrest⟩ := exec_bind.mp hrun
    obtain ⟨⟨rets, raid₂⟩, w₂, hrm, hrest⟩ := exec_bind.mp hrest
    obtain ⟨heq, rfl⟩ := exec_pure.mp hrest
    obtain ⟨rfl, rfl⟩ := Prod.mk.inj heq
    obtain ⟨hret, hnext, hkeeps, hchange, htotal⟩ := h.delFile ⟨id, id⟩ hz hidle hdisks hdel
    have hkin : Kin st.raid raid₁ := by
      rcases hchange with rfl | hchange
      · exact .refl _
      · exact ⟨hchange.ns_eq, htotal, hchange.counted hn⟩
    obtain ⟨hrets, hlast, hkeeps', hkin'⟩ := ih hnext (hz.of_total htotal) (hkeeps.idle hidle) rfl hrm
    refine ⟨?_, hlast, hkeeps.trans hkeeps', hkin.trans hkin'⟩
    rw [hret, hrets]
    rfl

end PcapReplay
