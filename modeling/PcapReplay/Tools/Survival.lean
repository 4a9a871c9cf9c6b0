import PcapReplay.Tools.Stopped

/-! The files that outlive a stopped tool. -/

namespace PcapReplay
open Interaction Dma Prog
variable {n : ℕ} [NeZero n]

def mixed (raid raid' : NvmeRaid n) (new : Fin n → Prop) [DecidablePred new] : NvmeRaid n :=
  { raid with msector := fun i => if new i then raid'.msector i else raid.msector i }

section mixed
variable {raid raid' : NvmeRaid n} {s : Slot n} {new : Fin n → Prop} [DecidablePred new]

theorem Changes.headed_mixed (hm : Headed raid) (hc : Changes raid raid' s) : Headed
    (mixed raid raid' new) := by
  have hboth : ∀ i, (mixed raid raid' new).msector i = raid'.msector i ∨
      (mixed raid raid' new).msector i = raid.msector i := fun i => ite_eq_or_eq _ _ _
  refine ⟨fun i => ?_, fun i => ?_, fun i => ?_⟩
  · rcases hboth i with h | h
    · rw [h, hc.headed.magic]
    · rw [h, hm.magic]
  · rcases hboth i with h | h
    · rw [h, hc.headed.ids]
    · rw [h, hm.ids]
  · rcases hboth i with h | h
    · rw [h, hc.headed.totals]
    · rw [h, hm.totals]

omit [NeZero n] in
theorem file_mixed (t : Slot n) :
    (mixed raid raid' new).file t = if new t.1 then raid'.file t else raid.file t := by
  show (if new t.1 then raid'.msector t.1 else raid.msector t.1).content t.2 = _
  split_ifs
  · rfl
  · rfl

/-- One slot only can differ, so the mixture has the files of the one or of the other. -/
theorem Changes.file_mixed_of (hc : Changes raid raid' s) :
    (¬ new s.1 ∧ ∀ t, (mixed raid raid' new).file t = raid.file t) ∨
      (new s.1 ∧ ∀ t, (mixed raid raid' new).file t = raid'.file t) := by
  by_cases hs : new s.1
  · refine Or.inr ⟨hs, fun t => ?_⟩
    rw [file_mixed]
    split_ifs with ht
    · rfl
    · exact (hc.others t fun hts => ht (hts ▸ hs)).symm
  · refine Or.inl ⟨hs, fun t => ?_⟩
    rw [file_mixed]
    split_ifs with ht
    · exact hc.others t fun hts => hs (hts ▸ ht)
    · rfl

omit [NeZero n] in
theorem OnlyTable.synced_mixed {m : Store Space UInt8} {w : World} (hns : raid'.ns = raid.ns)
    (hs : SyncedOn raid fun k => m (.disk k)) (ht : OnlyTable raid' m w)
    (hnew : ∀ i, new i ↔ ∀ a < sectorLength, w.disks (raid.ns i) a = (raid'.msector i).toBytes a) :
    SyncedOn (mixed raid raid' new) w.disks := by
  intro i a ha
  show w.disks (raid.ns i) a = (if new i then raid'.msector i else raid.msector i).toBytes a
  split_ifs with hi
  · exact (hnew i).mp hi a ha
  · rcases ht.table (raid.ns i) with hold | ⟨j, hj, hj'⟩
    · exact (hold a ha).trans (hs i a ha)
    · rw [hns] at hj
      obtain rfl := raid.ns.injective hj
      exact absurd ((hnew i).mpr hj') hi

end mixed

section stored
variable {st st' : RaidState n} {d : Directory} {s : Slot n} {bytes : List UInt8}
  (hs : Sound st'.raid) (h63 : st'.raid.totalBlocks.toNat ≤ 2 ^ 63) (hns : st'.raid.ns = st.raid.ns)
  (hdata : ∀ k a, sectorLength ≤ a → st'.disks k a = st.disks k a)
include hs h63 hns hdata

theorem Contents.of_same (hfile : st'.raid.file s = st.raid.file s) (h : Contents st s bytes) :
    Contents st' s bytes := by
  have hblocks : fileBlocks st'.raid s = fileBlocks st.raid s := by
    unfold fileBlocks
    rw [hfile]
  refine ⟨by rw [hblocks, h.length], by rw [hblocks]; exact h.small, fun k hk a => ?_⟩
  have hstart := hs.startBlock_add s hk
  have hle := hs.startBlock_le s
  have hlength : k < (st'.raid.file s).endBlock.toNat - (st'.raid.file s).startBlock.toNat := hk
  have howns : st'.raid.Owns s ((st'.raid.file s).startBlock + UInt64.ofNat k).toNat := by
    rw [hstart]
    exact ⟨by omega, by omega⟩
  have hfirst := hs.sectorLength_le h63 howns
  unfold blockByte at hfirst
  rw [UInt64.ofNat_toNat] at hfirst
  rw [← h.blocks k (hblocks ▸ hk) a, ← hfile]
  unfold RaidState.block
  rw [hdata _ _ (by omega), hns]

theorem Carries.of_same (h : Carries st d) (hm : Headed st'.raid) (hsync : SyncedOn st'.raid st'.disks)
    (hfile : ∀ t, st'.raid.file t = st.raid.file t) : Carries st' d where
  sound := hs
  headed := hm
  synced := hsync
  unnamed := h.unnamed
  files t ht := by
    have hlive : st.raid.Live t := by rwa [NvmeRaid.Live, hfile] at ht
    obtain ⟨bytes, hbytes, hcontents⟩ := h.files t hlive
    exact ⟨bytes, by rw [hfile, hbytes], hcontents.of_same hs h63 hns hdata (hfile t)⟩
  named key bytes hd := by
    obtain ⟨t, hlive, hkey⟩ := h.named key bytes hd
    exact ⟨t, by rwa [NvmeRaid.Live, hfile], by rw [hfile, hkey]⟩

end stored

theorem Carries.updateRaid_cut {st : RaidState n} {d : Directory} {raid' : NvmeRaid n} {s : Slot n}
    {π : Policy}
    {w w' : World} (h : Carries st d) (h63 : st.raid.totalBlocks.toNat ≤ 2 ^ 63) (hc : Changes st.raid raid' s)
    (hidle : w.flights = 0) (hdisks : w.disks = st.disks) (hcut : Cut (World.step π) (updateRaid raid') w w') :
    w'.flights = 0 ∧ ∃ raid₁, raid₁.ns = st.raid.ns ∧ raid₁.totalBlocks = st.raid.totalBlocks ∧
      (Carries ⟨raid₁, w'.disks⟩ d ∨
        Rewritten st ⟨raid₁, w'.disks⟩ s ∧ ∀ t, raid₁.file t = raid'.file t) := by
  classical
  have htable : OnlyTable raid' w.bus.store w' := (updateRaid_ensures raid').cut
    (I := OnlyTable raid' w.bus.store) hcut (OnlyTable.start raid' hidle) fun _ _ _ _ => OnlyTable.step
  obtain ⟨new, hnew⟩ : ∃ new : Fin n → Prop,
      ∀ i, new i ↔ ∀ a < sectorLength, w'.disks (st.raid.ns i) a = (raid'.msector i).toBytes a :=
    ⟨_, fun _ => Iff.rfl⟩
  have hsynced : SyncedOn st.raid fun k => w.bus.store (.disk k) := by
    have hs := h.synced
    rwa [← hdisks] at hs
  have hsync : SyncedOn (mixed st.raid raid' new) w'.disks := htable.synced_mixed hc.ns hsynced hnew
  have hhead : Headed (mixed st.raid raid' new) := hc.headed_mixed h.headed
  have hdata : ∀ k a, sectorLength ≤ a → w'.disks k a = st.disks k a := by
    intro k a ha
    rw [← hdisks]
    exact htable.data k a ha
  refine ⟨htable.idle, mixed st.raid raid' new, rfl, rfl, ?_⟩
  rcases @Changes.file_mixed_of n _ _ _ _ new _ hc with ⟨_, hfile⟩ | ⟨_, hfile⟩
  · left
    have hs : Sound (mixed st.raid raid' new) := h.sound.congr hfile rfl
    exact @Carries.of_same n _ st ⟨mixed st.raid raid' new, w'.disks⟩ d hs h63 rfl hdata h hhead hsync hfile
  · right
    have hs : Sound (mixed st.raid raid' new) := hc.sound.congr hfile hc.total.symm
    refine ⟨⟨⟨hs, hhead, rfl, rfl, fun t ht => (hfile t).trans (hc.others t ht)⟩, hsync, fun k a ha _ => ?_⟩, hfile⟩
    exact hdata k a ha

theorem exists_contents {st : RaidState n} {s : Slot n} (h32 : fileBlocks st.raid s < 2 ^ 32) :
    ∃ bytes, Contents st s bytes := by
  let byte : ℕ → UInt8 := fun i =>
    st.block ((st.raid.file s).startBlock + UInt64.ofNat (i / 512)) ⟨i % 512, Nat.mod_lt _ (by decide)⟩
  have hlength : ((List.range (fileBlocks st.raid s * 512)).map byte).length = fileBlocks st.raid s * 512 := by
    rw [List.length_map, List.length_range]
  refine ⟨(List.range (fileBlocks st.raid s * 512)).map byte, hlength, h32, fun k hk a => ?_⟩
  have ha : (a : ℕ) < 512 := a.isLt
  have hi : k * 512 + a < fileBlocks st.raid s * 512 := by omega
  have hdiv : (k * 512 + a) / 512 = k := by omega
  have hmod : (k * 512 + a) % 512 = a := by omega
  show _ = ((List.range (fileBlocks st.raid s * 512)).map byte).getD (k * 512 + a) 0
  rw [List.getD_eq_getElem _ _ (by rwa [hlength])]
  simp only [List.getElem_map, List.getElem_range, byte, hdiv, hmod]

section copies
variable {π : Policy} {st : RaidState n} {d : Directory} {raid' raid₁ : NvmeRaid n} {name : Name}
  {originSize : UInt64} {s : Slot n} {w w' : World} {map : Ptr} {rounds : ℕ} {disks : Disks}

theorem Carries.garbled (h : Carries st d) (hz : Sized st.raid) (hr : Rewritten st ⟨raid₁, disks⟩ s)
    (hown : ∀ t, st.raid.Live t → ((st.raid.file t).name.str = name.str ↔ t = s)) (hname : name 0 ≠ 0)
    (hstr : (raid₁.file s).name.str = name.str) (h32 : fileBlocks raid₁ s < 2 ^ 32) :
    ∃ garbage : List UInt8, garbage.length = fileBlocks raid₁ s * 512 ∧
      Carries ⟨raid₁, disks⟩ (Function.update d name.str (some garbage)) := by
  have hne : name.str ≠ [] := fun hnil => hname ((Name.str_eq_nil name).mp hnil)
  have hlive : raid₁.Live s := fun h0 => hname ((Name.head_eq_zero hstr).mp h0)
  obtain ⟨garbage, hgarbage⟩ := @exists_contents n _ ⟨raid₁, disks⟩ s h32
  refine ⟨garbage, hgarbage.length, h.rewritten hr hz.small hown (fun hnil => absurd hnil hne)
    (fun hnone => absurd hnone (by simp)) fun bytes hb => ?_⟩
  exact ⟨hlive, hstr, Option.some.inj hb ▸ hgarbage⟩

theorem Obtained.fileBlocks_eq (hobt : Obtained st.raid name originSize s raid') (hi : Sound st.raid)
    (hn : n ≤ maxDisks) (hz : Sized st.raid) (hfile : ∀ t, raid₁.file t = raid'.file t) :
    fileBlocks raid₁ s = (originBlocks originSize).toNat := by
  rw [← (hobt.prepared hi hn hz.reserved).fileBlocks_eq]
  unfold fileBlocks
  rw [hfile]

theorem Carries.overwritten (h : Carries st d) (hz : Sized st.raid) (hn : n ≤ maxDisks)
    (h32 : (originBlocks originSize).toNat < 2 ^ 32) {bytes : List UInt8}
    (hlength : bytes.length = originSize.toNat) (hobt : Obtained st.raid name originSize s raid')
    (hr : Rewritten st ⟨raid₁, disks⟩ s) (hfile : ∀ t, raid₁.file t = raid'.file t) :
    ∃ d', d.Interrupted (.cpIn name.str bytes) d' ∧ Carries ⟨raid₁, disks⟩ d' := by
  have hblocks := hobt.fileBlocks_eq h.sound hn hz hfile
  have hstr : (raid₁.file s).name.str = name.str := by rw [hfile, hobt.str_eq]
  by_cases hname : name 0 = 0
  · have hnil := (Name.str_eq_nil name).mpr hname
    have hdead : ¬ raid₁.Live s := not_not.mpr ((Name.head_eq_zero hstr).mpr hname)
    have hsame : Function.update d name.str none = d := by
      rw [Function.update_eq_self_iff, hnil, h.unnamed]
    refine ⟨d, .untouched d _, ?_⟩
    rw [← hsame]
    exact h.rewritten hr hz.small (hobt.name_iff h.sound) (fun _ => rfl) (fun _ => hdead) nofun
  · have hne : name.str ≠ [] := fun hnil => hname ((Name.str_eq_nil name).mp hnil)
    obtain ⟨garbage, hgarbage, hstored⟩ :=
      h.garbled hz hr (hobt.name_iff h.sound) hname hstr (hblocks.trans_lt h32)
    refine ⟨Function.update d name.str (some garbage), .store hne (fun old hold => ?_) ?_, hstored⟩
    · exact hlength.trans_le (hobt.fits h hname hold)
    · rw [length_pad, hlength, ← originBlocks_toNat, hgarbage, hblocks]

theorem Carries.copyIn_cut (hπ : π.Smooth) (h : Carries st d) (hn : n ≤ maxDisks) (hz : Sized st.raid)
    (hidle : w.flights = 0) (hdisks : w.disks = st.disks) (h32 : (originBlocks originSize).toNat < 2 ^ 32)
    {bytes : List UInt8} (hlength : bytes.length = originSize.toNat)
    (hcut : Cut (World.step π) (PcapReplay.copyIn st.raid rounds name map originSize) w w')
    (hleft : w'.Leaves disks) :
    ∃ d' raid₁, d.Interrupted (.cpIn name.str bytes) d' ∧ Carries ⟨raid₁, disks⟩ d' ∧
      raid₁.ns = st.raid.ns ∧ raid₁.totalBlocks = st.raid.totalBlocks := by
  have huntouched : disks = st.disks → ∃ d' raid₁, d.Interrupted (.cpIn name.str bytes) d' ∧
      Carries ⟨raid₁, disks⟩ d' ∧ raid₁.ns = st.raid.ns ∧ raid₁.totalBlocks = st.raid.totalBlocks := by
    intro hsame
    exact ⟨d, st.raid, .untouched d _, by rw [hsame]; exact h, rfl, rfl⟩
  rcases copyIn_eq st.raid rounds name map originSize with ⟨heq, _⟩ | ⟨heq, _⟩ | ⟨s, raid', hobt, heq⟩
  · rw [heq] at hcut
    obtain rfl := cut_pure.mp hcut
    exact huntouched ((hleft.of_idle hidle).trans hdisks)
  · rw [heq, cut_bind_pure] at hcut
    exact huntouched ((disks_of_cut (copyBlocks_none_mem rounds map originSize) hidle hcut hleft).trans hdisks)
  · rw [heq] at hcut
    have hchanges := hobt.changes h.sound h.headed hn hz.reserved
    rcases cut_bind.mp hcut with hcut | ⟨u, w₁, hupdate, hcut⟩
    · -- it was stopped while it wrote the tables
      obtain ⟨hidle', raid₁, hns, htotal, hold | ⟨hr, hfile⟩⟩ :=
        h.updateRaid_cut hz.small hchanges hidle hdisks hcut
      · rw [hleft.of_idle hidle']
        exact ⟨d, raid₁, .untouched d _, hold, hns, htotal⟩
      · rw [hleft.of_idle hidle']
        obtain ⟨d', hstep, hd'⟩ := h.overwritten hz hn h32 hlength hobt hr hfile
        exact ⟨d', raid₁, hstep, hd', hns, htotal⟩
    · rw [cut_bind_pure] at hcut
      obtain ⟨hkeeps, hr₁⟩ := hchanges.rewritten hπ hidle hdisks hupdate
      have hmem : ∀ buf a, FileCells raid' s (.mem buf) a := fun buf _ => Or.inl ⟨buf, rfl⟩
      have hconf := (hobt.prepared h.sound hn hz.reserved).copyBlocks_ensures.cut
        (I := fun v => Bus.Confined (FileCells raid' s) w₁.bus.store v.bus) hcut
        (Bus.confined_of_idle (hkeeps.idle hidle)) fun _ _ _ _ => World.step_confined hmem
      have hr : Rewritten st ⟨raid', disks⟩ s := hr₁.data hz fun k a hcell => hleft.of_confined hconf hcell
      obtain ⟨d', hstep, hd'⟩ := h.overwritten hz hn h32 hlength hobt hr fun _ => rfl
      exact ⟨d', raid', hstep, hd', hchanges.ns, hchanges.total⟩

theorem Carries.rmRun_cut (hπ : π.Smooth) {files : List Name} (h : Carries st d) (hz : Sized st.raid)
    (hidle : w.flights = 0) (hdisks : w.disks = st.disks)
    (hcut : Cut (World.step π) (PcapReplay.rmRun st.raid files) w w') :
    w'.flights = 0 ∧ ∃ k raid₁, Carries ⟨raid₁, w'.disks⟩ (d.remove ((files.map Name.str).take k)).2 ∧
      raid₁.ns = st.raid.ns ∧ raid₁.totalBlocks = st.raid.totalBlocks := by
  induction files generalizing st d w with
  | nil =>
    obtain rfl := cut_pure.mp hcut
    exact ⟨hidle, 0, st.raid, by rw [hdisks]; exact h, rfl, rfl⟩
  | cons file files ih =>
    rcases cut_bind.mp hcut with hcut | ⟨⟨ret, raid₁⟩, w₁, hdel, hcut⟩
    · rcases delFile_eq st.raid file with ⟨heq, _⟩ | ⟨s, heq, hname, hs⟩
      · rw [heq] at hcut
        obtain rfl := cut_pure.mp hcut
        exact ⟨hidle, 0, st.raid, by rw [hdisks]; exact h, rfl, rfl⟩
      · rw [heq, cut_bind_pure] at hcut
        have hchanges := changes_tableDel h.sound h.headed hname hs
        obtain ⟨hidle', raid₁, hns, htotal, hold | ⟨hr, hfile⟩⟩ :=
          h.updateRaid_cut hz.small hchanges hidle hdisks hcut
        · exact ⟨hidle', 0, raid₁, hold, hns, htotal⟩
        · exact ⟨hidle', 1, raid₁, h.deleted hz.small hname hs hr (hfile s), hns, htotal⟩
    · obtain ⟨_, hnext, hkeeps, hchange, htotal⟩ := h.delFile hπ hz hidle hdisks hdel
      have hns : raid₁.ns = st.raid.ns := by
        rcases hchange with rfl | hchange
        · rfl
        · exact hchange.ns_eq
      have hcut' : Cut (World.step π) (PcapReplay.rmRun raid₁ files) w₁ w' := cut_bind_pure.mp hcut
      obtain ⟨hidle', k, raid₂, hstored, hns', htotal'⟩ :=
        ih hnext (hz.of_total htotal) (hkeeps.idle hidle) rfl hcut'
      exact ⟨hidle', k + 1, raid₂, hstored, hns'.trans hns, htotal'.trans htotal⟩

end copies

end PcapReplay
