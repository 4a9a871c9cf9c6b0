import PcapReplay.Tools.Capture
import PcapReplay.Tools.Histories

/-! Imports of captures that are stopped, or that break off, or whose supersectors are not written whole. -/

namespace PcapReplay
open Interaction Dma Prog Spcap
variable {n : ℕ}

namespace World

def Within : SuperOp → Space → ℕ → Prop
  | .writeWait ns lba _, s, a =>
    s = .disk ns ∧ lba.toNat * sectorLength ≤ a ∧ a < lba.toNat * sectorLength + superSectorLength

/-- The machine on which a supersector may be written in any part, whatever the code says. -/
def tornStep (π : Policy) : (o : Op ⊕ SuperOp) → World → Sum.elim Ans SuperAns o → World → Prop
  | .inl o => step π o
  | .inr o => fun w _ w' => ∃ b m, Bus.Drift w.bus b ∧ (∀ s a, ¬ Within o s a → m s a = b.store s a) ∧
      w' = World.setStore { w with bus := b } m

end World

def Writes (raid : NvmeRaid n) (xs : List (SuperWrite n)) (o : Op ⊕ SuperOp) : Prop :=
  ∃ x ∈ xs, o = .inr (.writeWait (raid.ns x.disk) x.lba x.data)

theorem writeSupers_ensures (raid : NvmeRaid n) (xs : List (SuperWrite n)) :
    Ensures (Writes raid xs) (fun _ => True) (writeSupers raid xs) := by
  induction xs with
  | nil => exact ensures_pure trivial
  | cons x xs ih =>
    have hfirst : Writes raid (x :: xs) (.inr (.writeWait (raid.ns x.disk) x.lba x.data)) :=
      ⟨x, List.mem_cons_self, rfl⟩
    have hrest : Ensures (Writes raid (x :: xs)) (fun _ => True) (writeSupers raid xs) :=
      ih.mono (fun _ ⟨y, hy, ho⟩ => ⟨y, List.mem_cons_of_mem x hy, ho⟩) fun _ h => h
    exact (ensures_ask hfirst).bind fun _ _ => hrest

theorem writeSupers_cut {π : Policy} {raid : NvmeRaid n} {xs : List (SuperWrite n)} {w w' : World}
    (hidle : w.flights = 0) (h : Cut (World.tornStep π) (writeSupers raid xs) w w') :
    w'.flights = 0 ∧ ∀ k a, (∀ x ∈ xs, ¬ x.Takes raid k a) → w'.disks k a = w.disks k a := by
  apply (writeSupers_ensures raid xs).cut (I := fun v => v.flights = 0 ∧
    ∀ k a, (∀ x ∈ xs, ¬ x.Takes raid k a) → v.disks k a = w.disks k a) h ⟨hidle, fun _ _ _ => rfl⟩
  rintro _ v _ v' ⟨x, hx, rfl⟩ ⟨b, m, hdrift, hm, rfl⟩ ⟨hquiet, hkept⟩
  obtain rfl := hdrift.evolves.of_idle hquiet
  refine ⟨hquiet, fun k a hk => ?_⟩
  rw [← hkept k a hk]
  exact hm (.disk k) a fun hin => hk x hx ⟨Space.disk.inj hin.1, hin.2⟩

variable [NeZero n]

theorem Carries.elsewhere {raid : NvmeRaid n} {disks disks' : Disks} {d : Directory}
    (h : Carries ⟨raid, disks⟩ d)
    (htables : ∀ k a, a < sectorLength → disks' k a = disks k a)
    (hfiles : ∀ t, raid.Live t → ∀ k a, FileCells raid t (.disk k) a → disks' k a = disks k a) :
    Carries ⟨raid, disks'⟩ d := by
  refine ⟨h.sound, h.headed, fun i a ha => ?_, h.unnamed, fun t ht => ?_, h.named⟩
  · exact (htables _ _ ha).trans (h.synced i a ha)
  · obtain ⟨bytes, hbytes, hcontents⟩ := h.files t ht
    refine ⟨bytes, hbytes, hcontents.length, hcontents.small, fun k hk a => ?_⟩
    have hstart : ((raid.file t).startBlock + UInt64.ofNat k).toNat = (raid.file t).startBlock.toNat + k :=
      h.sound.startBlock_add t hk
    have hlength : k < (raid.file t).endBlock.toNat - (raid.file t).startBlock.toNat := hk
    rw [← hcontents.blocks k hk a]
    apply hfiles t ht
    rw [fileCells_iff]
    refine ⟨((raid.file t).startBlock + UInt64.ofNat k).toNat, ?_, ?_, ?_, ?_⟩
    · rw [hstart]
      exact ⟨Nat.le_add_right _ _, by omega⟩
    · rw [blockSpace, UInt64.ofNat_toNat]
    · rw [blockByte, UInt64.ofNat_toNat]
      exact Nat.le_add_right _ _
    · rw [blockByte, UInt64.ofNat_toNat]
      exact Nat.add_lt_add_left a.isLt _

theorem Changes.cells_apart {raid raid' : NvmeRaid n} {s t : Slot n} (hc : Changes raid raid' s) (hts : t ≠ s)
    {k a : ℕ} (hcell : FileCells raid t (.disk k) a) : ¬ FileCells raid' s (.disk k) a := by
  obtain ⟨b, hb, hspace, hin⟩ := fileCells_iff.mp hcell
  have hlt := (raid.file t).endBlock.toNat_lt
  have htoNat : (UInt64.ofNat b).toNat = b := toNat_ofNat_of_lt (hb.2.trans hlt)
  have howns : raid'.Owns t (UInt64.ofNat b).toNat := by
    rw [htoNat, NvmeRaid.Owns, hc.others t hts]
    exact hb
  have hapart := hc.sound.cells_apart hts howns (by rwa [htoNat])
  unfold blockSpace at hapart
  rw [htoNat, hc.ns] at hapart
  rwa [hspace]

/-- What an import leaves that does not come to its end: a new file has the size of the capture in the
system or that of one rotation, and may have any bytes. -/
inductive Directory.Unfinished (n : ℕ) (d : Directory) (name : Key) (size : ℕ) : Directory → Prop
  | untouched : Unfinished n d name size d
  | begun {garbage : List UInt8} (hname : name ≠ []) (hnew : d name = none)
      (hlength : garbage.length = (size + 511) / 512 * 512 ∨ garbage.length = n * superSectorLength) :
      Unfinished n d name size (Function.update d name (some garbage))

section unfinished
variable {π : Policy} {st : RaidState n} {d : Directory} {raid₁ : NvmeRaid n} {name : Name}
  {originSize : UInt64}
  {s : Slot n} {disks : Disks} {pkts : List Packet}

theorem Carries.begun (h : Carries st d) (hn : n ≤ maxDisks) (hz : Sized st.raid)
    (h32 : (originBlocks originSize).toNat < 2 ^ 32) (ha : Admits st.raid name (originBlocks originSize))
    (hs : freeSlot st.raid = some s) {own : ℕ → ℕ → Prop}
    (hhead : ∀ k a, own k a → sectorLength ≤ a)
    (hown : ∀ t, st.raid.Live t → ∀ k a, own k a → ¬ FileCells st.raid t (.disk k) a)
    (hns : raid₁.ns = st.raid.ns) (htotal : raid₁.totalBlocks = st.raid.totalBlocks) (hm : Headed raid₁)
    (hfile : ∀ t, raid₁.file t = (tableAdd st.raid s name (originBlocks originSize)).file t)
    (hsync : SyncedOn raid₁ disks)
    (hkept : ∀ k a, sectorLength ≤ a → ¬ own k a → disks k a = st.disks k a) :
    ∃ garbage : List UInt8, garbage.length = (originSize.toNat + 511) / 512 * 512 ∧
      Carries ⟨raid₁, disks⟩ (Function.update d name.str (some garbage)) := by
  classical
  have hobt : Obtained st.raid name originSize s (tableAdd st.raid s name (originBlocks originSize)) := .add ha hs
  have hchanges := hobt.changes h.sound h.headed hn hz.reserved
  have hblocks := hobt.fileBlocks_eq h.sound hn hz hfile
  -- the old files do not notice what is written there
  have hfree : Carries ⟨st.raid, fun k a => if own k a then disks k a else st.disks k a⟩ d := by
    apply h.elsewhere
    · exact fun k a hlt => if_neg fun hin => absurd (hhead k a hin) (by omega)
    · exact fun t ht k a hcell => if_neg fun hin => hown t ht k a hin hcell
  have hr : Rewritten ⟨st.raid, fun k a => if own k a then disks k a else st.disks k a⟩ ⟨raid₁, disks⟩ s := by
    refine ⟨⟨hchanges.sound.congr hfile ?_, hm, hns, htotal, fun t ht => ?_⟩, hsync, fun k a hle _ => ?_⟩
    · exact htotal.trans hchanges.total.symm
    · exact (hfile t).trans (hchanges.others t ht)
    · show disks k a = if own k a then disks k a else st.disks k a
      split_ifs with hin
      · rfl
      · exact hkept k a hle hin
  obtain ⟨garbage, hlength, hstored⟩ := hfree.garbled hz hr (hobt.name_iff h.sound) ha.named
    (by rw [hfile, hobt.str_eq]) (hblocks.trans_lt h32)
  refine ⟨garbage, ?_, hstored⟩
  rw [hlength, hblocks, originBlocks_toNat]

theorem copyCapture_cut_cases {zmalloc : ℕ → Bool} {capture : Option (List Packet)} {w w' : World}
    (hcut : Cut (World.tornStep π) (copyCapture st.raid zmalloc name originSize capture) w w') :
    w' = w ∨ ∃ s, Admits st.raid name (originBlocks originSize) ∧ freeSlot st.raid = some s ∧
      (Cut (World.step π) (updateRaid (tableAdd st.raid s name (originBlocks originSize))) w w' ∨
        ∃ w₁, Runs π (updateRaid (tableAdd st.raid s name (originBlocks originSize))) w () w₁ ∧
          (w' = w₁ ∨ ∃ pkts sp, capture = some pkts ∧ Covers n (rightFreeBlock st.raid) ∧
            Imported ((tableAdd st.raid s name (originBlocks originSize)).file s) pkts sp ∧
            ∃ w₂, Cut (World.tornStep π)
                (writeSupers (tableAdd st.raid s name (originBlocks originSize)) sp.wrote) w₁ w₂ ∧
              (w' = w₂ ∨
                Cut (World.step π) (updateRaid (tableAdd st.raid s name (importBlocks n pkts))) w₂ w'))) := by
  cases hfind : findFile st.raid name with
  | some t =>
    have hstop : copyTarget st.raid name originSize true = pure (.stop, st.raid) := by
      unfold copyTarget
      simp only [hfind]
      split_ifs <;> rfl
    unfold copyCapture at hcut
    rw [hstop] at hcut
    exact Or.inl (cut_pure.mp hcut)
  | none =>
    unfold copyCapture at hcut
    rw [copyTarget_new hfind] at hcut
    rcases addFile_eq st.raid name (originBlocks originSize) with ⟨heq, _⟩ | ⟨s, heq, ha, hfree⟩
    · rw [heq] at hcut
      exact Or.inl (cut_pure.mp hcut)
    · refine Or.inr ⟨s, ha, hfree, ?_⟩
      rw [heq, bind_assoc] at hcut
      rcases cut_bind.mp hcut with hcut | ⟨⟨target, raid₁⟩, w₁, htarget, hcut⟩
      · rw [cut_inl] at hcut
        rcases cut_bind.mp hcut with hcut | ⟨_, w₁, hupdate, hcut⟩
        · exact Or.inl hcut
        · exact Or.inr ⟨w₁, hupdate, Or.inl (cut_pure.mp hcut)⟩
      · rw [exec_inl] at htarget
        obtain ⟨_, w₁, hupdate, hlast⟩ := exec_bind.mp htarget
        obtain ⟨heq, rfl⟩ := exec_pure.mp hlast
        obtain ⟨rfl, rfl⟩ := Prod.mk.inj heq
        refine Or.inr ⟨_, hupdate, ?_⟩
        cases capture with
        | none => exact Or.inl (cut_pure.mp hcut)
        | some pkts =>
          simp only at hcut
          cases himport : (importPcap zmalloc ((tableAdd st.raid s name (originBlocks originSize)).file s) pkts :
            Option (Spcap n)) with
          | none =>
            rw [himport] at hcut
            exact Or.inl (cut_pure.mp hcut)
          | some sp =>
            rw [himport] at hcut
            obtain ⟨hcovers, _, himported⟩ := importPcap_some (importPcap_granted himport)
            rw [file_tableAdd_self] at hcovers
            refine Or.inr ⟨pkts, sp, rfl, hcovers, himported, ?_⟩
            rcases cut_bind.mp hcut with hcut | ⟨_, w₂, hwrites, hcut⟩
            · exact ⟨w', hcut, Or.inl rfl⟩
            · refine ⟨w₂, hwrites.cut, Or.inr ?_⟩
              rw [cut_bind_pure, cut_inl, setFile_imported himported] at hcut
              exact hcut

theorem Carries.resized (h : Carries st d) (hn : n ≤ maxDisks) (hz : Sized st.raid)
    (hfit : CaptureFits st.raid pkts)
    (hobt : Obtained st.raid name originSize s (tableAdd st.raid s name (originBlocks originSize)))
    (hobt₂ : Obtained st.raid name (UInt64.ofNat (n * superSectorLength)) s
      (tableAdd st.raid s name (importBlocks n pkts))) (hname : name 0 ≠ 0) {disks' : Disks} {garbage : List UInt8}
    (hstored : Carries ⟨tableAdd st.raid s name (originBlocks originSize), disks⟩
      (Function.update d name.str (some garbage)))
    (hr : Rewritten ⟨tableAdd st.raid s name (originBlocks originSize), disks⟩ ⟨raid₁, disks'⟩ s)
    (hfile : ∀ t, raid₁.file t = (tableAdd st.raid s name (importBlocks n pkts)).file t) :
    ∃ garbage' : List UInt8, garbage'.length = n * superSectorLength ∧
      Carries ⟨raid₁, disks'⟩ (Function.update d name.str (some garbage')) := by
  have hchanges := hobt.changes h.sound h.headed hn hz.reserved
  have hown : ∀ t, (tableAdd st.raid s name (originBlocks originSize)).Live t →
      (((tableAdd st.raid s name (originBlocks originSize)).file t).name.str = name.str ↔ t = s) := by
    intro t ht
    by_cases hts : t = s
    · subst hts
      exact iff_of_true hobt.str_eq rfl
    · rw [NvmeRaid.Live, hchanges.others t hts] at ht
      rw [hchanges.others t hts]
      exact hobt.name_iff h.sound t ht
  have hblocks : fileBlocks raid₁ s = n * 256 := by
    rw [← @CaptureFits.fileBlocks_eq n _ st.raid name pkts s hfit hn hz]
    unfold fileBlocks
    rw [hfile]
  have h32 : n * 256 < 2 ^ 32 := by
    simp only [maxDisks] at hn
    omega
  obtain ⟨garbage', hlength, hstored'⟩ := hstored.garbled (hz.of_total hchanges.total) hr hown hname
    (by rw [hfile, hobt₂.str_eq]) (hblocks.trans_lt h32)
  rw [Function.update_idem] at hstored'
  refine ⟨garbage', ?_, hstored'⟩
  rw [hlength, hblocks, superSectorLength_eq]
  omega

theorem Carries.copyCapture_cut (hπ : π.Smooth) (h : Carries st d) (hn : n ≤ maxDisks) (hz : Sized st.raid)
    {zmalloc : ℕ → Bool} {capture : Option (List Packet)} {w w' : World} (hidle : w.flights = 0)
    (hdisks : w.disks = st.disks) (h32 : (originBlocks originSize).toNat < 2 ^ 32)
    (hfits : ∀ pkts, capture = some pkts → findFile st.raid name = none → CaptureFits st.raid pkts)
    (hcut : Cut (World.tornStep π) (PcapReplay.copyCapture st.raid zmalloc name originSize capture) w w') :
    w'.flights = 0 ∧ ∃ d' raid₁, d.Unfinished n name.str originSize.toNat d' ∧ Carries ⟨raid₁, w'.disks⟩ d' ∧
      raid₁.ns = st.raid.ns ∧ raid₁.totalBlocks = st.raid.totalBlocks := by
  rcases copyCapture_cut_cases hcut with rfl | ⟨s, ha, hs, hcut⟩
  · exact ⟨hidle, d, st.raid, .untouched, by rw [hdisks]; exact h, rfl, rfl⟩
  · have hobt : Obtained st.raid name originSize s (tableAdd st.raid s name (originBlocks originSize)) := .add ha hs
    have hchanges := hobt.changes h.sound h.headed hn hz.reserved
    have hne : name.str ≠ [] := fun hnil => ha.named ((Name.str_eq_nil name).mp hnil)
    have hnew : d name.str = none := h.absent ha.absent
    rcases hcut with hcut | ⟨w₁, hupdate, hcut⟩
    · -- it was stopped while it wrote the first tables
      obtain ⟨hidle', raid₁, hns, htotal, hold | ⟨hr, hfile⟩⟩ :=
        h.updateRaid_cut hz.small hchanges hidle hdisks hcut
      · exact ⟨hidle', d, raid₁, .untouched, hold, hns, htotal⟩
      · have hblocks := hobt.fileBlocks_eq h.sound hn hz hfile
        obtain ⟨garbage, hlength, hstored⟩ := h.garbled hz hr (hobt.name_iff h.sound) ha.named
          (by rw [hfile, hobt.str_eq]) (hblocks.trans_lt h32)
        rw [hblocks, originBlocks_toNat] at hlength
        exact ⟨hidle', _, raid₁, .begun hne hnew (Or.inl hlength), hstored, hns, htotal⟩
    · obtain ⟨hkeeps, hr₁⟩ := hchanges.rewritten hπ hidle hdisks hupdate
      have hrest₁ : ∀ k a, sectorLength ≤ a → w₁.disks k a = st.disks k a := by
        intro k a ha
        rw [← hdisks]
        exact (updateRaid_run hπ hidle hupdate).2.2 k a (Or.inr ha)
      have hidle₁ := hkeeps.idle hidle
      rcases hcut with rfl | ⟨pkts, sp, rfl, hc, hi, w₂, hwrites, hcut⟩
      · -- nothing of the capture has been written
        obtain ⟨garbage, hlength, hstored⟩ := @Carries.begun n _ st d _ name originSize s w'.disks h hn hz h32 ha hs
          (fun _ _ => False) (fun _ _ => False.elim) (fun _ _ _ _ => False.elim) hchanges.ns hchanges.total
          hchanges.headed (fun _ => rfl) hr₁.synced fun k a hle _ => hrest₁ k a hle
        exact ⟨hidle₁, _, _, .begun hne hnew (Or.inl hlength), hstored, hchanges.ns, hchanges.total⟩
      · have hfit := hfits pkts rfl ha.absent
        have hobt₂ := hfit.obtained hn ha hs
        have hchanges₂ := hobt₂.changes h.sound h.headed hn hz.reserved
        obtain ⟨hidle₂, hrest₂⟩ := writeSupers_cut hidle₁ hwrites
        let own : ℕ → ℕ → Prop := fun k a => ∃ x ∈ sp.wrote, x.Takes st.raid k a
        have hcells : ∀ k a, own k a → FileCells (tableAdd st.raid s name (importBlocks n pkts)) s (.disk k) a := by
          rintro k a ⟨x, hx, ht⟩
          exact hfit.takes_fileCells hi hc hn hz hx ht
        have hhead : ∀ k a, own k a → sectorLength ≤ a := by
          intro k a hin
          obtain ⟨b, hb, _, hle, _⟩ := fileCells_iff.mp (hcells k a hin)
          exact (hchanges₂.sound.sectorLength_le hz.small hb).trans hle
        have hown : ∀ t, st.raid.Live t → ∀ k a, own k a → ¬ FileCells st.raid t (.disk k) a := by
          intro t ht k a hin hcell
          have hts : t ≠ s := fun hts => freeSlot_dead hs (hts ▸ ht)
          exact hchanges₂.cells_apart hts hcell (hcells k a hin)
        have hsync : SyncedOn (tableAdd st.raid s name (originBlocks originSize)) w₂.disks := by
          intro i a ha
          rw [hrest₂ _ a fun x hx ht => absurd (hhead _ a ⟨x, hx, ht⟩) (by omega)]
          exact hr₁.synced i a ha
        obtain ⟨garbage, hlength, hstored⟩ := @Carries.begun n _ st d _ name originSize s w₂.disks h hn hz h32 ha hs
          own hhead hown hchanges.ns hchanges.total hchanges.headed (fun _ => rfl) hsync fun k a hle hout => by
            rw [hrest₂ k a fun x hx ht => hout ⟨x, hx, ht⟩, hrest₁ k a hle]
        rcases hcut with rfl | hcut
        · exact ⟨hidle₂, _, _, .begun hne hnew (Or.inl hlength), hstored, hchanges.ns, hchanges.total⟩
        · -- it was stopped while it wrote the last tables
          have hlast : Changes (tableAdd st.raid s name (originBlocks originSize))
              (tableAdd st.raid s name (importBlocks n pkts)) s :=
            ⟨hchanges₂.sound, hchanges₂.headed, rfl, rfl,
              fun t ht => (hchanges₂.others t ht).trans (hchanges.others t ht).symm⟩
          obtain ⟨hidle', raid₁, hns, htotal, hold | ⟨hr, hfile⟩⟩ :=
            hstored.updateRaid_cut hz.small hlast hidle₂ rfl hcut
          · exact ⟨hidle', _, raid₁, .begun hne hnew (Or.inl hlength), hold, hns, htotal⟩
          · obtain ⟨garbage', hlength', hstored'⟩ := h.resized hn hz hfit hobt hobt₂ ha.named hstored hr hfile
            exact ⟨hidle', _, raid₁, .begun hne hnew (Or.inr hlength'), hstored', hns, htotal⟩

end unfinished
end PcapReplay
