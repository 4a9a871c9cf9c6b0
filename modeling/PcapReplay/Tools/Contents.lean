import PcapReplay.Fs.Space
import PcapReplay.Tools.Directory
import PcapReplay.Tools.Mounted
import PcapReplay.Tools.Uncounted

/-! When the table of a raid and its disks hold a directory. -/

namespace PcapReplay
open Interaction Dma Prog
variable {n : ℕ} [NeZero n]

structure Contents (st : RaidState n) (s : Slot n) (bytes : List UInt8) : Prop where
  length : bytes.length = fileBlocks st.raid s * 512
  small : fileBlocks st.raid s < 2 ^ 32
  blocks : ∀ k < fileBlocks st.raid s, ∀ a : Fin sectorLength,
    st.block ((st.raid.file s).startBlock + UInt64.ofNat k) a = bytes.getD (k * sectorLength + a) 0

structure Carries (st : RaidState n) (d : Directory) : Prop where
  sound : Sound st.raid
  headed : Headed st.raid
  synced : SyncedOn st.raid st.disks
  unnamed : d [] = none
  files : ∀ s, st.raid.Live s → ∃ bytes, d (st.raid.file s).name.str = some bytes ∧ Contents st s bytes
  named : ∀ key bytes, d key = some bytes → ∃ s, st.raid.Live s ∧ (st.raid.file s).name.str = key

/-- The tables give the number of files as well. -/
structure Holds (st : RaidState n) (d : Directory) : Prop extends Carries st d where
  counted : Counted st.raid

theorem Holds.inv {st : RaidState n} {d : Directory} (h : Holds st d) : TableInv st.raid :=
  h.sound.tableInv h.counted

structure Changes (raid raid' : NvmeRaid n) (s : Slot n) : Prop where
  sound : Sound raid'
  headed : Headed raid'
  ns : raid'.ns = raid.ns
  total : raid'.totalBlocks = raid.totalBlocks
  others : ∀ t, t ≠ s → raid'.file t = raid.file t

structure Rewritten (st st' : RaidState n) (s : Slot n) : Prop extends Changes st.raid st'.raid s where
  synced : SyncedOn st'.raid st'.disks
  kept : ∀ k a, sectorLength ≤ a → ¬ FileCells st'.raid s (.disk k) a → st'.disks k a = st.disks k a

section table
variable {raid : NvmeRaid n} {name : Name} {s : Slot n} (hi : Sound raid)
include hi

theorem Sound.length_toNat (s : Slot n) :
    ((raid.file s).endBlock - (raid.file s).startBlock).toNat = fileBlocks raid s :=
  UInt64.toNat_sub_of_le _ _ (UInt64.le_iff_toNat_le.mpr (hi.startBlock_le s))

theorem Sound.startBlock_add (s : Slot n) {k : ℕ} (hk : k < fileBlocks raid s) :
    ((raid.file s).startBlock + UInt64.ofNat k).toNat = (raid.file s).startBlock.toNat + k := by
  have hle := hi.startBlock_le s
  have hlt := (raid.file s).endBlock.toNat_lt
  unfold fileBlocks at hk
  exact toNat_add_ofNat (by omega)

omit [NeZero n] hi in
theorem NvmeRaid.Live.str_ne (h : raid.Live s) : (raid.file s).name.str ≠ [] := by
  rw [Ne, Name.str_eq_nil]
  exact h

theorem name_iff_of_found (hname : name 0 ≠ 0) (hs : findFile raid name = some s) (t : Slot n)
    (ht : raid.Live t) : (raid.file t).name.str = name.str ↔ t = s := by
  obtain ⟨hlive, hstr⟩ := (hi.findFile_eq_some_iff hname).mp hs
  constructor
  · intro h
    refine hi.unique ht hlive ?_
    rw [cmpFile_eq_zero, h, hstr]
  · rintro rfl
    exact hstr.symm

theorem name_iff_of_absent (habsent : findFile raid name = none) (hs : ¬ raid.Live s) (t : Slot n)
    (ht : raid.Live t) : (raid.file t).name.str = name.str ↔ t = s := by
  refine iff_of_false (fun hstr => ?_) fun hts => hs (hts ▸ ht)
  have hname : name 0 ≠ 0 := fun h0 => ht ((Name.head_eq_zero hstr).mpr h0)
  have hfound := (hi.findFile_eq_some_iff hname).mpr ⟨ht, hstr.symm⟩
  rw [habsent] at hfound
  exact absurd hfound (by simp)

end table

namespace Carries
variable {st st' : RaidState n} {d : Directory} {name : Name} {s : Slot n} (h : Carries st d)
include h

theorem found (hname : name 0 ≠ 0) (hs : findFile st.raid name = some s) :
    ∃ bytes, d name.str = some bytes ∧ Contents st s bytes := by
  obtain ⟨hlive, hstr⟩ := (h.sound.findFile_eq_some_iff hname).mp hs
  rw [hstr]
  exact h.files s hlive

theorem absent (hs : findFile st.raid name = none) : d name.str = none := by
  by_contra hne
  obtain ⟨bytes, hbytes⟩ := Option.ne_none_iff_exists'.mp hne
  obtain ⟨t, hlive, hstr⟩ := h.named _ _ hbytes
  have hname : name 0 ≠ 0 := fun h0 => hlive ((Name.head_eq_zero hstr).mpr h0)
  have hfound := (h.sound.findFile_eq_some_iff hname).mpr ⟨hlive, hstr.symm⟩
  rw [hs] at hfound
  exact absurd hfound (by simp)

end Carries

section spared
variable {st st' : RaidState n} {s t : Slot n} {bytes : List UInt8}

theorem Contents.fileSize_toNat (hi : Sound st.raid) (h : Contents st s bytes) :
    (fileSize (st.raid.file s)).toNat = bytes.length := by
  have hsmall := h.small
  rw [h.length, fileSize, UInt64.toNat_mul, hi.length_toNat, Nat.mod_eq_of_lt]
  · rfl
  · show fileBlocks st.raid s * 512 < 2 ^ 64
    omega

variable (hr : Rewritten st st' s) (h63 : st.raid.totalBlocks.toNat ≤ 2 ^ 63) (hts : t ≠ s)
include hr h63 hts

theorem Rewritten.block_eq {b : UInt64} (hb : st'.raid.Owns t b.toNat) : st'.block b = st.block b := by
  rw [← hr.total] at h63
  funext a
  have ha := a.isLt
  have hcell : ¬ FileCells st'.raid s (blockSpace st'.raid b.toNat) (blockByte n b.toNat + a) :=
    hr.sound.cells_apart hts hb ⟨by omega, by omega⟩
  have hfirst := hr.sound.sectorLength_le h63 hb
  unfold blockSpace at hcell
  unfold blockByte at hcell hfirst
  rw [UInt64.ofNat_toNat] at hcell hfirst
  unfold RaidState.block
  rw [hr.kept _ _ (by omega) hcell, hr.ns]

theorem Contents.spared (h : Contents st t bytes) : Contents st' t bytes := by
  have hfile := hr.others t hts
  have hblocks : fileBlocks st'.raid t = fileBlocks st.raid t := by
    unfold fileBlocks
    rw [hfile]
  refine ⟨by rw [hblocks, h.length], by rw [hblocks]; exact h.small, fun k hk a => ?_⟩
  have hstart := hr.sound.startBlock_add t hk
  have hle := hr.sound.startBlock_le t
  have hlength : k < (st'.raid.file t).endBlock.toNat - (st'.raid.file t).startBlock.toNat := hk
  have howns : st'.raid.Owns t ((st'.raid.file t).startBlock + UInt64.ofNat k).toNat := by
    rw [hstart]
    exact ⟨by omega, by omega⟩
  rw [hr.block_eq h63 hts howns, hfile]
  exact h.blocks k (hblocks ▸ hk) a

end spared

theorem Carries.rewritten {st st' : RaidState n} {d : Directory} {s : Slot n} {key : Key}
    {value : Option (List UInt8)} (h : Carries st d) (hr : Rewritten st st' s)
    (h63 : st.raid.totalBlocks.toNat ≤ 2 ^ 63)
    (hown : ∀ t, st.raid.Live t → ((st.raid.file t).name.str = key ↔ t = s)) (hkey : key = [] → value = none)
    (hnone : value = none → ¬ st'.raid.Live s)
    (hsome : ∀ bytes, value = some bytes →
      st'.raid.Live s ∧ (st'.raid.file s).name.str = key ∧ Contents st' s bytes) :
    Carries st' (Function.update d key value) := by
  have hlive : ∀ t, t ≠ s → (st'.raid.Live t ↔ st.raid.Live t) := by
    intro t hts
    unfold NvmeRaid.Live
    rw [hr.others t hts]
  refine ⟨hr.sound, hr.headed, hr.synced, ?_, fun t ht => ?_, fun key' bytes hd => ?_⟩
  · by_cases hnil : [] = key
    · rw [← hnil, Function.update_self]
      exact hkey hnil.symm
    · rw [Function.update_of_ne hnil, h.unnamed]
  · by_cases hts : t = s
    · subst hts
      cases value with
      | none => exact absurd ht (hnone rfl)
      | some bytes =>
        obtain ⟨_, hstr, hcontents⟩ := hsome bytes rfl
        exact ⟨bytes, by rw [hstr, Function.update_self], hcontents⟩
    · have hold := (hlive t hts).mp ht
      have hne : (st.raid.file t).name.str ≠ key := fun hstr => hts ((hown t hold).mp hstr)
      obtain ⟨bytes, hd, hcontents⟩ := h.files t hold
      rw [hr.others t hts, Function.update_of_ne hne]
      exact ⟨bytes, hd, hcontents.spared hr h63 hts⟩
  · by_cases hkey' : key' = key
    · subst hkey'
      rw [Function.update_self] at hd
      obtain ⟨hnew, hstr, _⟩ := hsome bytes hd
      exact ⟨s, hnew, hstr⟩
    · rw [Function.update_of_ne hkey'] at hd
      obtain ⟨t, hold, hstr⟩ := h.named key' bytes hd
      have hts : t ≠ s := fun hts => hkey' (hstr.symm.trans ((hown t hold).mpr hts))
      exact ⟨t, (hlive t hts).mpr hold, by rw [hr.others t hts, hstr]⟩

end PcapReplay
