import PcapReplay.Spcap.Placement
import Mathlib.Data.Finset.Card

/-! When an import stays inside the blocks of the file it records. -/

namespace PcapReplay
open Striping Spcap
variable {n : ℕ} [NeZero n]

/-- The import comes to its end, and every sector it has written belongs to a block of the file. -/
def InFile (n : ℕ) [NeZero n] (file : MetaFile) (pkts : List Packet) : Prop :=
  ∃ sp : Spcap n, importPcap (fun _ => true) file pkts = some sp ∧
    ∀ w ∈ sp.wrote, ∀ j < superSectorNum, ∃ b : UInt64,
      file.startBlock ≤ b ∧ b < sp.file.endBlock ∧
      superGetdisk n b = w.disk ∧ (superGetdisklba n b).toNat = w.lba.toNat + j

def Rotated (n : ℕ) [NeZero n] (startBlock : UInt64) (ds : List (Fin n)) : Prop :=
  startBlock.toNat + ds.length * superSectorNum + superSectorNum ≤ 2 ^ 64 ∧
    (n = 1 ∨ superSectorNum ∣ startBlock.toNat ∧
      ∀ i < n, initDisk startBlock i ∈ ds ↔ i < ds.length)

theorem length_dirtyDisks_le (n : ℕ) [NeZero n] (pkts : List Packet) : (dirtyDisks n pkts).length ≤ n := by
  have h := List.length_filter_le
    (fun d : Fin n => decide ((captured pkts d).length % superSectorLength ≠ 0)) (List.finRange n)
  rwa [List.length_finRange] at h

theorem mem_iff_lt_length {startBlock : UInt64} (hc : Covers n startBlock) {ds : List (Fin n)}
    (hds : ds.Nodup) (hlt : ∀ i < n, initDisk startBlock i ∈ ds → i < ds.length) {i : ℕ}
    (hi : i < ds.length) : initDisk startBlock i ∈ ds := by
  have himage : ds.toFinset ⊆
      ((Finset.range n).filter fun i => initDisk startBlock i ∈ ds).image (initDisk startBlock) := by
    intro d hd
    obtain ⟨j, hj, rfl⟩ := hc d
    exact Finset.mem_image_of_mem _
      (Finset.mem_filter.mpr ⟨Finset.mem_range.mpr hj, List.mem_toFinset.mp hd⟩)
  have hsub : (Finset.range n).filter (fun i => initDisk startBlock i ∈ ds) ⊆
      Finset.range ds.length := by
    intro j hj
    obtain ⟨hjn, hmem⟩ := Finset.mem_filter.mp hj
    exact Finset.mem_range.mpr (hlt j (Finset.mem_range.mp hjn) hmem)
  have hcard : (Finset.range ds.length).card ≤
      ((Finset.range n).filter fun i => initDisk startBlock i ∈ ds).card := by
    calc (Finset.range ds.length).card = ds.toFinset.card := by
          rw [Finset.card_range, List.toFinset_card_of_nodup hds]
      _ ≤ _ := Finset.card_le_card himage
      _ ≤ _ := Finset.card_image_le
  have heq := Finset.eq_of_subset_of_card_le hsub hcard
  have hmem : i ∈ (Finset.range n).filter fun i => initDisk startBlock i ∈ ds := by
    rw [heq]
    exact Finset.mem_range.mpr hi
  exact (Finset.mem_filter.mp hmem).2

section sectors
variable {startBlock b : UInt64} {i k : ℕ}

theorem cursor_lt (hn : n ≤ maxDisks) (hk : k ≤ n) (hi : i < n) (hstart : startBlock ≤ b)
    (hend : b < startBlock + UInt64.ofNat (k * superSectorNum))
    (hdisk : superGetdisk n b = initDisk startBlock i)
    (hlba : superGetdisklba n b = initLba n startBlock i) :
    i < k ∧ startBlock.toNat + k * 256 < 2 ^ 64 := by
  have hb : b = startBlock + UInt64.ofNat (i * superSectorNum) := eq_of_superGetdisk n hdisk hlba
  have hs := startBlock.toNat_lt
  have h₁ := UInt64.le_iff_toNat_le.mp hstart
  have h₂ := UInt64.lt_iff_toNat_lt.mp hend
  rw [hb] at h₁ h₂
  simp only [UInt64.toNat_add, UInt64.toNat_ofNat', superSectorNum_eq, maxDisks] at h₁ h₂ hn
  omega

/-- From an unaligned start the last sector of a cursor is one of the next rotation. -/
theorem cursor_next (hn2 : 2 ≤ n) (hr : startBlock.toNat % 256 ≠ 0) (hik : i < k)
    (hlt : startBlock.toNat + k * 256 < 2 ^ 64)
    (hend : b < startBlock + UInt64.ofNat (k * superSectorNum))
    (hdisk : superGetdisk n b = initDisk startBlock i)
    (hlba : (superGetdisklba n b).toNat = (initLba n startBlock i).toNat + 255) : i + n ≤ k := by
  have hb := b.toNat_lt
  have hend' : b.toNat < startBlock.toNat + k * 256 := by
    have h := UInt64.lt_iff_toNat_lt.mp hend
    rw [UInt64.toNat_add, UInt64.toNat_ofNat', superSectorNum_eq] at h
    omega
  have hx : startBlock.toNat + i * 256 < 2 ^ 64 := by
    have := Nat.mul_le_mul_right 256 hik.le
    exact (Nat.add_le_add_left this _).trans_lt hlt
  obtain ⟨hd, hl⟩ := initDisk_val n startBlock i hx
  -- `y` is the block before the first one of the cursor, in the same unit
  obtain ⟨y, hy⟩ : ∃ y, startBlock.toNat + i * 256 = y + 1 :=
    Nat.exists_eq_succ_of_ne_zero (by omega)
  have hunit : y % 256 + 1 < 256 := by omega
  rw [hy] at hd hl hx
  have hmember : member 256 n b.toNat = member 256 n (y + 1 * n * 256) := by
    rw [← superGetdisk_val, hdisk, hd, member_add hunit, member_add_rotations (by decide)]
  have hoffset : offset 256 n b.toNat = offset 256 n (y + 1 * n * 256) := by
    have h₁ := offset_le_of_two_le 256 hn2 b.toNat
    have h₂ := offset_le_of_two_le 256 hn2 (y + 1)
    rw [superGetdisklba_toNat, hl, offset_add hunit] at hlba
    rw [offset_add hunit] at h₂
    rw [offset_add_rotations (by decide) (by omega)]
    omega
  have heq := eq_of_member_offset (by decide) hmember hoffset
  omega

end sectors

theorem InFile.sectors {file : MetaFile} {pkts : List Packet} (h : InFile n file pkts) :
    Covers n file.startBlock ∧ (captured pkts : Streams n).Fit ∧
      ∀ i < n, initDisk file.startBlock i ∈ dirtyDisks n pkts → ∀ j < 256, ∃ b : UInt64,
        file.startBlock ≤ b ∧
        b < file.startBlock + UInt64.ofNat ((dirtyDisks n pkts).length * superSectorNum) ∧
        superGetdisk n b = initDisk file.startBlock i ∧
        (superGetdisklba n b).toNat = (initLba n file.startBlock i).toNat + j := by
  obtain ⟨sp, himport, hin⟩ := h
  obtain ⟨hc, hfit, hi⟩ := importPcap_some himport
  obtain ⟨data, hw, _⟩ := hi.wrote_eq
  have hend : sp.file.endBlock =
      file.startBlock + UInt64.ofNat ((dirtyDisks n pkts).length * superSectorNum) := by
    rw [hi.file_eq]
    rfl
  refine ⟨hc, hfit, fun i hi hmem j hj => ?_⟩
  have := hin _ (by rw [hw]; exact List.mem_map_of_mem hmem) j hj
  rwa [hend, cursors_eq hc hi] at this

theorem InFile.rotated (hn : n ≤ maxDisks) {file : MetaFile} {pkts : List Packet}
    (h : InFile n file pkts) (hne : dirtyDisks n pkts ≠ []) :
    Rotated n file.startBlock (dirtyDisks n pkts) := by
  have hk := length_dirtyDisks_le n pkts
  have hkpos := List.length_pos_of_ne_nil hne
  obtain ⟨hc, _, hsector⟩ := h.sectors
  have hfirst : ∀ i < n, initDisk file.startBlock i ∈ dirtyDisks n pkts →
      i < (dirtyDisks n pkts).length ∧
        file.startBlock.toNat + (dirtyDisks n pkts).length * 256 < 2 ^ 64 := by
    intro i hi hmem
    obtain ⟨b, h₁, h₂, h₃, h₄⟩ := hsector i hi hmem 0 (by decide)
    exact cursor_lt hn hk hi h₁ h₂ h₃ (UInt64.toNat_inj.mp h₄)
  have hnodup : (dirtyDisks n pkts).Nodup := (List.nodup_finRange n).filter _
  have hsegment : ∀ i < n, initDisk file.startBlock i ∈ dirtyDisks n pkts ↔
      i < (dirtyDisks n pkts).length := fun i hi =>
    ⟨fun hmem => (hfirst i hi hmem).1,
      mem_iff_lt_length hc hnodup fun j hj hmem => (hfirst j hj hmem).1⟩
  have hzero := (hsegment 0 (by omega)).mpr hkpos
  have hlt := (hfirst 0 (by omega) hzero).2
  unfold Rotated
  rw [superSectorNum_eq]
  rcases Nat.lt_or_ge n 2 with hn1 | hn2
  · -- the only disk
    obtain ⟨b, _, _, _, hlba⟩ := hsector 0 (by omega) hzero 255 (by decide)
    have hb := (superGetdisklba n b).toNat_lt
    have hs : file.startBlock.toNat + 0 * 256 < 2 ^ 64 := by
      rw [Nat.zero_mul]
      exact file.startBlock.toNat_lt
    have hone : n = 1 := by omega
    rw [hlba, (initDisk_val n file.startBlock 0 hs).2, hone, offset_one] at hb
    exact ⟨by omega, Or.inl hone⟩
  · have haligned : file.startBlock.toNat % 256 = 0 := by
      by_contra hr
      have hall : ∀ i < n, i < (dirtyDisks n pkts).length → i + n ≤ (dirtyDisks n pkts).length := by
        intro i hi hik
        obtain ⟨b, _, h₂, h₃, h₄⟩ := hsector i hi ((hsegment i hi).mpr hik) 255 (by decide)
        exact cursor_next hn2 hr hik hlt h₂ h₃ h₄
      have h₀ := hall 0 (by omega) hkpos
      have h₁ := hall 1 (by omega) (by omega)
      omega
    exact ⟨by omega, Or.inr ⟨Nat.dvd_of_mod_eq_zero haligned, hsegment⟩⟩

theorem inFile_of_rotated {file : MetaFile} {pkts : List Packet} (hc : Covers n file.startBlock)
    (hfit : (captured pkts : Streams n).Fit)
    (h : dirtyDisks n pkts = [] ∨ Rotated n file.startBlock (dirtyDisks n pkts)) :
    InFile n file pkts := by
  obtain ⟨sp, he, hi⟩ := (importPcap_covered hc pkts).1 hfit
  obtain ⟨data, hw, _⟩ := hi.wrote_eq
  refine ⟨sp, he, fun w hmem j hj => ?_⟩
  rw [hw] at hmem
  obtain ⟨d, hd, rfl⟩ := List.mem_map.mp hmem
  obtain ⟨i, hin, rfl⟩ := hc d
  rcases h with hnil | ⟨hle, hrot⟩
  · simp [hnil] at hd
  · rw [superSectorNum_eq] at hle hrot hj
    have hik : i < (dirtyDisks n pkts).length := by
      rcases hrot with hone | ⟨_, hsegment⟩
      · have := List.length_pos_of_mem hd
        omega
      · exact (hsegment i hin).mp hd
    have hlt : file.startBlock.toNat + i * 256 + 256 ≤ 2 ^ 64 := by grind
    have haligned : Aligned n file.startBlock := by
      rcases hrot with hone | ⟨hdvd, _⟩
      · refine Or.inr ⟨hone, ?_⟩
        have := Nat.mul_le_mul_right 256 (List.length_pos_of_mem hd)
        omega
      · exact Or.inl hdvd
    obtain ⟨b, hb, hdisk, hlba⟩ := first_placed haligned hin hlt hj
    have hend : sp.file.endBlock.toNat =
        file.startBlock.toNat + (dirtyDisks n pkts).length * 256 := by
      rw [hi.file_eq]
      show (file.startBlock + UInt64.ofNat ((dirtyDisks n pkts).length * superSectorNum)).toNat = _
      rw [superSectorNum_eq, toNat_add_ofNat (by omega)]
    have hblocks := Nat.mul_le_mul_right 256 hik
    refine ⟨b, UInt64.le_iff_toNat_le.mpr (by omega), UInt64.lt_iff_toNat_lt.mpr ?_, hdisk, ?_⟩
    · rw [hend]
      omega
    · rw [hlba, cursors_eq hc hin]

theorem inFile_iff (hn : n ≤ maxDisks) (file : MetaFile) (pkts : List Packet) :
    InFile n file pkts ↔ Covers n file.startBlock ∧ (captured pkts : Streams n).Fit ∧
      (dirtyDisks n pkts = [] ∨ Rotated n file.startBlock (dirtyDisks n pkts)) := by
  constructor
  · intro h
    obtain ⟨hc, hfit, _⟩ := h.sectors
    exact ⟨hc, hfit, or_iff_not_imp_left.mpr (h.rotated hn)⟩
  · rintro ⟨hc, hfit, h⟩
    exact inFile_of_rotated hc hfit h

theorem dirtyDisks_nil : dirtyDisks n [] = List.finRange n :=
  List.filter_eq_self.mpr fun d _ => decide_eq_true (dirty_nil d)

def twoPackets : List Packet := [⟨60, 60, fun _ => 7⟩, ⟨90, 90, fun i => UInt8.ofNat i⟩]

theorem length_twoPackets : ∀ d : Fin 2, (captured twoPackets d).length < 200 := by decide +kernel

theorem fit_twoPackets : (captured twoPackets : Streams 2).Fit :=
  fun d => (length_twoPackets d).le.trans (by decide)

theorem dirtyDisks_twoPackets : dirtyDisks 2 twoPackets = List.finRange 2 := by
  apply List.filter_eq_self.mpr
  intro d _
  have hlt := length_twoPackets d
  rw [superSectorLength_eq, Nat.mod_eq_of_lt (by omega)]
  exact decide_eq_true (length_captured_pos twoPackets d).ne'

theorem inFile_two_disks :
    InFile 2 { name := fun _ => 65, startBlock := 1024, endBlock := 1024 } twoPackets := by
  refine (inFile_iff (by decide) _ _).mpr ⟨covers_of_le (by decide), fit_twoPackets, Or.inr ?_⟩
  rw [dirtyDisks_twoPackets]
  exact ⟨by decide, Or.inr ⟨by decide, fun i hi => iff_of_true (List.mem_finRange _) hi⟩⟩

/-- After a file of one block on two disks an import leaves its own blocks. -/
theorem unaligned_import_escapes :
    ∃ raid : NvmeRaid 2, Reachable (attached fun _ => 1024) raid ∧
      ¬ InFile 2
        { name := fun _ => 66, startBlock := rightFreeBlock raid, endBlock := rightFreeBlock raid } [] := by
  refine ⟨oneFileRaid 2 1, oneFileRaid_reachable 2 1, fun h => ?_⟩
  have hstart : rightFreeBlock (oneFileRaid 2 1) = 513 := by decide +kernel
  have hne : dirtyDisks 2 [] ≠ [] := by
    rw [dirtyDisks_nil]
    decide
  have hrot := (h.rotated (by decide) hne).2
  rw [hstart] at hrot
  rcases hrot with htwo | ⟨hdvd, _⟩
  · exact absurd htwo (by decide)
  · exact absurd hdvd (by decide)

end PcapReplay
