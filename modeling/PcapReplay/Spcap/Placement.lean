import PcapReplay.Fs.Invariant
import PcapReplay.Spcap.Stored

/-! The sectors an import writes, against the logical blocks of its file. -/

namespace PcapReplay
open Striping Spcap
variable {n : ℕ} [NeZero n]

theorem initDisk_val (n : ℕ) [NeZero n] (startBlock : UInt64) (i : ℕ)
    (h : startBlock.toNat + i * 256 < 2 ^ 64) :
    (initDisk startBlock i : Fin n).val = member 256 n (startBlock.toNat + i * 256) ∧
      (initLba n startBlock i).toNat =
        (offset 256 n (startBlock.toNat + i * 256) + 256) % 2 ^ 64 := by
  have hsum : (startBlock + UInt64.ofNat (i * superSectorNum)).toNat = startBlock.toNat + i * 256 :=
    toNat_add_ofNat h
  exact ⟨by rw [initDisk, superGetdisk_val, hsum], by rw [initLba, superGetdisklba_toNat, hsum]⟩

theorem covers_of_le {startBlock : UInt64} (h : startBlock.toNat + n * 256 ≤ 2 ^ 64) :
    Covers n startBlock := by
  have hinj : Function.Injective fun i : Fin n => (initDisk startBlock i : Fin n) := by
    intro i j hij
    have hi := i.isLt
    have hj := j.isLt
    have hval := congrArg Fin.val hij
    simp only [(initDisk_val n startBlock i (by omega)).1,
      (initDisk_val n startBlock j (by omega)).1] at hval
    exact Fin.ext (member_add_units_injOn (by decide) startBlock.toNat hi hj hval)
  intro d
  obtain ⟨i, hi⟩ := Finite.injective_iff_surjective.mp hinj d
  exact ⟨i, i.isLt, hi⟩

def Aligned (n : ℕ) (startBlock : UInt64) : Prop :=
  256 ∣ startBlock.toNat ∨ n = 1 ∧ startBlock.toNat + 512 ≤ 2 ^ 64

theorem member_offset_rotation {startBlock : UInt64} (h : Aligned n startBlock) {j : ℕ} (i k : ℕ)
    (hj : j < 256) :
    member 256 n (startBlock.toNat + (k * n + i) * 256 + j) =
        member 256 n (startBlock.toNat + i * 256) ∧
      offset 256 n (startBlock.toNat + (k * n + i) * 256 + j) =
        offset 256 n (startBlock.toNat + i * 256) + k * 256 + j := by
  have hsplit : startBlock.toNat + (k * n + i) * 256 + j =
      startBlock.toNat + i * 256 + j + k * n * 256 := by ring
  rw [hsplit, member_add_rotations (by decide), offset_add_rotations (by decide) (Nat.pos_of_neZero n)]
  rcases h with ⟨m, hm⟩ | ⟨rfl, _⟩
  · have hunit : (startBlock.toNat + i * 256) % 256 + j < 256 := by omega
    rw [member_add hunit, offset_add hunit]
    exact ⟨rfl, by omega⟩
  · simp only [member_one, offset_one, true_and]
    omega

theorem first_placed {startBlock : UInt64} (h : Aligned n startBlock) {i j : ℕ} (hi : i < n)
    (hlt : startBlock.toNat + i * 256 + 256 ≤ 2 ^ 64) (hj : j < 256) :
    ∃ b : UInt64, b.toNat = startBlock.toNat + i * 256 + j ∧
      superGetdisk n b = initDisk startBlock i ∧
      (superGetdisklba n b).toNat = (initLba n startBlock i).toNat + j := by
  have hb : (UInt64.ofNat (startBlock.toNat + i * 256 + j)).toNat = startBlock.toNat + i * 256 + j := by
    apply UInt64.toNat_ofNat_of_lt'
    simp only [UInt64.size]
    omega
  obtain ⟨hdisk, hlba⟩ := initDisk_val n startBlock i (by omega)
  obtain ⟨hm, ho⟩ := member_offset_rotation h i 0 hj
  rw [Nat.zero_mul, Nat.zero_add] at hm ho
  refine ⟨_, hb, ?_, ?_⟩
  · apply Fin.ext
    rw [superGetdisk_val, hb, hm, hdisk]
  · rw [superGetdisklba_toNat, hb, ho, hlba]
    rcases h with ⟨m, hm⟩ | ⟨rfl, h512⟩
    · -- a multiple of 256 leaves room for `j` below the wrap
      have hmod : offset 256 n (startBlock.toNat + i * 256) % 256 =
          (startBlock.toNat + i * 256) % 256 := offset_mod _
      omega
    · obtain rfl : i = 0 := by omega
      rw [offset_one]
      omega

def Placed (startBlock : UInt64) (sp : Spcap n) : Prop :=
  ∀ i < n, ∀ k w, (sp.wrote.filter fun w => w.disk = initDisk startBlock i)[k]? = some w →
    ∀ j < superSectorNum, ∃ b : UInt64,
      b.toNat = startBlock.toNat + (k * n + i) * superSectorNum + j ∧
      superGetdisk n b = w.disk ∧ (superGetdisklba n b).toNat = w.lba.toNat + j

theorem dirty_nil (d : Fin n) : (captured [] d).length % superSectorLength ≠ 0 := by
  simp [captured, streams, zeroHeader, headerLength]

theorem fit_nil : (captured [] : Streams n).Fit := fun d => by
  simp [captured, streams, zeroHeader, headerLength]

def ImportsPlaced (n : ℕ) [NeZero n] (file : MetaFile) : Prop :=
  ∀ pkts : List Packet, (captured pkts : Streams n).Fit →
    ∃ sp : Spcap n, importPcap (fun _ => true) file pkts = some sp ∧ Placed file.startBlock sp

theorem ImportsPlaced.aligned {file : MetaFile} (h : ImportsPlaced n file) :
    file.startBlock.toNat + n * superSectorNum ≤ 2 ^ 64 ∧ Aligned n file.startBlock := by
  have hn : 0 < n := Nat.pos_of_neZero n
  obtain ⟨sp, himport, hplaced⟩ := h [] fit_nil
  obtain ⟨hc, _, hi⟩ := importPcap_some himport
  obtain ⟨data, hw, _⟩ := hi.wrote_eq
  -- without packets every disk stores a supersector
  have hfirst : ∀ i < n, ∀ j < 256, ∃ b : UInt64, b.toNat = file.startBlock.toNat + i * 256 + j ∧
      superGetdisk n b = initDisk file.startBlock i ∧
      (superGetdisklba n b).toNat = (initLba n file.startBlock i).toNat + j := by
    intro i hi j hj
    have hp := hplaced i hi 0
    rw [Imported.filter_wrote hw, if_pos (dirty_nil _)] at hp
    have := hp _ rfl j hj
    rwa [Nat.zero_mul, Nat.zero_add, superSectorNum_eq, cursors_eq hc hi] at this
  have hle : file.startBlock.toNat + n * 256 ≤ 2 ^ 64 := by
    obtain ⟨b, hb, _⟩ := hfirst (n - 1) (by omega) 255 (by omega)
    have := b.toNat_lt
    omega
  refine ⟨hle, ?_⟩
  by_contra hna
  simp only [Aligned, not_or, not_and] at hna
  obtain ⟨hdvd, hone⟩ := hna
  have hn1 : n = 1 := by
    obtain ⟨b, hb, hdisk, _⟩ := hfirst 0 hn (256 - file.startBlock.toNat % 256) (by omega)
    have hval := congrArg Fin.val hdisk
    rw [superGetdisk_val, hb, (initDisk_val n file.startBlock 0 (by omega)).1, Nat.zero_mul,
      Nat.add_zero] at hval
    exact eq_one_of_member_next (by decide) (by omega) hval
  have h512 := hone hn1
  obtain ⟨b, _, _, hlast⟩ := hfirst 0 hn 255 (by omega)
  have := (superGetdisklba n b).toNat_lt
  rw [hlast, (initDisk_val n file.startBlock 0 (by omega)).2, hn1, offset_one] at this
  rw [hn1] at hle
  omega

theorem importsPlaced_of_aligned {file : MetaFile}
    (hle : file.startBlock.toNat + n * superSectorNum ≤ 2 ^ 64) (ha : Aligned n file.startBlock) :
    ImportsPlaced n file := by
  intro pkts hfit
  rw [superSectorNum_eq] at hle
  have hc := covers_of_le hle
  obtain ⟨sp, he, hi⟩ := (importPcap_covered hc pkts).1 hfit
  obtain ⟨data, hw, _⟩ := hi.wrote_eq
  refine ⟨sp, he, fun i hin k w hk j hj => ?_⟩
  rw [Imported.filter_wrote hw] at hk
  split_ifs at hk
  · obtain ⟨rfl, rfl⟩ : k = 0 ∧ _ = w := by
      cases k with
      | zero => exact ⟨rfl, Option.some.inj hk⟩
      | succ k => simp at hk
    have hi256 : i * 256 + 256 ≤ n * 256 := by omega
    have := first_placed ha hin (by omega) hj
    rwa [Nat.zero_mul, Nat.zero_add, superSectorNum_eq, cursors_eq hc hin]
  · simp at hk

theorem importsPlaced_iff (file : MetaFile) :
    ImportsPlaced n file ↔
      file.startBlock.toNat + n * superSectorNum ≤ 2 ^ 64 ∧ Aligned n file.startBlock :=
  ⟨ImportsPlaced.aligned, fun h => importsPlaced_of_aligned h.1 h.2⟩

theorem importsPlaced_two_disks :
    ImportsPlaced 2 { name := fun _ => 65, startBlock := 512, endBlock := 512 } :=
  (importsPlaced_iff _).mpr ⟨by decide, Or.inl (by decide)⟩

theorem unaligned_import_misplaced :
    ∃ raid : NvmeRaid 2, Reachable (attached fun _ => 1024) raid ∧
      ¬ ImportsPlaced 2
        { name := fun _ => 66, startBlock := rightFreeBlock raid, endBlock := rightFreeBlock raid } := by
  refine ⟨oneFileRaid 2 1, oneFileRaid_reachable 2 1, fun h => ?_⟩
  have hstart : rightFreeBlock (oneFileRaid 2 1) = 513 := by decide +kernel
  rw [hstart] at h
  rcases h.aligned.2 with hdvd | ⟨hone, _⟩
  · exact absurd hdvd (by decide)
  · exact absurd hone (by decide)

end PcapReplay
