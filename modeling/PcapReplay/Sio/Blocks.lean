import PcapReplay.Sio.Commands

/-! A raid transfer against the transfers of its single blocks. -/

namespace PcapReplay
open Striping Dma
variable {n : ℕ} [NeZero n] (dir : Dir) (raid : NvmeRaid n) (payload : Ptr)

def blockCmd (lba b : ℕ) : Command :=
  sioCmd dir raid (payload.add ((b - lba) * sectorLength)) (UInt64.ofNat b) 1

def blockXfers (lba count : ℕ) : List (Xfer Space) :=
  (List.range' lba count).map fun b => (blockCmd dir raid payload lba b).xfer

theorem toNat_ofNat_of_lt {b : ℕ} (hb : b < 2 ^ 64) : (UInt64.ofNat b).toNat = b := by
  rw [UInt64.toNat_ofNat', Nat.mod_eq_of_lt hb]

variable (n) in
theorem superGetdisk_add {b i : ℕ} (hi : b % 256 + i < 256) (hb : b + i < 2 ^ 64) :
    superGetdisk n (UInt64.ofNat (b + i)) = superGetdisk n (UInt64.ofNat b) ∧
      (superGetdisklba n (UInt64.ofNat (b + i))).toNat =
        (superGetdisklba n (UInt64.ofNat b)).toNat + i := by
  have hbi : (UInt64.ofNat (b + i)).toNat = b + i := toNat_ofNat_of_lt (by omega)
  have hb' : (UInt64.ofNat b).toNat = b := toNat_ofNat_of_lt (by omega)
  constructor
  · apply Fin.ext
    rw [superGetdisk_val, superGetdisk_val, hbi, hb', member_add hi]
  · -- the sum wraps for all blocks of the supersector or for none
    have hmod : offset 256 n b % 256 = b % 256 := offset_mod b
    rw [superGetdisklba_toNat, superGetdisklba_toNat, hbi, hb', offset_add hi]
    omega

theorem sioCmd_parts {b count : ℕ} (hcount : b % 256 + count ≤ 256) (hb : b + count ≤ 2 ^ 64) :
    (sioCmd dir raid payload (UInt64.ofNat b) (UInt32.ofNat count)).xfer.parts sectorLength =
      (List.range count).map fun i =>
        (sioCmd dir raid (payload.add (i * sectorLength)) (UInt64.ofNat (b + i)) 1).xfer := by
  have hc : (UInt32.ofNat count).toNat = count := UInt32.toNat_ofNat_of_lt' (by
    simp only [UInt32.size]
    omega)
  have hlen : (sioCmd dir raid payload (UInt64.ofNat b) (UInt32.ofNat count)).xfer.len =
      count * sectorLength := by
    cases dir <;> simp only [Command.xfer, sioCmd, hc]
  unfold Xfer.parts
  rw [hlen, Nat.mul_div_cancel _ (by decide)]
  apply List.map_congr_left
  intro i hi
  rw [List.mem_range] at hi
  obtain ⟨hdisk, hlba⟩ := superGetdisk_add n (show b % 256 + i < 256 by omega) (by omega)
  cases dir <;>
    simp only [Command.xfer, sioCmd, Xfer.part, Ptr.add, hdisk, hlba, Nat.add_mul, UInt32.toNat_one,
      Nat.one_mul]

theorem pieces_parts (lba count : ℕ) (hlt : lba + count ≤ 2 ^ 64) :
    ((pieces dir raid payload lba count).map Command.xfer).flatMap (Xfer.parts sectorLength) =
      blockXfers dir raid payload lba count := by
  have hcover : (split superSectorNum lba count).flatMap (fun p => List.range' p.1 p.2) =
      List.range' lba count := split_cover (by decide) lba count
  unfold blockXfers pieces
  rw [← hcover, List.map_flatMap, List.map_map, List.flatMap_map]
  apply List.flatMap_congr
  intro p hp
  obtain ⟨_, hunit, hle, hend⟩ := split_piece (by decide) hp
  simp only [superSectorNum_eq] at hunit
  simp only [Function.comp]
  rw [sioCmd_parts dir raid _ hunit (by omega), List.range'_eq_map_range, List.map_map]
  apply List.map_congr_left
  intro i _
  simp only [Function.comp, blockCmd, Ptr.add_add, ← Nat.add_mul]
  congr 4
  omega

theorem Command.dvd_len_map (cs : List Command) : ∀ x ∈ cs.map Command.xfer, sectorLength ∣ x.len := by
  intro x hx
  obtain ⟨⟨d, _⟩, _, rfl⟩ := List.mem_map.mp hx
  cases d
  · exact Nat.dvd_mul_left _ _
  · exact Nat.dvd_mul_left _ _

def blockSpace (b : ℕ) : Space := .disk (raid.ns (superGetdisk n (UInt64.ofNat b)))

variable (n) in
def blockByte (b : ℕ) : ℕ := (superGetdisklba n (UInt64.ofNat b)).toNat * sectorLength

theorem blockCmd_read (lba b : ℕ) :
    (blockCmd .read raid payload lba b).xfer =
      { src := blockSpace raid b, srcOff := blockByte n b
        dst := .mem payload.buf, dstOff := payload.off + (b - lba) * sectorLength
        len := sectorLength } := by
  simp only [blockCmd, sioCmd, Command.xfer, UInt32.toNat_one, Nat.one_mul, Ptr.add, blockSpace, blockByte]

theorem blockCmd_write (lba b : ℕ) :
    (blockCmd .write raid payload lba b).xfer =
      { src := .mem payload.buf, srcOff := payload.off + (b - lba) * sectorLength
        dst := blockSpace raid b, dstOff := blockByte n b
        len := sectorLength } := by
  simp only [blockCmd, sioCmd, Command.xfer, UInt32.toNat_one, Nat.one_mul, Ptr.add, blockSpace, blockByte]

theorem blockCmd_add {lba k b : ℕ} (hb : lba + k ≤ b) :
    blockCmd dir raid (payload.add (k * sectorLength)) (lba + k) b = blockCmd dir raid payload lba b := by
  unfold blockCmd
  rw [Ptr.add_add, ← Nat.add_mul]
  congr 3
  omega

theorem blockCmd_len (lba b : ℕ) : (blockCmd dir raid payload lba b).xfer.len = sectorLength := by
  cases dir
  · rw [blockCmd_read]
  · rw [blockCmd_write]

variable {raid payload}

theorem block_eq_of_cell {b c a : ℕ} (hb : b < 2 ^ 64) (hc : c < 2 ^ 64)
    (hs : blockSpace raid b = blockSpace raid c)
    (hab : blockByte n b ≤ a ∧ a < blockByte n b + sectorLength)
    (hac : blockByte n c ≤ a ∧ a < blockByte n c + sectorLength) : b = c := by
  simp only [blockByte, sectorLength_eq] at hab hac
  have hdisk : superGetdisk n (UInt64.ofNat b) = superGetdisk n (UInt64.ofNat c) :=
    raid.ns.injective (Space.disk.inj hs)
  have hlba : superGetdisklba n (UInt64.ofNat b) = superGetdisklba n (UInt64.ofNat c) :=
    UInt64.toNat_inj.mp (by omega)
  have h := congrArg UInt64.toNat (eq_of_superGetdisk n hdisk hlba)
  rwa [toNat_ofNat_of_lt hb, toNat_ofNat_of_lt hc] at h

variable {dir}

theorem block_eq_of_writes {lba b c : ℕ} (hb : lba ≤ b ∧ b < 2 ^ 64) (hc : lba ≤ c ∧ c < 2 ^ 64)
    {s : Space} {a : ℕ} (hwb : (blockCmd dir raid payload lba b).xfer.Writes s a)
    (hwc : (blockCmd dir raid payload lba c).xfer.Writes s a) : b = c := by
  obtain ⟨hsb, hab⟩ := hwb
  obtain ⟨hsc, hac⟩ := hwc
  cases dir with
  | read =>
    simp only [blockCmd_read, sectorLength_eq] at hab hac
    omega
  | write =>
    rw [blockCmd_write] at hsb hab hsc hac
    exact block_eq_of_cell hb.2 hc.2 (hsb.symm.trans hsc) hab hac

theorem not_writes_of_reads {lba b c : ℕ} {s : Space} {a : ℕ}
    (hr : (blockCmd dir raid payload lba b).xfer.Reads s a) :
    ¬ (blockCmd dir raid payload lba c).xfer.Writes s a := by
  rintro ⟨hw, _⟩
  obtain ⟨rfl, _⟩ := hr
  cases dir <;> exact absurd hw (by simp [blockCmd_read, blockCmd_write, blockSpace])

variable (dir raid payload)

theorem mem_blockXfers {lba count : ℕ} {x : Xfer Space} :
    x ∈ blockXfers dir raid payload lba count ↔
      ∃ b, (lba ≤ b ∧ b < lba + count) ∧ (blockCmd dir raid payload lba b).xfer = x := by
  simp only [blockXfers, List.mem_map, List.mem_range'_1]

theorem blockXfers_nodup {lba count : ℕ} (hlt : lba + count ≤ 2 ^ 64) :
    (blockXfers dir raid payload lba count).Nodup := by
  apply List.Nodup.map_on _ List.nodup_range'
  intro b hb c hc h
  rw [List.mem_range'_1] at hb hc
  have hlen : 0 < (blockCmd dir raid payload lba b).xfer.len := by
    rw [blockCmd_len]
    decide
  obtain ⟨s, a, hw⟩ : ∃ s a, (blockCmd dir raid payload lba b).xfer.Writes s a :=
    ⟨_, _, Xfer.writes_add _ hlen⟩
  exact block_eq_of_writes ⟨hb.1, by omega⟩ ⟨hc.1, by omega⟩ hw (by rwa [← h])

section batch
variable (own : Space → ℕ → Prop) {lba count : ℕ}

theorem blockXfers_batch (hlt : lba + count ≤ 2 ^ 64)
    (hown : ∀ b, lba ≤ b → b < lba + count → ∀ s a, (blockCmd dir raid payload lba b).xfer.Reads s a ∨
      (blockCmd dir raid payload lba b).xfer.Writes s a → own s a) :
    Bus.Batch own (blockXfers dir raid payload lba count : Multiset (Xfer Space)) := by
  constructor <;> simp only [Multiset.mem_coe, mem_blockXfers]
  · rintro _ ⟨b, hb, rfl⟩ s a hr
    exact hown b hb.1 hb.2 s a (Or.inl hr)
  · rintro _ ⟨b, hb, rfl⟩ s a hw
    exact hown b hb.1 hb.2 s a (Or.inr hw)
  · rintro _ ⟨b, _, rfl⟩ _ ⟨c, _, rfl⟩ s a
    exact not_writes_of_reads
  · rintro _ ⟨b, hb, rfl⟩ _ ⟨c, hc, rfl⟩ hne s a hwb hwc
    apply hne
    rw [block_eq_of_writes ⟨hb.1, by omega⟩ ⟨hc.1, by omega⟩ hwb hwc]

theorem pieces_batch (hlt : lba + count ≤ 2 ^ 64)
    (hown : ∀ b, lba ≤ b → b < lba + count → ∀ s a, (blockCmd dir raid payload lba b).xfer.Reads s a ∨
      (blockCmd dir raid payload lba b).xfer.Writes s a → own s a) :
    Bus.Batch own ((pieces dir raid payload lba count).map Command.xfer : Multiset (Xfer Space)) := by
  have hparts := pieces_parts dir raid payload lba count hlt
  apply Bus.Batch.of_parts (Command.dvd_len_map _)
  · rw [hparts]
    exact blockXfers_nodup dir raid payload hlt
  · rw [hparts]
    exact blockXfers_batch dir raid payload own hlt hown

end batch

end PcapReplay
