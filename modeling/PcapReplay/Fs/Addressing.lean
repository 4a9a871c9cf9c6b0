import PcapReplay.Fs.Types
import PcapReplay.Lib.Striping

/-! The utility functions of `fs.c` that place a logical block. -/

namespace PcapReplay
open Striping
variable (n : ℕ)

def superGetid (lba : UInt64) : UInt64 := lba / UInt64.ofNat superSectorNum

def superGetdisk [NeZero n] (lba : UInt64) : Fin n :=
  ⟨(superGetid lba).toNat % n, Nat.mod_lt _ (Nat.pos_of_neZero n)⟩

def superGetdisklba (lba : UInt64) : UInt64 :=
  (lba - (superGetid lba - UInt64.ofNat ((superGetid lba).toNat / n)) * UInt64.ofNat superSectorNum) +
    UInt64.ofNat superSectorNum

theorem superGetid_toNat (lba : UInt64) : (superGetid lba).toNat = lba.toNat / 256 := by
  simp [superGetid]

theorem superGetdisk_val [NeZero n] (lba : UInt64) : (superGetdisk n lba : ℕ) = member 256 n lba.toNat := by
  show (superGetid lba).toNat % n = _
  rw [superGetid_toNat, member]

theorem superGetdisklba_toNat (lba : UInt64) :
    (superGetdisklba n lba).toNat = (offset 256 n lba.toNat + 256) % 2 ^ 64 := by
  have hlt := lba.toNat_lt
  have hid := superGetid_toNat lba
  have hdiv : lba.toNat / 256 / n ≤ lba.toNat / 256 := Nat.div_le_self _ _
  have hquot : (UInt64.ofNat ((superGetid lba).toNat / n)).toNat = lba.toNat / 256 / n := by
    rw [hid, UInt64.toNat_ofNat_of_lt']
    simp only [UInt64.size]
    omega
  have hsub : (superGetid lba - UInt64.ofNat ((superGetid lba).toNat / n)).toNat =
      lba.toNat / 256 - lba.toNat / 256 / n := by
    rw [UInt64.toNat_sub_of_le _ _ (UInt64.le_iff_toNat_le.mpr (by omega)), hquot, hid]
  have hmul : ((superGetid lba - UInt64.ofNat ((superGetid lba).toNat / n)) *
      UInt64.ofNat superSectorNum).toNat = (lba.toNat / 256 - lba.toNat / 256 / n) * 256 := by
    rw [UInt64.toNat_mul, hsub, Nat.mod_eq_of_lt]
    · simp
    · simp
      omega
  rw [superGetdisklba, UInt64.toNat_add, UInt64.toNat_sub_of_le _ _ (UInt64.le_iff_toNat_le.mpr (by omega)),
    hmul, offset]
  congr 1
  simp only [superSectorNum_eq, UInt64.reduceOfNat, UInt64.reduceToNat]
  omega

theorem eq_of_superGetdisk [NeZero n] {a b : UInt64} (hd : superGetdisk n a = superGetdisk n b)
    (hlba : superGetdisklba n a = superGetdisklba n b) : a = b := by
  have ha := a.toNat_lt
  have hb := b.toNat_lt
  have hoa := offset_le 256 n a.toNat
  have hob := offset_le 256 n b.toNat
  have hl := congrArg UInt64.toNat hlba
  rw [superGetdisklba_toNat, superGetdisklba_toNat] at hl
  have hmember := congrArg Fin.val hd
  rw [superGetdisk_val, superGetdisk_val] at hmember
  exact UInt64.toNat_inj.mp (eq_of_member_offset (by decide) hmember (by omega))

def Striped (lba : UInt64) : Prop := lba.toNat ≤ 2 ^ 64 - 1 - superSectorNum

def placement [NeZero n] (lba : UInt64) : Fin n × UInt64 := (superGetdisk n lba, superGetdisklba n lba)

def blockAt (d s : ℕ) : ℕ := ((s / superSectorNum - 1) * n + d) * superSectorNum + s % superSectorNum

def dataArea : Set (Fin n × UInt64) :=
  {p | superSectorNum ≤ p.2.toNat ∧ blockAt n p.1 p.2.toNat ≤ 2 ^ 64 - 1 - superSectorNum}

/-- No step of `superGetdisklba` leaves the 64 bits. -/
structure ExactAt (lba : UInt64) : Prop where
  quotient : (superGetid lba).toNat / n ≤ (superGetid lba).toNat
  product : ((superGetid lba).toNat - (superGetid lba).toNat / n) * superSectorNum < 2 ^ 64
  difference : ((superGetid lba).toNat - (superGetid lba).toNat / n) * superSectorNum ≤ lba.toNat
  sum : lba.toNat - ((superGetid lba).toNat - (superGetid lba).toNat / n) * superSectorNum +
    superSectorNum < 2 ^ 64
  value : (superGetdisklba n lba).toNat =
    lba.toNat - ((superGetid lba).toNat - (superGetid lba).toNat / n) * superSectorNum + superSectorNum

section striped
variable {n} {lba : UInt64}

theorem Striped.superGetdisklba_toNat (h : Striped lba) :
    (superGetdisklba n lba).toNat = offset 256 n lba.toNat + 256 := by
  have hle := offset_le 256 n lba.toNat
  simp only [Striped, superSectorNum_eq] at h
  rw [PcapReplay.superGetdisklba_toNat, Nat.mod_eq_of_lt (by omega)]

theorem Striped.exactAt (h : Striped lba) : ExactAt n lba := by
  have hvalue := h.superGetdisklba_toNat (n := n)
  have hdiv : lba.toNat / 256 / n ≤ lba.toNat / 256 := Nat.div_le_self _ _
  simp only [Striped, superSectorNum_eq] at h
  rw [offset] at hvalue
  constructor <;> simp only [superGetid_toNat, superSectorNum_eq, hvalue]
  all_goals
    generalize lba.toNat / 256 / n = q at hdiv
    omega

theorem blockAt_eq {d s : ℕ} (hs : 256 ≤ s) : blockAt n d s = block 256 n d (s - 256) := by
  have hdiv : (s - 256) / 256 = s / 256 - 1 := by omega
  have hmod : (s - 256) % 256 = s % 256 := by omega
  rw [block, hdiv, hmod]
  rfl

variable [NeZero n]

theorem Striped.blockAt_placement (h : Striped lba) :
    blockAt n (placement n lba).1 (placement n lba).2.toNat = lba.toNat := by
  simp only [placement]
  rw [h.superGetdisklba_toNat, blockAt_eq (Nat.le_add_left _ _), Nat.add_sub_cancel, superGetdisk_val,
    block_member_offset (by decide)]

theorem Striped.placement_mem (h : Striped lba) : placement n lba ∈ dataArea n := by
  refine ⟨?_, ?_⟩
  · show superSectorNum ≤ (superGetdisklba n lba).toNat
    rw [h.superGetdisklba_toNat]
    exact Nat.le_add_left _ _
  · rw [h.blockAt_placement]
    exact h

theorem placement_blockAt {d : Fin n} {s : UInt64} (h : (d, s) ∈ dataArea n) :
    Striped (UInt64.ofNat (blockAt n d s.toNat)) ∧
      placement n (UInt64.ofNat (blockAt n d s.toNat)) = (d, s) := by
  obtain ⟨hs, hb⟩ := h
  have hnat : (UInt64.ofNat (blockAt n d s.toNat)).toNat = blockAt n d s.toNat := by
    apply UInt64.toNat_ofNat_of_lt'
    simp only [superSectorNum_eq, UInt64.size] at hb ⊢
    omega
  have hstriped : Striped (UInt64.ofNat (blockAt n d s.toNat)) := by
    rw [Striped, hnat]
    exact hb
  have hblock := blockAt_eq (n := n) (d := d) hs
  refine ⟨hstriped, Prod.ext (Fin.ext ?_) (UInt64.toNat_inj.mp ?_)⟩
  · show (superGetdisk n _ : ℕ) = d
    rw [superGetdisk_val, hnat, hblock, member_block (by decide) d.isLt]
  · show (superGetdisklba n _).toNat = s.toNat
    simp only [superSectorNum_eq] at hs
    rw [hstriped.superGetdisklba_toNat, hnat, hblock, offset_block (by decide) d.isLt, Nat.sub_add_cancel hs]

theorem placement_add {j : ℕ} (h : Striped (lba + UInt64.ofNat j))
    (hj : lba.toNat % 256 + j < 256)
    (hadd : lba.toNat + j < 2 ^ 64) :
    superGetdisk n (lba + UInt64.ofNat j) = superGetdisk n lba ∧
      (superGetdisklba n (lba + UInt64.ofNat j)).toNat = (superGetdisklba n lba).toNat + j := by
  have hnat : (lba + UInt64.ofNat j).toNat = lba.toNat + j := toNat_add_ofNat hadd
  have hlba : Striped lba := by
    unfold Striped at h ⊢
    omega
  refine ⟨Fin.ext ?_, ?_⟩
  · rw [superGetdisk_val, superGetdisk_val, hnat, member_add hj]
  · rw [h.superGetdisklba_toNat, hlba.superGetdisklba_toNat, hnat, offset_add hj]
    omega

end striped

/-- The striping map is a bijection from the striped blocks onto the data area. -/
theorem placement_bijOn [NeZero n] :
    (∀ lba, Striped lba → ExactAt n lba) ∧
      Set.BijOn (placement n) {lba | Striped lba} (dataArea n) ∧
      (∀ d s, (d, s) ∈ dataArea n → placement n (UInt64.ofNat (blockAt n d s.toNat)) = (d, s)) ∧
      ∀ lba j, lba.toNat + j ≤ 2 ^ 64 - 1 - superSectorNum →
        lba.toNat % superSectorNum + j < superSectorNum →
        superGetdisk n (lba + UInt64.ofNat j) = superGetdisk n lba ∧
          (superGetdisklba n (lba + UInt64.ofNat j)).toNat = (superGetdisklba n lba).toNat + j := by
  refine ⟨fun lba h => h.exactAt, ⟨fun lba h => h.placement_mem, ?_, ?_⟩,
    fun d s h => (placement_blockAt h).2, fun lba j hle hj => ?_⟩
  · intro a _ b _ hab
    obtain ⟨hd, hlba⟩ := Prod.mk.inj hab
    exact eq_of_superGetdisk n hd hlba
  · rintro ⟨d, s⟩ h
    exact ⟨_, (placement_blockAt h).1, (placement_blockAt h).2⟩
  · have hnat : (lba + UInt64.ofNat j).toNat = lba.toNat + j := toNat_add_ofNat (by omega)
    refine placement_add ?_ hj (by omega)
    rw [Striped, hnat]
    exact hle

theorem placement_bijOn_three :
    Set.BijOn (placement 3) {lba | Striped lba} (dataArea 3) ∧ placement 3 1000 = (0, 744) :=
  ⟨(placement_bijOn 3).2.1, by decide +kernel⟩

end PcapReplay
