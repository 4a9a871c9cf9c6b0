import PcapReplay.Spcap.Placement

/-! The buffers and cursors with which an import begins, the buffers by their addresses. -/

namespace PcapReplay
open Striping Spcap
variable {n : ℕ}

/-- The arrays of an `spcap`, with `none` for NULL. -/
structure SpcapPtr (n : ℕ) where
  file : MetaFile
  buffs : Fin n → Option ℕ
  currPtr : Fin n → Option ℕ
  curlba : Fin n → UInt64
  dataWrote : Fin n → ℕ

namespace SpcapPtr
variable [NeZero n]

/-- The loop of `initSpcap`; `zmalloc i` is what its `i`th allocation returns. -/
def initLoop (zmalloc : ℕ → Option ℕ) : List ℕ → SpcapPtr n → ℤ × SpcapPtr n
  | [], sp => (0, sp)
  | i :: is, sp =>
    let currentlba := initLba n sp.file.startBlock i
    let currentDsk := initDisk sp.file.startBlock i
    let sp := { sp with
      buffs := Function.update sp.buffs currentDsk (zmalloc i)
      currPtr := Function.update sp.currPtr currentDsk (zmalloc i) }
    if sp.currPtr currentDsk = none then (-1, sp)
    else
      initLoop zmalloc is { sp with
        dataWrote := Function.update sp.dataWrote currentDsk 0
        curlba := Function.update sp.curlba currentDsk currentlba }

def blank (file : MetaFile) : SpcapPtr n where
  file := file
  buffs _ := none
  currPtr _ := none
  curlba _ := 0
  dataWrote _ := 0

def initSpcap (zmalloc : ℕ → Option ℕ) (file : MetaFile) : ℤ × SpcapPtr n :=
  initLoop zmalloc (List.range n) (blank file)

def entry (sp : SpcapPtr n) (d : Fin n) : Option ℕ × Option ℕ × ℕ × UInt64 :=
  (sp.buffs d, sp.currPtr d, sp.dataWrote d, sp.curlba d)

def setPtr (sp : SpcapPtr n) (i : ℕ) (p : Option ℕ) : SpcapPtr n :=
  { sp with
    buffs := Function.update sp.buffs (initDisk sp.file.startBlock i) p
    currPtr := Function.update sp.currPtr (initDisk sp.file.startBlock i) p }

def place (sp : SpcapPtr n) (i p : ℕ) : SpcapPtr n :=
  { sp.setPtr i (some p) with
    dataWrote := Function.update sp.dataWrote (initDisk sp.file.startBlock i) 0
    curlba := Function.update sp.curlba (initDisk sp.file.startBlock i) (initLba n sp.file.startBlock i) }

section loop
variable {zmalloc : ℕ → Option ℕ} {sp sp' : SpcapPtr n} {i : ℕ} {is : List ℕ}

theorem initLoop_none (h : zmalloc i = none) :
    initLoop zmalloc (i :: is) sp = (-1, sp.setPtr i none) := by
  rw [initLoop]
  simp [h, setPtr]

theorem initLoop_some {p : ℕ} (h : zmalloc i = some p) :
    initLoop zmalloc (i :: is) sp = initLoop zmalloc is (sp.place i p) := by
  rw [initLoop]
  simp [h, place, setPtr]

theorem entry_place (p : ℕ) : (sp.place i p).entry (initDisk sp.file.startBlock i) =
    (some p, some p, 0, initLba n sp.file.startBlock i) := by
  simp [entry, place, setPtr]

theorem entry_place_of_ne (p : ℕ) {d : Fin n} (h : d ≠ initDisk sp.file.startBlock i) :
    (sp.place i p).entry d = sp.entry d := by
  simp [entry, place, setPtr, h]

theorem initLoop_zero (h : initLoop zmalloc is sp = (0, sp'))
    (hnd : (is.map (initDisk sp.file.startBlock : ℕ → Fin n)).Nodup) :
    (∀ d ∉ is.map (initDisk sp.file.startBlock : ℕ → Fin n), sp'.entry d = sp.entry d) ∧
      ∀ i ∈ is, ∃ p, zmalloc i = some p ∧ sp'.entry (initDisk sp.file.startBlock i) =
        (some p, some p, 0, initLba n sp.file.startBlock i) := by
  induction is generalizing sp with
  | nil =>
    obtain ⟨_, rfl⟩ := Prod.mk.inj h
    exact ⟨fun _ _ => rfl, fun _ hi => absurd hi List.not_mem_nil⟩
  | cons i is ih =>
    rw [List.map_cons, List.nodup_cons] at hnd
    cases hp : zmalloc i with
    | none =>
      have hcode := congrArg Prod.fst h
      rw [initLoop_none hp] at hcode
      exact absurd hcode (by simp)
    | some p =>
      rw [initLoop_some hp] at h
      obtain ⟨hframe, hplaced⟩ := ih h hnd.2
      rw [List.map_cons]
      constructor
      · intro d hd
        rw [List.mem_cons, not_or] at hd
        rw [hframe d hd.2, entry_place_of_ne p hd.1]
      · intro j hj
        rcases List.mem_cons.mp hj with rfl | hj
        · exact ⟨p, hp, (hframe _ hnd.1).trans (entry_place p)⟩
        · exact hplaced j hj

end loop

/-- The writer's view of buffers that are empty. -/
def abs (sp : SpcapPtr n) : Spcap n where
  file := sp.file
  buffs d := (sp.buffs d).map fun _ _ => 0
  currPtr d := (sp.currPtr d).getD 0 - (sp.buffs d).getD 0
  curlba := sp.curlba
  dataWrote := sp.dataWrote
  wrote := []

theorem abs_setPtr (sp : SpcapPtr n) (i : ℕ) (p : Option ℕ) : (sp.setPtr i p).abs =
    { sp.abs with
      buffs := Function.update sp.abs.buffs (initDisk sp.file.startBlock i) (p.map fun _ _ => 0)
      currPtr := Function.update sp.abs.currPtr (initDisk sp.file.startBlock i) 0 } := by
  unfold abs setPtr
  rw [Spcap.mk.injEq]
  refine ⟨rfl, ?_, ?_, rfl, rfl, rfl⟩
  · funext d
    by_cases hd : d = initDisk sp.file.startBlock i
    · subst hd
      simp only [Function.update_self]
    · simp only [Function.update_of_ne hd]
  · funext d
    by_cases hd : d = initDisk sp.file.startBlock i
    · subst hd
      simp only [Function.update_self, Nat.sub_self]
    · simp only [Function.update_of_ne hd]

theorem abs_place (sp : SpcapPtr n) (i p : ℕ) : (sp.place i p).abs = sp.abs.place i := by
  have hptr := abs_setPtr sp i (some p)
  calc (sp.place i p).abs
    _ = { (sp.setPtr i (some p)).abs with
          dataWrote := Function.update sp.dataWrote (initDisk sp.file.startBlock i) 0
          curlba := Function.update sp.curlba (initDisk sp.file.startBlock i)
            (initLba n sp.file.startBlock i) } := rfl
    _ = sp.abs.place i := by
      rw [hptr]
      rfl

theorem initLoop_abs (zmalloc : ℕ → Option ℕ) (is : List ℕ) (sp : SpcapPtr n) :
    PcapReplay.initLoop (fun i => (zmalloc i).isSome) is sp.abs =
      Prod.map id abs (initLoop zmalloc is sp) := by
  induction is generalizing sp with
  | nil => rfl
  | cons i is ih =>
    cases h : zmalloc i with
    | none =>
      rw [initLoop_none h, Prod.map_apply, abs_setPtr, PcapReplay.initLoop]
      simp only [h, Option.isSome_none, Bool.false_eq_true, if_false]
      rfl
    | some p =>
      rw [initLoop_some h, ← ih, abs_place, PcapReplay.initLoop]
      simp only [h, Option.isSome_some, if_true]
      rfl

theorem initSpcap_abs (zmalloc : ℕ → Option ℕ) (file : MetaFile) :
    (PcapReplay.initSpcap (fun i => (zmalloc i).isSome) file : ℤ × Spcap n) =
      Prod.map id abs (initSpcap zmalloc file) :=
  initLoop_abs zmalloc (List.range n) (blank file)

theorem initSpcap_code (zmalloc : ℕ → Option ℕ) (file : MetaFile) :
    (initSpcap zmalloc file : ℤ × SpcapPtr n).1 = if ∀ i < n, (zmalloc i).isSome then 0 else -1 := by
  have hcode : (PcapReplay.initSpcap (fun i => (zmalloc i).isSome) file : ℤ × Spcap n).1 =
      (initSpcap zmalloc file : ℤ × SpcapPtr n).1 := by
    rw [initSpcap_abs]
    rfl
  have hloop := initLoop_code (fun i => (zmalloc i).isSome) (List.range n) (PcapReplay.blank file : Spcap n)
  simp only [List.mem_range] at hloop
  exact hcode.symm.trans hloop

end SpcapPtr

variable [NeZero n] {startBlock : UInt64}

theorem initDisk_perm (h : startBlock.toNat + n * 256 ≤ 2 ^ 64) :
    ((List.range n).map (initDisk startBlock : ℕ → Fin n)).Perm (List.finRange n) := by
  have hc : Covers n startBlock := covers_of_le h
  have hnd : ((List.range n).map (initDisk startBlock : ℕ → Fin n)).Nodup := by
    apply List.Nodup.map_on _ List.nodup_range
    intro i hi j hj hij
    exact hc.injOn (List.mem_range.mp hi) (List.mem_range.mp hj) hij
  rw [List.perm_ext_iff_of_nodup hnd (List.nodup_finRange n)]
  intro d
  apply iff_of_true _ (List.mem_finRange d)
  obtain ⟨i, hi, hd⟩ := hc.exists_mem d
  exact List.mem_map.mpr ⟨i, hi, hd⟩

theorem le_of_same_disk (h : startBlock.toNat + n * 256 ≤ 2 ^ 64) {i : ℕ} (hi : i < n) {b : UInt64}
    (hb : startBlock ≤ b) (hd : superGetdisk n b = initDisk startBlock i)
    (hmod : b.toNat % 256 = startBlock.toNat % 256) : startBlock.toNat + i * 256 ≤ b.toNat := by
  have hle : startBlock.toNat ≤ b.toNat := UInt64.le_iff_toNat_le.mp hb
  obtain ⟨k, hk⟩ : ∃ k, b.toNat = startBlock.toNat + k * 256 := ⟨(b.toNat - startBlock.toNat) / 256, by omega⟩
  have hval := congrArg Fin.val hd
  rw [superGetdisk_val, (initDisk_val n startBlock i (by omega)).1, hk] at hval
  have hik : i ≤ k := le_of_member_units (by decide) hi hval
  rw [hk]
  exact Nat.add_le_add_left (Nat.mul_le_mul_right 256 hik) _

theorem initLba_le (h : startBlock.toNat + n * 256 ≤ 2 ^ 64) {i : ℕ} (hi : i < n) {b : UInt64}
    (hd : superGetdisk n b = initDisk startBlock i) (hle : startBlock.toNat + i * 256 ≤ b.toNat)
    (hs : Striped b) : (initLba n startBlock i).toNat ≤ (superGetdisklba n b).toNat := by
  obtain ⟨hdisk, hlba⟩ := initDisk_val n startBlock i (by omega)
  have hval := congrArg Fin.val hd
  rw [superGetdisk_val, hdisk] at hval
  rw [hs.superGetdisklba_toNat, hlba]
  refine (Nat.mod_le _ _).trans (Nat.add_le_add_right ?_ 256)
  exact (offset_le_offset_iff (by decide) (Nat.pos_of_neZero n) hval.symm).mpr hle

/-- The disk has the buffer of the `i`th allocation, and the cursor of the first block from the start
on that it holds. -/
structure Opened (zmalloc : ℕ → Option ℕ) (sp : SpcapPtr n) (startBlock : UInt64) (i : ℕ) (d : Fin n) :
    Prop where
  allocated : ∃ p, zmalloc i = some p ∧ sp.buffs d = some p
  ptr : sp.currPtr d = sp.buffs d
  empty : sp.dataWrote d = 0
  lba : sp.curlba d = superGetdisklba n (startBlock + UInt64.ofNat (i * superSectorNum))
  first : ∀ b : UInt64, startBlock ≤ b → superGetdisk n b = d →
    b.toNat % superSectorNum = startBlock.toNat % superSectorNum →
    startBlock.toNat + i * superSectorNum ≤ b.toNat ∧
      (Striped b → (sp.curlba d).toNat ≤ (superGetdisklba n b).toNat)

/-- The disks of the cursors are a permutation of all disks, 0 is returned if and only if every allocation
succeeds, and then each disk has the buffer and the cursor of one of them. -/
theorem initSpcap_opens (zmalloc : ℕ → Option ℕ) (file : MetaFile)
    (h : file.startBlock.toNat + n * superSectorNum ≤ 2 ^ 64) :
    ((List.range n).map fun i =>
        superGetdisk n (file.startBlock + UInt64.ofNat (i * superSectorNum))).Perm (List.finRange n) ∧
      (SpcapPtr.initSpcap zmalloc file : ℤ × SpcapPtr n).1 = (if ∀ i < n, (zmalloc i).isSome then 0 else -1) ∧
      ∀ sp : SpcapPtr n, SpcapPtr.initSpcap zmalloc file = (0, sp) → ∀ d : Fin n,
        ∃ i < n, Opened zmalloc sp file.startBlock i d ∧
          ∀ j < n, superGetdisk n (file.startBlock + UInt64.ofNat (j * superSectorNum)) = d → j = i := by
  rw [superSectorNum_eq] at h
  have hperm := initDisk_perm h
  refine ⟨hperm, SpcapPtr.initSpcap_code zmalloc file, fun sp hsp d => ?_⟩
  have hc : Covers n file.startBlock := covers_of_le h
  have hnd : ((List.range n).map (initDisk file.startBlock : ℕ → Fin n)).Nodup :=
    hperm.nodup_iff.mpr (List.nodup_finRange n)
  obtain ⟨i, hi, rfl⟩ := hc d
  obtain ⟨p, hp, hentry⟩ : ∃ p, zmalloc i = some p ∧ sp.entry (initDisk file.startBlock i) =
      (some p, some p, 0, initLba n file.startBlock i) :=
    (SpcapPtr.initLoop_zero hsp hnd).2 i (List.mem_range.mpr hi)
  simp only [SpcapPtr.entry, Prod.mk.injEq] at hentry
  obtain ⟨hbuff, hptr, hempty, hlba⟩ := hentry
  refine ⟨i, hi, ⟨⟨p, hp, hbuff⟩, hptr.trans hbuff.symm, hempty, hlba, fun b hb hd hmod => ?_⟩,
    fun j hj hij => hc.injOn hj hi hij⟩
  have hle := le_of_same_disk h hi hb hd hmod
  refine ⟨hle, fun hs => ?_⟩
  rw [hlba]
  exact initLba_le h hi hd hle hs

theorem initSpcap_opens_two_disks :
    (∃ sp : SpcapPtr 2, SpcapPtr.initSpcap (fun i => some (4096 * (i + 1)))
        { name := fun _ => 65, startBlock := 515, endBlock := 515 } = (0, sp) ∧
      ∀ d : Fin 2, ∃ i < 2, Opened (fun i => some (4096 * (i + 1))) sp 515 i d) ∧
    (SpcapPtr.initSpcap (fun i => if i = 0 then some 4096 else none)
      { name := fun _ => 65, startBlock := 515, endBlock := 515 } : ℤ × SpcapPtr 2).1 = -1 := by
  let file : MetaFile := { name := fun _ => 65, startBlock := 515, endBlock := 515 }
  constructor
  · obtain ⟨_, hcode, hopens⟩ := @initSpcap_opens 2 _ (fun i => some (4096 * (i + 1))) file (by decide)
    have hrun : SpcapPtr.initSpcap (fun i => some (4096 * (i + 1))) file =
        (0, (SpcapPtr.initSpcap (fun i => some (4096 * (i + 1))) file : ℤ × SpcapPtr 2).2) := by
      apply Prod.ext
      · exact hcode.trans (if_pos fun _ _ => rfl)
      · rfl
    refine ⟨_, hrun, fun d => ?_⟩
    obtain ⟨i, hi, hopened, _⟩ := hopens _ hrun d
    exact ⟨i, hi, hopened⟩
  · have hcode := (@initSpcap_opens 2 _ (fun i => if i = 0 then some 4096 else none) file (by decide)).2.1
    exact hcode.trans (if_neg fun h => absurd (h 1 (by decide)) (by decide))

end PcapReplay
