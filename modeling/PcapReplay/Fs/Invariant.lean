import PcapReplay.Cp.Target
import Mathlib.Data.Fintype.Prod
import Mathlib.Data.Finset.Card
import Mathlib.Logic.Relation

/-! The invariant of the file table over every run of the operations that change it. -/

namespace PcapReplay
open Interaction
variable {n : ℕ}

namespace NvmeRaid

def Live (raid : NvmeRaid n) (s : Slot n) : Prop := (raid.file s).name 0 ≠ 0

instance (raid : NvmeRaid n) (s : Slot n) : Decidable (raid.Live s) :=
  inferInstanceAs (Decidable (_ ≠ _))

def Owns (raid : NvmeRaid n) (s : Slot n) (b : ℕ) : Prop :=
  (raid.file s).startBlock.toNat ≤ b ∧ b < (raid.file s).endBlock.toNat

def live (raid : NvmeRaid n) : Finset (Slot n) := Finset.univ.filter raid.Live

@[simp] theorem mem_live (raid : NvmeRaid n) (s : Slot n) : s ∈ raid.live ↔ raid.Live s := by
  simp [live]

theorem live_setFile (raid : NvmeRaid n) (s : Slot n) (f : MetaFile) :
    (raid.setFile s f).live = if f.name 0 ≠ 0 then insert s raid.live else raid.live.erase s := by
  ext t
  split_ifs with hf <;> by_cases ht : t = s <;> simp [Live, ht, hf]

theorem card_live_le (raid : NvmeRaid n) : raid.live.card ≤ maxFiles * n := by
  have h := Finset.card_le_univ raid.live
  simpa [Nat.mul_comm] using h

end NvmeRaid

theorem foldl_mostRight {α : Type} (f : α → UInt64) (l : List α) (b : UInt64) :
    b.toNat ≤ (l.foldl (fun m s => if m < f s then f s else m) b).toNat ∧
      (∀ s ∈ l, (f s).toNat ≤ (l.foldl (fun m s => if m < f s then f s else m) b).toNat) ∧
      (l.foldl (fun m s => if m < f s then f s else m) b = b ∨
        ∃ s ∈ l, l.foldl (fun m s => if m < f s then f s else m) b = f s) := by
  induction l generalizing b with
  | nil => simp
  | cons x xs ih =>
    obtain ⟨h₁, h₂, h₃⟩ := ih (if b < f x then f x else b)
    rw [List.foldl_cons]
    have hb : b.toNat ≤ (if b < f x then f x else b).toNat ∧
        (f x).toNat ≤ (if b < f x then f x else b).toNat := by
      split_ifs with h
      · exact ⟨(UInt64.lt_iff_toNat_lt.mp h).le, le_rfl⟩
      · exact ⟨le_rfl, UInt64.le_iff_toNat_le.mp (UInt64.not_lt.mp h)⟩
    refine ⟨hb.1.trans h₁, ?_, ?_⟩
    · intro s hs
      rcases List.mem_cons.mp hs with rfl | hs
      · exact hb.2.trans h₁
      · exact h₂ s hs
    · rcases h₃ with h₃ | ⟨s, hs, h₃⟩
      · split_ifs at h₃ ⊢ with h
        · exact Or.inr ⟨x, List.mem_cons_self, h₃⟩
        · exact Or.inl h₃
      · exact Or.inr ⟨s, List.mem_cons_of_mem x hs, h₃⟩

theorem reserved_toNat (hn : n ≤ maxDisks) : (UInt64.ofNat (n * superSectorNum)).toNat = n * 256 := by
  rw [superSectorNum_eq, UInt64.toNat_ofNat_of_lt']
  simp only [maxDisks, UInt64.size] at *
  omega

theorem reserved_le_rightFreeBlock (hn : n ≤ maxDisks) (raid : NvmeRaid n) :
    n * 256 ≤ (rightFreeBlock raid).toNat := by
  rw [← reserved_toNat hn]
  exact (foldl_mostRight _ _ _).1

theorem endBlock_le_rightFreeBlock (raid : NvmeRaid n) (s : Slot n) :
    (raid.file s).endBlock.toNat ≤ (rightFreeBlock raid).toNat :=
  (foldl_mostRight (fun s => (raid.file s).endBlock) (slots n) _).2.1 s (mem_slots s)

theorem rightFreeBlock_le (hn : n ≤ maxDisks) {raid : NvmeRaid n} {c : ℕ} (hc : n * 256 ≤ c)
    (h : ∀ s, (raid.file s).endBlock.toNat ≤ c) : (rightFreeBlock raid).toNat ≤ c := by
  rcases (foldl_mostRight (fun s => (raid.file s).endBlock) (slots n)
    (UInt64.ofNat (n * superSectorNum))).2.2 with he | ⟨s, _, he⟩
  · rw [rightFreeBlock, he, reserved_toNat hn]
    exact hc
  · rw [rightFreeBlock, he]
    exact h s

structure TableInv [NeZero n] (raid : NvmeRaid n) : Prop where
  bounds : ∀ s, raid.Live s → n * superSectorNum ≤ (raid.file s).startBlock.toNat ∧
    (raid.file s).startBlock.toNat ≤ (raid.file s).endBlock.toNat ∧
    (raid.file s).endBlock.toNat ≤ raid.totalBlocks.toNat
  disjoint : ∀ s t, raid.Live s → raid.Live t → s ≠ t → ∀ b, raid.Owns s b → ¬ raid.Owns t b
  unique : ∀ s t, raid.Live s → raid.Live t →
    cmpFile (raid.file s).name (raid.file t).name = 0 → s = t
  free : ∀ s, ¬ raid.Live s → (raid.file s).startBlock = 0 ∧ (raid.file s).endBlock = 0
  total : (raid.msector 0).totalFiles.toNat = raid.live.card
  num : raid.numFiles = raid.live.card

@[simp] theorem file_countFiles [NeZero n] (raid : NvmeRaid n) (a : UInt8) (b : ℤ) (s : Slot n) :
    (countFiles raid a b).file s = raid.file s := by
  by_cases hs : s.1 = 0 <;> simp [countFiles, NvmeRaid.file, hs]

theorem file_tableAdd [NeZero n] (raid : NvmeRaid n) (s t : Slot n) (name : Name) (blsize : UInt64) :
    (tableAdd raid s name blsize).file t =
      if t = s then ⟨name, rightFreeBlock raid, rightFreeBlock raid + blsize⟩ else raid.file t := by
  rw [tableAdd, file_countFiles, NvmeRaid.file_setFile]

theorem file_tableAdd_self [NeZero n] (raid : NvmeRaid n) (s : Slot n) (name : Name) (blsize : UInt64) :
    (tableAdd raid s name blsize).file s =
      ⟨name, rightFreeBlock raid, rightFreeBlock raid + blsize⟩ := by
  rw [file_tableAdd, if_pos rfl]

theorem file_tableDel [NeZero n] (raid : NvmeRaid n) (s t : Slot n) :
    (tableDel raid s).file t =
      if t = s then ⟨Function.update (raid.file s).name 0 0, 0, 0⟩ else raid.file t := by
  rw [tableDel, file_countFiles, NvmeRaid.file_setFile]

theorem file_tableShrink (raid : NvmeRaid n) (s t : Slot n) (o : UInt64) :
    (tableShrink raid s o).file t =
      if t = s then { raid.file s with endBlock := (raid.file s).startBlock + originBlocks o }
      else raid.file t := by
  rw [tableShrink, NvmeRaid.file_setFile]

@[simp] theorem live_countFiles [NeZero n] (raid : NvmeRaid n) (a : UInt8) (b : ℤ) :
    (countFiles raid a b).live = raid.live := by
  ext s
  simp [NvmeRaid.Live]

theorem freeSlot_dead {raid : NvmeRaid n} {s : Slot n} (h : freeSlot raid = some s) : ¬ raid.Live s := by
  have hdead : (raid.file s).name 0 = 0 := by simpa using List.find?_some h
  exact fun hlive => hlive hdead

theorem findFile_live {raid : NvmeRaid n} {name : Name} {s : Slot n} (hname : name 0 ≠ 0)
    (hs : findFile raid name = some s) : raid.Live s := by
  have heq : name.str = (raid.file s).name.str := by
    rw [← cmpFile_eq_zero]
    simpa using List.find?_some hs
  exact fun h0 => hname ((Name.head_eq_zero heq).mpr h0)

theorem findFile_eq_some {raid : NvmeRaid n} {name : Name} {s : Slot n}
    (hs : cmpFile name (raid.file s).name = 0)
    (hne : ∀ t, t ≠ s → cmpFile name (raid.file t).name ≠ 0) : findFile raid name = some s := by
  cases h : findFile raid name with
  | none => exact absurd hs (by simpa using List.find?_eq_none.mp h s (mem_slots s))
  | some t =>
    have ht : cmpFile name (raid.file t).name = 0 := by simpa using List.find?_some h
    rw [Option.some_inj]
    by_contra hts
    exact hne t hts ht

theorem live_tableShrink (raid : NvmeRaid n) (s : Slot n) (o : UInt64) :
    (tableShrink raid s o).live = raid.live := by
  ext t
  by_cases hts : t = s <;> simp [tableShrink, NvmeRaid.Live, hts]

structure Counted [NeZero n] (raid : NvmeRaid n) : Prop where
  total : (raid.msector 0).totalFiles.toNat = raid.live.card
  num : raid.numFiles = raid.live.card

section steps
variable [NeZero n] {raid raid' : NvmeRaid n}

theorem TableInv.counted (hi : TableInv raid) : Counted raid := ⟨hi.total, hi.num⟩

theorem card_live_tableAdd {name : Name} {blsize : UInt64} {s : Slot n} (hname : name 0 ≠ 0)
    (hs : ¬ raid.Live s) : (tableAdd raid s name blsize).live.card = raid.live.card + 1 := by
  rw [tableAdd, live_countFiles, NvmeRaid.live_setFile, if_pos hname, Finset.card_insert_of_notMem]
  simpa using hs

theorem card_live_tableDel {s : Slot n} (hs : raid.Live s) :
    (tableDel raid s).live.card + 1 = raid.live.card := by
  rw [tableDel, live_countFiles, NvmeRaid.live_setFile, if_neg (by simp),
    Finset.card_erase_add_one (by simpa using hs)]

theorem Counted.add (h : Counted raid) (hn : n ≤ maxDisks) {name : Name} {blsize : UInt64} {s : Slot n}
    (hname : name 0 ≠ 0) (hs : ¬ raid.Live s) : Counted (tableAdd raid s name blsize) := by
  have hcard : (tableAdd raid s name blsize).live.card = raid.live.card + 1 := card_live_tableAdd hname hs
  have htotal := h.total
  have hnum := h.num
  constructor
  · have hle := raid.card_live_le
    simp only [maxDisks, maxFiles] at hn hle
    rw [hcard]
    simp only [tableAdd, countFiles, Function.update_self, UInt8.toNat_add, UInt8.toNat_one, htotal]
    omega
  · change raid.numFiles + 1 = _
    omega

theorem Counted.del (h : Counted raid) {s : Slot n} (hs : raid.Live s) : Counted (tableDel raid s) := by
  have hcard := card_live_tableDel hs
  have htotal := h.total
  have hnum := h.num
  constructor
  · have h256 := (raid.msector 0).totalFiles.toNat_lt
    simp only [tableDel, countFiles, Function.update_self, UInt8.toNat_sub, UInt8.toNat_one]
    simp only [tableDel, countFiles] at hcard
    omega
  · change raid.numFiles - 1 = _
    omega

theorem Counted.shrink (h : Counted raid) (s : Slot n) (o : UInt64) : Counted (tableShrink raid s o) := by
  constructor
  · rw [live_tableShrink, tableShrink, NvmeRaid.totalFiles_setFile, h.total]
  · rw [live_tableShrink]
    exact h.num

theorem counted_formatted (raid : NvmeRaid n) (h0 : raid.numFiles = 0) : Counted (formatted raid) := by
  have hcard : (formatted raid).live = ∅ := by
    ext s
    simp [NvmeRaid.Live, NvmeRaid.file, formatted, initMeta]
  constructor
  · rw [hcard]
    simp [formatted, initMeta]
  · rw [hcard]
    simp [formatted, h0]

theorem tableInv_format (raid : NvmeRaid n) (h0 : raid.numFiles = 0)
    (h : (formatRaid raid).Returns raid') : TableInv raid' := by
  rw [formatRaid_returns] at h
  have hdead : ∀ s, ¬ raid'.Live s := by
    intro s
    simp [h, formatted, NvmeRaid.Live, NvmeRaid.file, initMeta]
  have hcount := counted_formatted raid h0
  rw [← h] at hcount
  refine ⟨fun s hs => absurd hs (hdead s), fun s _ hs => absurd hs (hdead s),
    fun s _ hs => absurd hs (hdead s), fun s _ => ?_, hcount.total, hcount.num⟩
  simp [h, formatted, NvmeRaid.file, initMeta]

theorem TableInv.replace (hi : TableInv raid) (s : Slot n) (f : MetaFile)
    (hfile : ∀ t, raid'.file t = if t = s then f else raid.file t)
    (hblocks : raid'.totalBlocks = raid.totalBlocks)
    (hbounds : f.name 0 ≠ 0 → n * 256 ≤ f.startBlock.toNat ∧
      f.startBlock.toNat ≤ f.endBlock.toNat ∧ f.endBlock.toNat ≤ raid.totalBlocks.toNat)
    (hdisjoint : f.name 0 ≠ 0 → ∀ t, t ≠ s → raid.Live t → ∀ b, f.startBlock.toNat ≤ b →
      b < f.endBlock.toNat → ¬ raid.Owns t b)
    (hunique : f.name 0 ≠ 0 → ∀ t, t ≠ s → raid.Live t → cmpFile f.name (raid.file t).name ≠ 0)
    (hfree : f.name 0 = 0 → f.startBlock = 0 ∧ f.endBlock = 0)
    (hcount : Counted raid') : TableInv raid' := by
  have hs : raid'.file s = f := by simp [hfile]
  have hne : ∀ {t}, t ≠ s → raid'.file t = raid.file t := fun ht => by simp [hfile, ht]
  refine ⟨fun t ht => ?_, fun t u ht hu htu b => ?_, fun t u ht hu hc => ?_, fun t ht => ?_,
    hcount.total, hcount.num⟩
  · rw [hblocks]
    by_cases hts : t = s
    · subst hts
      simp only [NvmeRaid.Live, hs] at ht ⊢
      exact hbounds ht
    · simp only [NvmeRaid.Live, hne hts] at ht ⊢
      exact hi.bounds t ht
  · by_cases hts : t = s
    · subst hts
      simp only [NvmeRaid.Live, NvmeRaid.Owns, hs, hne (Ne.symm htu)] at ht hu ⊢
      exact fun hb => hdisjoint ht u (Ne.symm htu) hu b hb.1 hb.2
    · by_cases hus : u = s
      · subst hus
        simp only [NvmeRaid.Live, NvmeRaid.Owns, hs, hne hts] at ht hu ⊢
        exact fun hb hb' => hdisjoint hu t hts ht b hb'.1 hb'.2 hb
      · simp only [NvmeRaid.Live, NvmeRaid.Owns, hne hts, hne hus] at ht hu ⊢
        exact hi.disjoint t u ht hu htu b
  · by_contra htu
    by_cases hts : t = s
    · subst hts
      simp only [NvmeRaid.Live, hs, hne (Ne.symm htu)] at ht hu hc
      exact hunique ht u (Ne.symm htu) hu hc
    · by_cases hus : u = s
      · subst hus
        simp only [NvmeRaid.Live, hs, hne hts] at ht hu hc
        refine hunique hu t hts ht ?_
        rw [cmpFile_eq_zero] at hc ⊢
        exact hc.symm
      · simp only [NvmeRaid.Live, hne hts, hne hus] at ht hu hc
        exact htu (hi.unique t u ht hu hc)
  · by_cases hts : t = s
    · subst hts
      simp only [NvmeRaid.Live, hs, not_not] at ht ⊢
      exact hfree ht
    · simp only [NvmeRaid.Live, hne hts] at ht ⊢
      exact hi.free t ht

theorem TableInv.endBlock_le (hi : TableInv raid) (s : Slot n) :
    (raid.file s).endBlock.toNat ≤ raid.totalBlocks.toNat := by
  by_cases hs : raid.Live s
  · exact (hi.bounds s hs).2.2
  · rw [(hi.free s hs).2]
    exact Nat.zero_le _

theorem TableInv.startBlock_le (hi : TableInv raid) (s : Slot n) :
    (raid.file s).startBlock.toNat ≤ (raid.file s).endBlock.toNat := by
  by_cases hs : raid.Live s
  · exact (hi.bounds s hs).2.1
  · rw [(hi.free s hs).1, (hi.free s hs).2]

variable (hn : n ≤ maxDisks) (ht : n * 256 ≤ raid.totalBlocks.toNat)
include hn ht

theorem TableInv.rightFreeBlock_le (hi : TableInv raid) :
    (rightFreeBlock raid).toNat ≤ raid.totalBlocks.toNat :=
  PcapReplay.rightFreeBlock_le hn ht hi.endBlock_le

theorem TableInv.rightFreeBlock_add_le (hi : TableInv raid) {blsize : UInt64}
    (hb : blsize ≤ rightFreeBlocks raid) :
    (rightFreeBlock raid).toNat + blsize.toNat ≤ raid.totalBlocks.toNat := by
  have hle := hi.rightFreeBlock_le hn ht
  have hb' := UInt64.le_iff_toNat_le.mp hb
  rw [rightFreeBlocks, UInt64.toNat_sub_of_le _ _ (UInt64.le_iff_toNat_le.mpr hle)] at hb'
  omega

theorem TableInv.endBlock_add (hi : TableInv raid) {blsize : UInt64}
    (hb : blsize ≤ rightFreeBlocks raid) :
    (rightFreeBlock raid + blsize).toNat = (rightFreeBlock raid).toNat + blsize.toNat := by
  have h := hi.rightFreeBlock_add_le hn ht hb
  exact toNat_add_of_lt (h.trans_lt raid.totalBlocks.toNat_lt)

theorem TableInv.add (hi : TableInv raid) {name : Name} {blsize : UInt64} {s : Slot n}
    (ha : Admits raid name blsize) (hs : freeSlot raid = some s) :
    TableInv (tableAdd raid s name blsize) := by
  have habsent : ∀ t, cmpFile name (raid.file t).name ≠ 0 := by
    intro t
    simpa using List.find?_eq_none.mp ha.absent t (mem_slots t)
  have hend := hi.endBlock_add hn ht ha.space
  have hsum := hi.rightFreeBlock_add_le hn ht ha.space
  refine hi.replace s ⟨name, rightFreeBlock raid, rightFreeBlock raid + blsize⟩ (fun t => ?_) rfl
    (fun _ => ?_) (fun _ t _ _ b hb _ hown => ?_) (fun _ t _ _ => habsent t)
    (fun h0 => absurd h0 ha.named) (hi.counted.add hn ha.named (freeSlot_dead hs))
  · rw [file_tableAdd]
  · rw [hend]
    exact ⟨reserved_le_rightFreeBlock hn raid, Nat.le_add_right _ _, hsum⟩
  · dsimp only at hb
    have := endBlock_le_rightFreeBlock raid t
    exact absurd hown.2 (by omega)

omit hn ht in
theorem TableInv.del (hi : TableInv raid) {name : Name} {s : Slot n} (hname : name 0 ≠ 0)
    (hs : findFile raid name = some s) : TableInv (tableDel raid s) := by
  have hcleared : Function.update (raid.file s).name 0 0 0 = 0 := Function.update_self ..
  refine hi.replace s ⟨Function.update (raid.file s).name 0 0, 0, 0⟩ (fun t => ?_) rfl
    (fun h0 => absurd hcleared h0) (fun h0 => absurd hcleared h0) (fun h0 => absurd hcleared h0)
    (fun _ => ⟨rfl, rfl⟩) (hi.counted.del (findFile_live hname hs))
  rw [file_tableDel]

omit hn ht in
theorem TableInv.shrink (hi : TableInv raid) {s : Slot n} {o : UInt64}
    (ho : o ≤ fileSize (raid.file s)) : TableInv (tableShrink raid s o) := by
  have hle := originBlocks_le (hi.startBlock_le s) ho
  have hlt := (raid.file s).endBlock.toNat_lt
  have hend : ((raid.file s).startBlock + originBlocks o).toNat =
      (raid.file s).startBlock.toNat + (originBlocks o).toNat := toNat_add_of_lt (by omega)
  refine hi.replace s
    { raid.file s with endBlock := (raid.file s).startBlock + originBlocks o }
    (fun t => NvmeRaid.file_setFile _ _ _ _) rfl (fun h0 => ?_) (fun h0 t hts hlt b hb hb' => ?_)
    (fun h0 t hts hlt hc => hts (hi.unique s t h0 hlt hc).symm) (fun h0 => ?_) (hi.counted.shrink s o)
  · have hb := hi.bounds s h0
    simp only [hend]
    exact ⟨hb.1, by omega, by omega⟩
  · simp only [hend] at hb'
    exact hi.disjoint s t h0 hlt (Ne.symm hts) b ⟨hb, by omega⟩
  · obtain ⟨hstart, hend0⟩ := hi.free s (by simpa [NvmeRaid.Live] using h0)
    rw [hstart, hend0] at hle
    have hzero : originBlocks o = 0 := by
      rw [← UInt64.toNat_inj]
      simp only [UInt64.toNat_zero] at hle ⊢
      omega
    simp [hstart, hzero]

end steps

inductive TableStep [NeZero n] : NvmeRaid n → NvmeRaid n → Prop
  | add {raid raid' : NvmeRaid n} {name : Name} {blsize : UInt64} {ret : Option (Slot n)}
      (h : (addFile raid name blsize).Returns (ret, raid')) : TableStep raid raid'
  | del {raid raid' : NvmeRaid n} {name : Name} {ret : UInt8}
      (h : (delFile raid name).Returns (ret, raid')) : TableStep raid raid'
  | copy {raid raid' : NvmeRaid n} {name : Name} {originSize : UInt64} {fpcap : Bool} {t : Target n}
      (h : (copyTarget raid name originSize fpcap).Returns (t, raid')) : TableStep raid raid'

def Reachable [NeZero n] (raid₀ raid : NvmeRaid n) : Prop :=
  ∃ raid₁, (formatRaid raid₀).Returns raid₁ ∧ Relation.ReflTransGen TableStep raid₁ raid

section runs
variable [NeZero n] {raid₀ raid raid' : NvmeRaid n}

theorem tableStep_totalBlocks (h : TableStep raid raid') : raid'.totalBlocks = raid.totalBlocks := by
  have hadd : ∀ {name : Name} {blsize : UInt64} {ret : Option (Slot n)},
      (addFile raid name blsize).Returns (ret, raid') → raid'.totalBlocks = raid.totalBlocks := by
    intro name blsize ret h
    rcases addFile_cases h with ⟨_, rfl, _⟩ | ⟨s, _, rfl, _⟩ <;> rfl
  cases h with
  | add h => exact hadd h
  | del h => rcases delFile_cases h with ⟨_, rfl, _⟩ | ⟨s, _, rfl, _⟩ <;> rfl
  | copy h =>
    rcases copyTarget_cases h with ⟨_, rfl⟩ | ⟨s, _, rfl, _⟩ | ⟨r, _, h⟩
    · rfl
    · rfl
    · exact hadd h

theorem tableStep_inv (hn : n ≤ maxDisks) (ht : n * 256 ≤ raid.totalBlocks.toNat)
    (h : TableStep raid raid') (hi : TableInv raid) : TableInv raid' := by
  have hadd : ∀ {name : Name} {blsize : UInt64} {ret : Option (Slot n)},
      (addFile raid name blsize).Returns (ret, raid') → TableInv raid' := by
    intro name blsize ret h
    rcases addFile_cases h with ⟨_, rfl, _⟩ | ⟨s, _, rfl, ha, hs⟩
    · exact hi
    · exact hi.add hn ht ha hs
  cases h with
  | add h => exact hadd h
  | del h =>
    rcases delFile_cases h with ⟨_, rfl, _⟩ | ⟨s, _, rfl, hname, hs⟩
    · exact hi
    · exact hi.del hname hs
  | copy h =>
    rcases copyTarget_cases h with ⟨_, rfl⟩ | ⟨s, _, rfl, _, ho⟩ | ⟨r, _, h⟩
    · exact hi
    · exact hi.shrink ho
    · exact hadd h

theorem Reachable.totalBlocks (h : Reachable raid₀ raid) : raid.totalBlocks = raid₀.totalBlocks := by
  obtain ⟨raid₁, h₁, hrun⟩ := h
  rw [formatRaid_returns] at h₁
  induction hrun with
  | refl => rw [h₁, formatted]
  | tail _ hstep ih => rw [tableStep_totalBlocks hstep, ih]

theorem Reachable.inv (hn : n ≤ maxDisks) (ht : n * 256 ≤ raid₀.totalBlocks.toNat)
    (h0 : raid₀.numFiles = 0) (h : Reachable raid₀ raid) : TableInv raid := by
  obtain ⟨raid₁, h₁, hrun⟩ := h
  induction hrun with
  | refl => exact tableInv_format raid₀ h0 h₁
  | tail hrun hstep ih =>
    have htotal := Reachable.totalBlocks ⟨raid₁, h₁, hrun⟩
    exact tableStep_inv hn (by rwa [htotal]) hstep ih

structure NoWrap [NeZero n] (raid : NvmeRaid n) : Prop where
  rightFree : (rightFreeBlock raid).toNat ≤ raid.totalBlocks.toNat
  newEnd : ∀ blsize, blsize ≤ rightFreeBlocks raid →
    (rightFreeBlock raid).toNat + blsize.toNat < 2 ^ 64
  length : ∀ s, (raid.file s).startBlock.toNat ≤ (raid.file s).endBlock.toNat
  roundUp : ∀ o : UInt64, o.toNat / sectorLength + 1 < 2 ^ 64
  overwrite : ∀ s o, o ≤ fileSize (raid.file s) →
    (raid.file s).startBlock.toNat + (originBlocks o).toNat < 2 ^ 64

theorem reachable_invariant (hn : n ≤ maxDisks)
    (ht : n * superSectorNum ≤ raid₀.totalBlocks.toNat) (h0 : raid₀.numFiles = 0)
    (h : Reachable raid₀ raid) : TableInv raid ∧ NoWrap raid := by
  have hi := h.inv hn ht h0
  have ht' : n * 256 ≤ raid.totalBlocks.toNat := by rwa [h.totalBlocks]
  refine ⟨hi, hi.rightFreeBlock_le hn ht', fun blsize hb => ?_, hi.startBlock_le, fun o => ?_,
    fun s o ho => ?_⟩
  · exact (hi.rightFreeBlock_add_le hn ht' hb).trans_lt raid.totalBlocks.toNat_lt
  · have := o.toNat_lt
    simp only [sectorLength]
    omega
  · exact (originBlocks_le (hi.startBlock_le s) ho).trans_lt (raid.file s).endBlock.toNat_lt

def NvmeRaid.plus (raid : NvmeRaid n) (name : Name) (blsize : UInt64) : NvmeRaid n :=
  ((addFile raid name blsize).dry fun _ => default).2.2

theorem NvmeRaid.plus_returns (raid : NvmeRaid n) (name : Name) (blsize : UInt64) :
    ∃ ret, (addFile raid name blsize).Returns (ret, raid.plus name blsize) :=
  ⟨_, Prog.returns_dry (fun _ => default) _⟩

theorem Reachable.plus (h : Reachable raid₀ raid) (name : Name) (blsize : UInt64) :
    Reachable raid₀ (raid.plus name blsize) := by
  obtain ⟨raid₁, h₁, hrun⟩ := h
  obtain ⟨ret, hadd⟩ := raid.plus_returns name blsize
  exact ⟨raid₁, h₁, hrun.tail (.add hadd)⟩

def oneFileRaid (n : ℕ) [NeZero n] (blsize : UInt64) : NvmeRaid n :=
  ((addFile (formatted (attached fun _ => 1024)) (fun _ => 65) blsize).dry fun _ => default).2.2

theorem oneFileRaid_added (n : ℕ) [NeZero n] (blsize : UInt64) :
    ∃ ret, (addFile (formatted (attached fun _ : Fin n => 1024)) (fun _ => 65) blsize).Returns
      (ret, oneFileRaid n blsize) :=
  NvmeRaid.plus_returns _ _ _

theorem oneFileRaid_reachable (n : ℕ) [NeZero n] (blsize : UInt64) :
    Reachable (attached fun _ : Fin n => 1024) (oneFileRaid n blsize) := by
  have hformatted : Reachable (attached fun _ : Fin n => 1024) (formatted (attached fun _ => 1024)) :=
    ⟨_, formatRaid_returns.mpr rfl, .refl⟩
  exact hformatted.plus _ blsize

theorem reachable_invariant_oneFileRaid :
    (TableInv (oneFileRaid 1 3) ∧ NoWrap (oneFileRaid 1 3)) ∧ (oneFileRaid 1 3).numFiles = 1 :=
  ⟨reachable_invariant (by decide) (by decide) rfl (oneFileRaid_reachable 1 3), by decide +kernel⟩

end runs

end PcapReplay
