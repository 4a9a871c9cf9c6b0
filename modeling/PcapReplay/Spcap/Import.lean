import PcapReplay.Spcap.Buffers
import Mathlib.Data.Fintype.EquivFin

/-! A whole import: where `initSpcap` puts the cursors, when the import comes to its end, and what
it has stored then. -/

namespace PcapReplay
open Spcap
variable {n : ℕ} [NeZero n]

def Spcap.place (sp : Spcap n) (i : ℕ) : Spcap n :=
  { sp with
    buffs := Function.update sp.buffs (initDisk sp.file.startBlock i) (some fun _ => 0)
    currPtr := Function.update sp.currPtr (initDisk sp.file.startBlock i) 0
    dataWrote := Function.update sp.dataWrote (initDisk sp.file.startBlock i) 0
    curlba := Function.update sp.curlba (initDisk sp.file.startBlock i)
      (initLba n sp.file.startBlock i) }

theorem initLoop_eq (is : List ℕ) (sp : Spcap n) :
    initLoop (fun _ => true) is sp = (0, is.foldl Spcap.place sp) := by
  induction is generalizing sp with
  | nil => rfl
  | cons i is ih =>
    rw [List.foldl_cons, ← ih]
    rfl

theorem foldl_place_frame (is : List ℕ) (sp : Spcap n) :
    (is.foldl Spcap.place sp).file = sp.file ∧ (is.foldl Spcap.place sp).wrote = sp.wrote := by
  induction is generalizing sp with
  | nil => exact ⟨rfl, rfl⟩
  | cons i is ih => exact ih (sp.place i)

theorem foldl_place_of_not {d : Fin n} (is : List ℕ) (sp : Spcap n)
    (h : ∀ i ∈ is, initDisk sp.file.startBlock i ≠ d) :
    (is.foldl Spcap.place sp).buffs d = sp.buffs d ∧
      (is.foldl Spcap.place sp).currPtr d = sp.currPtr d ∧
      (is.foldl Spcap.place sp).dataWrote d = sp.dataWrote d ∧
      (is.foldl Spcap.place sp).curlba d = sp.curlba d := by
  induction is generalizing sp with
  | nil => exact ⟨rfl, rfl, rfl, rfl⟩
  | cons i is ih =>
    have hne : d ≠ initDisk sp.file.startBlock i := fun he => h i List.mem_cons_self he.symm
    have hrest := ih (sp.place i) fun j hj => h j (List.mem_cons_of_mem i hj)
    simpa [Spcap.place, hne] using hrest

theorem foldl_place_of_mem {d : Fin n} (is : List ℕ) (sp : Spcap n)
    (h : ∃ i ∈ is, initDisk sp.file.startBlock i = d) :
    (is.foldl Spcap.place sp).buffs d = some (fun _ => 0) ∧
      (is.foldl Spcap.place sp).currPtr d = 0 ∧ (is.foldl Spcap.place sp).dataWrote d = 0 ∧
      ∃ i ∈ is, initDisk sp.file.startBlock i = d ∧
        (is.foldl Spcap.place sp).curlba d = initLba n sp.file.startBlock i := by
  induction is generalizing sp with
  | nil => simp at h
  | cons i is ih =>
    rw [List.foldl_cons]
    by_cases hlater : ∃ j ∈ is, initDisk sp.file.startBlock j = d
    · obtain ⟨h₁, h₂, h₃, j, hj, h₄⟩ := ih (sp.place i) hlater
      exact ⟨h₁, h₂, h₃, j, List.mem_cons_of_mem i hj, h₄⟩
    · -- the last cursor placed on `d` is the one of `i`
      obtain ⟨j, hj, hd⟩ := h
      have hji : j = i := by
        rcases List.mem_cons.mp hj with rfl | hj
        · rfl
        · exact absurd ⟨j, hj, hd⟩ hlater
      subst hji
      obtain ⟨h₁, h₂, h₃, h₄⟩ := foldl_place_of_not is (sp.place j)
        fun k hk hkd => hlater ⟨k, hk, hkd⟩
      rw [h₁, h₂, h₃, h₄]
      subst hd
      exact ⟨by simp [Spcap.place], by simp [Spcap.place], by simp [Spcap.place], j,
        List.mem_cons_self, rfl, by simp [Spcap.place]⟩

def initial (file : MetaFile) : Spcap n :=
  (initSpcap (fun _ => true) { file with endBlock := file.startBlock }).2

def cursors (n : ℕ) [NeZero n] (file : MetaFile) : Fin n → UInt64 := (initial file).curlba

def Covers (n : ℕ) [NeZero n] (startBlock : UInt64) : Prop :=
  ∀ d : Fin n, ∃ i < n, initDisk startBlock i = d

theorem Covers.exists_mem {startBlock : UInt64} (h : Covers n startBlock) (d : Fin n) :
    ∃ i ∈ List.range n, initDisk startBlock i = d := by
  obtain ⟨i, hi, hd⟩ := h d
  exact ⟨i, List.mem_range.mpr hi, hd⟩

theorem Covers.injOn {startBlock : UInt64} (h : Covers n startBlock) {i j : ℕ} (hi : i < n)
    (hj : j < n) (hij : (initDisk startBlock i : Fin n) = initDisk startBlock j) : i = j := by
  have hsurj : Function.Surjective fun i : Fin n => (initDisk startBlock i : Fin n) := by
    intro d
    obtain ⟨i, hi, hd⟩ := h d
    exact ⟨⟨i, hi⟩, hd⟩
  have hinj := Finite.injective_iff_surjective.mpr hsurj
  exact congrArg Fin.val (@hinj ⟨i, hi⟩ ⟨j, hj⟩ hij)

theorem initial_eq (file : MetaFile) : (initial file : Spcap n) =
    (List.range n).foldl Spcap.place (blank { file with endBlock := file.startBlock }) := by
  rw [initial, initSpcap, initLoop_eq]

theorem initial_frame (file : MetaFile) :
    (initial file : Spcap n).file = { file with endBlock := file.startBlock } ∧
      (initial file : Spcap n).wrote = [] := by
  rw [initial_eq]
  exact foldl_place_frame (List.range n) (blank { file with endBlock := file.startBlock })

theorem cursors_eq {file : MetaFile} (h : Covers n file.startBlock) {i : ℕ} (hi : i < n) :
    cursors n file (initDisk file.startBlock i) = initLba n file.startBlock i := by
  obtain ⟨_, _, _, j, hj, hd, hlba⟩ := foldl_place_of_mem (List.range n)
    (blank { file with endBlock := file.startBlock }) (h.exists_mem (initDisk file.startBlock i))
  rw [cursors, initial_eq, hlba, h.injOn (List.mem_range.mp hj) hi hd]
  rfl

theorem initial_holds {file : MetaFile} (h : Covers n file.startBlock) :
    Holds (initial file) (initial file : Spcap n) fun _ => [] := by
  have hplace : ∀ d, (initial file : Spcap n).buffs d = some (fun _ => 0) ∧
      (initial file : Spcap n).currPtr d = 0 ∧ (initial file : Spcap n).dataWrote d = 0 := by
    intro d
    rw [initial_eq]
    obtain ⟨h₁, h₂, h₃, _⟩ := foldl_place_of_mem (List.range n)
      (blank { file with endBlock := file.startBlock }) (h.exists_mem d)
    exact ⟨h₁, h₂, h₃⟩
  exact ⟨rfl, rfl, rfl, fun d => ⟨_, (hplace d).1, fun _ => rfl⟩, fun d => (hplace d).2.1,
    fun d => (hplace d).2.2, fun d => Nat.zero_le _⟩

theorem initial_uncovered {file : MetaFile} {d : Fin n}
    (h : ∀ i < n, (initDisk file.startBlock i : Fin n) ≠ d) :
    (initial file : Spcap n).buffs d = none := by
  rw [initial_eq]
  exact (foldl_place_of_not (List.range n) (blank { file with endBlock := file.startBlock })
    fun i hi => h i (List.mem_range.mp hi)).1

section null
variable {n : ℕ} {sp sp' : Spcap n} {d e : Fin n}

theorem Spcap.put_null {k : ℕ} {payload : ℕ → UInt8} (h : sp.put e k payload = some sp')
    (hd : sp.buffs d = none) : sp'.buffs d = none := by
  unfold Spcap.put at h
  cases hb : sp.buffs e with
  | none => simp [hb] at h
  | some buff =>
    have hne : d ≠ e := fun hde => by simp [← hde, hd] at hb
    simp only [hb] at h
    split_ifs at h
    obtain rfl := Option.some.inj h
    simpa [hne] using hd

theorem Spcap.store_keeps {back : ℕ} (h : sp.store e back = some sp') :
    sp'.buffs = sp.buffs ∧ sp'.dataWrote = sp.dataWrote := by
  unfold Spcap.store at h
  cases hb : sp.buffs e with
  | none => simp [hb] at h
  | some buff =>
    simp only [hb] at h
    by_cases hin : sp.currPtr e < back ∨ buffSize < sp.currPtr e - back + superSectorLength
    · rw [if_pos hin] at h
      simp at h
    · rw [if_neg hin] at h
      obtain rfl := Option.some.inj h
      exact ⟨rfl, rfl⟩

theorem writeBuff_cases {size : ℕ} {payload : ℕ → UInt8}
    (h : writeBuff sp e size payload = some sp') :
    ∃ toWrite sp₁ sp₂, sp.put e toWrite payload = some sp₁ ∧
      (sp₁ = sp₂ ∨ sp₁.store e superSectorLength = some sp₂) ∧
      (sp₂ = sp' ∨ ∃ rest < size, writeBuff sp₂ e rest payload = some sp') := by
  have hused : sp.dataWrote e % superSectorLength < superSectorLength := Nat.mod_lt _ (by decide)
  rw [writeBuff] at h
  obtain ⟨sp₁, h₁, h⟩ := Option.bind_eq_some_iff.mp h
  obtain ⟨sp₂, h₂, h₃⟩ := Option.bind_eq_some_iff.mp h
  refine ⟨_, sp₁, sp₂, h₁, ?_, ?_⟩
  · by_cases hz : (if sp₁.dataWrote e = 0 then 1 else 0) % superSectorLength ≠ 0
    · rw [if_pos hz] at h₂
      exact Or.inr h₂
    · rw [if_neg hz] at h₂
      exact Or.inl (Option.some.inj h₂)
  · by_cases hz : size - (if superSectorLength < sp.dataWrote e % superSectorLength + size then
        superSectorLength - sp.dataWrote e % superSectorLength else size) = 0
    · rw [dif_pos hz] at h₃
      exact Or.inl (Option.some.inj h₃)
    · rw [dif_neg hz] at h₃
      refine Or.inr ⟨_, ?_, h₃⟩
      split_ifs at hz ⊢ <;> omega

theorem writeBuff_null {size : ℕ} {payload : ℕ → UInt8}
    (h : writeBuff sp e size payload = some sp') (hd : sp.buffs d = none) : sp'.buffs d = none := by
  induction size using Nat.strong_induction_on generalizing sp with
  | _ size ih =>
    obtain ⟨_, sp₁, sp₂, h₁, h₂, h₃⟩ := writeBuff_cases h
    have hd₁ := Spcap.put_null h₁ hd
    have hd₂ : sp₂.buffs d = none := by
      rcases h₂ with rfl | h₂
      · exact hd₁
      · rwa [(Spcap.store_keeps h₂).1]
    rcases h₃ with rfl | ⟨rest, hlt, h₃⟩
    · exact hd₂
    · exact ih rest hlt h₃ hd₂

theorem writeBuff_of_null {size : ℕ} {payload : ℕ → UInt8} (hd : sp.buffs d = none) :
    writeBuff sp d size payload = none := by
  rw [writeBuff, Spcap.put]
  simp [hd]

end null

theorem foldlM_some_keeps {α σ : Type} {f : σ → α → Option σ} {I : σ → Prop}
    (hf : ∀ s x s', f s x = some s' → I s → I s') {l : List α} {s s' : σ}
    (h : l.foldlM f s = some s') (hs : I s) : I s' := by
  induction l generalizing s with
  | nil => rwa [← Option.some.inj h]
  | cons x xs ih =>
    rw [List.foldlM_cons] at h
    obtain ⟨s₁, h₁, h₂⟩ := Option.bind_eq_some_iff.mp h
    exact ih h₂ (hf s x s₁ h₁ hs)

theorem import_of_null {sp : Spcap n} {d : Fin n} (hd : sp.buffs d = none) (pkts : List Packet) :
    (pkts.foldlM writePCAPPkt sp).bind freeSpcap = none := by
  by_contra hne
  obtain ⟨sp', hsome⟩ := Option.ne_none_iff_exists'.mp hne
  obtain ⟨sp₁, h₁, h₂⟩ := Option.bind_eq_some_iff.mp hsome
  obtain ⟨sp₂, h₃, _⟩ := Option.bind_eq_some_iff.mp h₂
  have hpkt : ∀ (s : Spcap n) p s', writePCAPPkt s p = some s' → s.buffs d = none → s'.buffs d = none := by
    intro s p s' hw hs
    obtain ⟨s₁, hw₁, hw₂⟩ := Option.bind_eq_some_iff.mp hw
    exact writeBuff_null hw₂ (writeBuff_null hw₁ hs)
  have hnull : sp₁.buffs d = none := foldlM_some_keeps hpkt h₁ hd
  -- up to the header for `d` itself
  obtain ⟨l, r, hlr⟩ := List.append_of_mem (List.mem_finRange d)
  rw [hlr, List.foldlM_append] at h₃
  obtain ⟨s₁, hw₁, hw₂⟩ := Option.bind_eq_some_iff.mp h₃
  have hheader : ∀ (s : Spcap n) e s', writeBuff s e headerLength (spcapHeader 0 0 0) = some s' →
      s.buffs d = none → s'.buffs d = none := fun s e s' hw hs => writeBuff_null hw hs
  have hnull₁ : s₁.buffs d = none := foldlM_some_keeps hheader hw₁ hnull
  rw [List.foldlM_cons, writeBuff_of_null hnull₁] at hw₂
  simp at hw₂

theorem importPcap_uncovered {file : MetaFile} (h : ¬ Covers n file.startBlock)
    (pkts : List Packet) : (importPcap (fun _ => true) file pkts : Option (Spcap n)) = none := by
  obtain ⟨d, hd⟩ : ∃ d : Fin n, ∀ i < n, initDisk file.startBlock i ≠ d := by
    simpa [Covers] using h
  exact import_of_null (initial_uncovered hd) pkts

theorem initLoop_cases (zmalloc : ℕ → Bool) (is : List ℕ) (sp : Spcap n) :
    ((initLoop zmalloc is sp).1 ≠ 0 ∧ ∃ d, (initLoop zmalloc is sp).2.buffs d = none) ∨
      initLoop zmalloc is sp = initLoop (fun _ => true) is sp := by
  induction is generalizing sp with
  | nil => exact Or.inr rfl
  | cons i is ih =>
    cases hi : zmalloc i with
    | false =>
      refine Or.inl ⟨?_, initDisk sp.file.startBlock i, ?_⟩
      · simp [initLoop, hi]
      · simp [initLoop, hi]
    | true =>
      have hstep : initLoop zmalloc (i :: is) sp = initLoop zmalloc is (sp.place i) := by
        simp only [initLoop, hi, if_true]
        rfl
      have hstep' : initLoop (fun _ => true) (i :: is) sp = initLoop (fun _ => true) is (sp.place i) := rfl
      rw [hstep, hstep']
      exact ih (sp.place i)

theorem initLoop_code (zmalloc : ℕ → Bool) (is : List ℕ) (sp : Spcap n) :
    (initLoop zmalloc is sp).1 = if ∀ i ∈ is, zmalloc i then 0 else -1 := by
  induction is generalizing sp with
  | nil => rfl
  | cons i is ih =>
    unfold initLoop
    cases hi : zmalloc i with
    | false =>
      have hnot : ¬ ∀ j ∈ i :: is, zmalloc j := fun h => absurd (h i List.mem_cons_self) (by simp [hi])
      rw [if_neg hnot]
      rfl
    | true =>
      have hiff : (∀ j ∈ i :: is, zmalloc j) ↔ ∀ j ∈ is, zmalloc j := by
        rw [List.forall_mem_cons]
        exact and_iff_right hi
      simp only [hiff, if_true]
      exact ih _

variable (n) in
theorem initSpcap_cases (zmalloc : ℕ → Bool) (file : MetaFile) :
    ((initSpcap zmalloc file : ℤ × Spcap n).1 ≠ 0 ∧
        ∃ d : Fin n, (initSpcap zmalloc file).2.buffs d = none) ∨
      (initSpcap zmalloc file : ℤ × Spcap n) = initSpcap (fun _ => true) file :=
  initLoop_cases zmalloc (List.range n) (blank file)

theorem importPcap_refused {zmalloc : ℕ → Bool} {file : MetaFile}
    (h : (initSpcap zmalloc { file with endBlock := file.startBlock } : ℤ × Spcap n).1 ≠ 0)
    (pkts : List Packet) : (importPcap zmalloc file pkts : Option (Spcap n)) = none := by
  rcases initSpcap_cases n zmalloc { file with endBlock := file.startBlock } with ⟨_, d, hd⟩ | heq
  · exact import_of_null hd pkts
  · rw [heq, initSpcap, initLoop_eq] at h
    exact absurd rfl h

theorem importPcap_granted {zmalloc : ℕ → Bool} {file : MetaFile} {pkts : List Packet} {sp : Spcap n}
    (h : importPcap zmalloc file pkts = some sp) : importPcap (fun _ => true) file pkts = some sp := by
  rcases initSpcap_cases n zmalloc { file with endBlock := file.startBlock } with ⟨_, d, hd⟩ | heq
  · have hnone : importPcap zmalloc file pkts = none := import_of_null hd pkts
    rw [hnone] at h
    exact absurd h (by simp)
  · unfold importPcap at h ⊢
    dsimp only at h ⊢
    rwa [← heq]

def dirtyDisks (n : ℕ) [NeZero n] (pkts : List Packet) : List (Fin n) :=
  (List.finRange n).filter fun d => (captured pkts d).length % superSectorLength ≠ 0

structure Imported (file : MetaFile) (pkts : List Packet) (sp : Spcap n) : Prop where
  file_eq : sp.file = advance { file with endBlock := file.startBlock } (dirtyDisks n pkts).length
  wrote_eq : ∃ data : Fin n → Fin superSectorLength → UInt8,
    sp.wrote = (dirtyDisks n pkts).map (fun d => ⟨d, cursors n file d, data d⟩) ∧
    ∀ d, (captured pkts d).length < superSectorLength →
      data d = fun a : Fin superSectorLength => (captured pkts d).getD a 0

theorem importPcap_covered {file : MetaFile} (h : Covers n file.startBlock) (pkts : List Packet) :
    ((captured pkts : Streams n).Fit →
      ∃ sp, (importPcap (fun _ => true) file pkts : Option (Spcap n)) = some sp ∧
        Imported file pkts sp) ∧
    (¬ (captured pkts : Streams n).Fit →
      (importPcap (fun _ => true) file pkts : Option (Spcap n)) = none) := by
  have hpkts := follows_foldlM (follows_writePCAPPkt (initial file : Spcap n))
    (fun S p => S.grows_append _ p.record) pkts fun _ => []
  have hgrow : (streams pkts : Streams n).Grows (captured pkts) := fun d => by simp [captured]
  have hall := hpkts.bind (follows_headers (initial file) (streams pkts)) hgrow (initial file)
    (initial_holds h)
  have himport : (importPcap (fun _ => true) file pkts : Option (Spcap n)) =
      ((pkts.foldlM writePCAPPkt (initial file)).bind fun sp => (List.finRange n).foldlM
        (fun sp d => writeBuff sp d headerLength (spcapHeader 0 0 0)) sp).bind flushBuffs := by
    rw [Option.bind_assoc]
    rfl
  dsimp only at hall
  rw [himport]
  refine ⟨fun hfit => ?_, fun hfit => by rw [hall.2 hfit, Option.bind_none]⟩
  obtain ⟨sp, hsp, hholds⟩ := hall.1 hfit
  choose buff hbuff hcontent using hholds.buff
  have hready : Ready sp buff := ⟨hbuff, funext fun d => (hholds.ptr d).trans (hholds.data d).symm,
    fun d => (hholds.data d).le.trans (hfit d)⟩
  obtain ⟨sp', he, hw, hf⟩ := flush_spec (List.finRange n) (List.nodup_finRange n) hready
  have hdirty : (List.finRange n).filter sp.Dirty = dirtyDisks n pkts := by
    unfold dirtyDisks Dirty
    simp only [hholds.data]
    rfl
  rw [hdirty] at hw hf
  refine ⟨sp', by rw [hsp, Option.bind_some]; exact he, ⟨?_, fun d => (sp.pending buff d).data, ?_,
    fun d hd => ?_⟩⟩
  · rw [hf, hholds.file, (initial_frame file).1]
  · have hpending : ∀ d ∈ dirtyDisks n pkts,
        sp.pending buff d = ⟨d, cursors n file d, (sp.pending buff d).data⟩ := by
      intro d _
      rw [cursors, ← hholds.curlba]
      rfl
    rw [hw, hholds.wrote, (initial_frame file).2, List.nil_append, List.map_congr_left hpending]
  · have hlen : sp.dataWrote d = (captured pkts d).length := hholds.data d
    funext a
    show buff d (sp.dataWrote d - sp.dataWrote d % superSectorLength + a) = _
    rw [hlen, Nat.mod_eq_of_lt hd, Nat.sub_self, Nat.zero_add, hcontent d hd]
    rfl

end PcapReplay
