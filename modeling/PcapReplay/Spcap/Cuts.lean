import PcapReplay.Spcap.Records

/-! Where `writeBuff` puts the bytes of a call, and when it does not matter how the data is cut. -/

namespace PcapReplay
open Spcap
variable {n : ℕ}

theorem copied_congr {buff p q : ℕ → UInt8} {w k : ℕ} (h : ∀ i < k, p i = q i) :
    copied buff w k p = copied buff w k q := by
  funext a
  unfold copied
  split_ifs with ha
  · exact h (a - w) (by omega)
  · rfl

theorem copied_inj {buff p q : ℕ → UInt8} {w k : ℕ} (h : copied buff w k p = copied buff w k q) {i : ℕ}
    (hi : i < k) : p i = q i := by
  have hat := congrFun h (w + i)
  unfold copied at hat
  have hin : w ≤ w + i ∧ w + i < w + k := by omega
  rwa [if_pos hin, if_pos hin, Nat.add_sub_cancel_left] at hat

theorem copied_copied (buff p q : ℕ → UInt8) (w k m : ℕ) :
    copied (copied buff w k p) (w + k) m q =
      copied buff w (k + m) fun i => if i < k then p i else q (i - k) := by
  funext a
  simp only [copied]
  rcases Nat.lt_or_ge a (w + k) with hlt | hge
  · have hnot : ¬ (w + k ≤ a ∧ a < w + k + m) := by omega
    rw [if_neg hnot]
    by_cases hw : w ≤ a
    · have hin : w ≤ a ∧ a < w + k := by omega
      have hall : w ≤ a ∧ a < w + (k + m) := by omega
      have hfirst : a - w < k := by omega
      rw [if_pos hin, if_pos hall, if_pos hfirst]
    · rw [if_neg fun h => hw h.1, if_neg fun h => hw h.1]
  · have hnot : ¬ (w ≤ a ∧ a < w + k) := by omega
    have hnext : ¬ a - w < k := by omega
    have hsub : a - (w + k) = a - w - k := by omega
    have hiff : (w + k ≤ a ∧ a < w + k + m) ↔ (w ≤ a ∧ a < w + (k + m)) := by omega
    simp only [if_neg hnot, if_neg hnext, hsub, hiff]

def sourceIndex (w i : ℕ) : ℕ := if i < room w then i else (i - room w) % superSectorLength

theorem sourceIndex_of_lt {w i : ℕ} (h : i < room w) : sourceIndex w i = i := if_pos h

theorem sourceIndex_le (w i : ℕ) : sourceIndex w i ≤ i := by
  have hmod := Nat.mod_le (i - room w) superSectorLength
  unfold sourceIndex
  split_ifs <;> omega

theorem sourceIndex_boundary (w i : ℕ) : sourceIndex (w + room w) i = i % superSectorLength := by
  rw [sourceIndex, room_boundary]
  split_ifs with h
  · exact (Nat.mod_eq_of_lt h).symm
  · exact (Nat.mod_eq_sub_mod (Nat.not_lt.mp h)).symm

theorem writeBuff_filled {sp : Spcap n} {d : Fin n} {buff : ℕ → UInt8} (hb : sp.buffs d = some buff)
    (hp : sp.currPtr d = sp.dataWrote d) {size : ℕ} (payload : ℕ → UInt8)
    (hpos : 0 < sp.dataWrote d + size) (hfit : sp.dataWrote d + size ≤ buffSize) :
    writeBuff sp d size payload =
      some (sp.filled d (copied buff (sp.dataWrote d) size
        fun i => payload (sourceIndex (sp.dataWrote d) i)) (sp.dataWrote d + size)) := by
  induction size using Nat.strong_induction_on generalizing sp buff with
  | _ size ih =>
    have hroom := room_pos (sp.dataWrote d)
    by_cases hle : size ≤ room (sp.dataWrote d)
    · have htw := toWrite_eq (sp.dataWrote d) size
      rw [if_pos hle] at htw
      rw [writeBuff_step hb hp htw hpos hfit, if_pos (Nat.sub_self size)]
      have hsource : ∀ i < size, payload i = payload (sourceIndex (sp.dataWrote d) i) := by
        intro i hi
        rw [sourceIndex_of_lt (by omega)]
      rw [copied_congr hsource]
    · have htw := toWrite_eq (sp.dataWrote d) size
      rw [if_neg hle] at htw
      rw [writeBuff_step hb hp htw hpos (by omega), if_neg (by omega)]
      -- the rest begins at a boundary
      generalize hk : room (sp.dataWrote d) = k at *
      generalize hfirst : copied buff (sp.dataWrote d) k payload = first
      rw [ih (size - k) (by omega) (filled_buffs sp d first (sp.dataWrote d + k)) (by simp)
        (by rw [filled_dataWrote]; omega) (by rw [filled_dataWrote]; omega), filled_dataWrote,
        filled_filled, ← hfirst, copied_copied]
      have hsize : k + (size - k) = size := by omega
      have hsource : ∀ i < size, (if i < k then payload i else
          payload (sourceIndex (sp.dataWrote d + k) (i - k))) =
            payload (sourceIndex (sp.dataWrote d) i) := by
        intro i _
        rw [← hk, sourceIndex_boundary, sourceIndex]
        split_ifs <;> rfl
      rw [hsize, copied_congr hsource, Nat.add_assoc, hsize]

theorem writeBuff_empty {sp : Spcap n} {d : Fin n} (hp : sp.currPtr d = 0) (hw : sp.dataWrote d = 0)
    (payload : ℕ → UInt8) : writeBuff sp d 0 payload = none := by
  cases hb : sp.buffs d with
  | none => exact writeBuff_of_null hb
  | some buff =>
    -- nothing is counted, and the flush would begin in front of the buffer
    rw [writeBuff]
    simp [Spcap.put, Spcap.store, hb, hp, hw]

theorem writeBuff_eq_some {sp sp' : Spcap n} {d : Fin n} (hp : sp.currPtr d = sp.dataWrote d) {size : ℕ}
    {payload : ℕ → UInt8} :
    writeBuff sp d size payload = some sp' ↔
      ∃ buff, sp.buffs d = some buff ∧ 0 < sp.dataWrote d + size ∧ sp.dataWrote d + size ≤ buffSize ∧
        sp' = sp.filled d (copied buff (sp.dataWrote d) size
          fun i => payload (sourceIndex (sp.dataWrote d) i)) (sp.dataWrote d + size) := by
  constructor
  · intro h
    cases hb : sp.buffs d with
    | none => simp [writeBuff_of_null hb] at h
    | some buff =>
      rcases Nat.eq_zero_or_pos (sp.dataWrote d + size) with hzero | hpos
      · obtain ⟨hw, rfl⟩ := Nat.add_eq_zero_iff.mp hzero
        rw [writeBuff_empty (hp.trans hw) hw] at h
        simp at h
      · have hfit : sp.dataWrote d + size ≤ buffSize := by
          by_contra hfar
          rw [(writeBuff_spec hb hp payload hpos).1 (Nat.not_le.mp hfar)] at h
          simp at h
        rw [writeBuff_filled hb hp payload hpos hfit] at h
        exact ⟨buff, rfl, hpos, hfit, (Option.some.inj h).symm⟩
  · rintro ⟨buff, hb, hpos, hfit, rfl⟩
    exact writeBuff_filled hb hp payload hpos hfit

inductive Written [NeZero n] : Spcap n → Prop
  | init (zmalloc : ℕ → Bool) (file : MetaFile) : Written (initSpcap zmalloc file).2
  | write {sp sp' : Spcap n} (d : Fin n) (size : ℕ) (payload : ℕ → UInt8) :
      Written sp → writeBuff sp d size payload = some sp' → Written sp'

def Level (sp : Spcap n) : Prop := sp.currPtr = sp.dataWrote

theorem Level.filled {sp : Spcap n} (h : Level sp) (d : Fin n) (buff : ℕ → UInt8) (w : ℕ) :
    Level (sp.filled d buff w) := by
  unfold Level Spcap.filled
  rw [h]

theorem Level.writeBuff {sp sp' : Spcap n} (hl : Level sp) {d : Fin n} {size : ℕ} {payload : ℕ → UInt8}
    (h : writeBuff sp d size payload = some sp') : Level sp' := by
  obtain ⟨buff, _, _, _, rfl⟩ := (writeBuff_eq_some (congrFun hl d)).mp h
  exact hl.filled d _ _

variable [NeZero n]

theorem initLoop_counters (zmalloc : ℕ → Bool) (is : List ℕ) {sp : Spcap n} (hp : sp.currPtr = fun _ => 0)
    (hw : sp.dataWrote = fun _ => 0) :
    (initLoop zmalloc is sp).2.currPtr = (fun _ => 0) ∧
      (initLoop zmalloc is sp).2.dataWrote = fun _ => 0 := by
  have hzero : ∀ d : Fin n, Function.update (fun _ => 0) d 0 = fun _ : Fin n => 0 := fun d =>
    Function.update_eq_self d _
  induction is generalizing sp with
  | nil => exact ⟨hp, hw⟩
  | cons i is ih =>
    unfold initLoop
    cases zmalloc i with
    | false => exact ⟨by simp only [hp, hzero]; rfl, hw⟩
    | true =>
      apply ih
      · simp only [hp, hzero]
      · simp only [hw, hzero]

theorem initSpcap_counters (zmalloc : ℕ → Bool) (file : MetaFile) :
    (initSpcap zmalloc file : ℤ × Spcap n).2.currPtr = (fun _ => 0) ∧
      (initSpcap zmalloc file : ℤ × Spcap n).2.dataWrote = fun _ => 0 :=
  initLoop_counters zmalloc (List.range n) rfl rfl

theorem initSpcap_level (zmalloc : ℕ → Bool) (file : MetaFile) :
    Level (initSpcap zmalloc file : ℤ × Spcap n).2 := by
  obtain ⟨hp, hw⟩ := initSpcap_counters (n := n) zmalloc file
  exact hp.trans hw.symm

theorem Written.level {sp : Spcap n} (h : Written sp) : Level sp := by
  induction h with
  | init zmalloc file => exact initSpcap_level zmalloc file
  | write d size payload _ hw ih => exact ih.writeBuff hw

def bytesAt (l : List UInt8) (i : ℕ) : UInt8 := l.getD i 0

def SameCut (sp : Spcap n) (d : Fin n) (a b : List UInt8) : Prop :=
  ∃ sp', writeBuff sp d (a ++ b).length (bytesAt (a ++ b)) = some sp' ∧
    ((writeBuff sp d a.length (bytesAt a)).bind fun sp => writeBuff sp d b.length (bytesAt b)) =
      some sp'

omit [NeZero n] in
theorem Spcap.filled_inj {sp : Spcap n} {d : Fin n} {buff buff' : ℕ → UInt8} {w : ℕ}
    (h : sp.filled d buff w = sp.filled d buff' w) : buff = buff' := by
  have hat := congrFun (congrArg Spcap.buffs h) d
  simpa [Spcap.filled] using hat

omit [NeZero n] in
theorem writeBuff_twice {sp : Spcap n} {d : Fin n} {buff : ℕ → UInt8} (hb : sp.buffs d = some buff)
    (hp : sp.currPtr d = sp.dataWrote d) {k m : ℕ} (p q : ℕ → UInt8) (hk : 0 < k)
    (hfit : sp.dataWrote d + (k + m) ≤ buffSize) :
    ((writeBuff sp d k p).bind fun sp => writeBuff sp d m q) =
      some (sp.filled d (copied buff (sp.dataWrote d) (k + m) fun i =>
        if i < k then p (sourceIndex (sp.dataWrote d) i)
        else q (sourceIndex (sp.dataWrote d + k) (i - k))) (sp.dataWrote d + (k + m))) := by
  rw [writeBuff_filled hb hp p (by omega) (by omega), Option.bind_some]
  generalize hfirst : copied buff (sp.dataWrote d) k (fun i => p (sourceIndex (sp.dataWrote d) i)) = first
  rw [writeBuff_filled (filled_buffs sp d first (sp.dataWrote d + k)) (by simp) q
    (by rw [filled_dataWrote]; omega) (by rw [filled_dataWrote]; omega), filled_dataWrote, filled_filled,
    ← hfirst, copied_copied, Nat.add_assoc]

def Agree (w : ℕ) (a b : List UInt8) : Prop :=
  ∀ j < b.length, bytesAt (a ++ b) (sourceIndex w (a.length + j)) =
    bytesAt b (sourceIndex (w + a.length) j)

omit [NeZero n] in
theorem bytesAt_append_left (a b : List UInt8) {i : ℕ} (h : i < a.length) :
    bytesAt (a ++ b) i = bytesAt a i := List.getD_append a b 0 i h

omit [NeZero n] in
theorem bytesAt_append_right (a b : List UInt8) (j : ℕ) : bytesAt (a ++ b) (a.length + j) = bytesAt b j := by
  unfold bytesAt
  rw [List.getD_append_right a b 0 _ (Nat.le_add_right _ _), Nat.add_sub_cancel_left]

omit [NeZero n] in
/-- Nothing changes where no boundary is crossed. -/
theorem agree_of_fits {w : ℕ} {a b : List UInt8} (h : (a ++ b).length ≤ room w) : Agree w a b := by
  intro j hj
  have hsum : a.length + b.length ≤ room w := by rwa [List.length_append] at h
  have hnext : j < room (w + a.length) := by
    have hused : w % superSectorLength < superSectorLength := Nat.mod_lt _ (by decide)
    simp only [room, superSectorLength_eq] at *
    omega
  rw [sourceIndex_of_lt (by omega), sourceIndex_of_lt hnext, bytesAt_append_right]

omit [NeZero n] in
theorem sameCut_iff {sp : Spcap n} {d : Fin n} (hp : sp.currPtr d = sp.dataWrote d) {a b : List UInt8}
    (ha : a ≠ []) :
    SameCut sp d a b ↔ sp.buffs d ≠ none ∧ sp.dataWrote d + (a ++ b).length ≤ buffSize ∧
      Agree (sp.dataWrote d) a b := by
  have hk : 0 < a.length := List.length_pos_iff.mpr ha
  have hlength : (a ++ b).length = a.length + b.length := List.length_append
  constructor
  · rintro ⟨sp', h₁, h₂⟩
    obtain ⟨buff, hb, _, hfit, rfl⟩ := (writeBuff_eq_some hp).mp h₁
    refine ⟨by simp [hb], hfit, fun j hj => ?_⟩
    rw [hlength] at hfit h₂
    rw [writeBuff_twice hb hp (bytesAt a) (bytesAt b) hk hfit] at h₂
    have hbuff := copied_inj (filled_inj (Option.some.inj h₂)) (Nat.add_lt_add_left hj a.length)
    have hnot : ¬ a.length + j < a.length := by omega
    rw [if_neg hnot, Nat.add_sub_cancel_left] at hbuff
    exact hbuff.symm
  · rintro ⟨hne, hfit, hagree⟩
    obtain ⟨buff, hb⟩ := Option.ne_none_iff_exists'.mp hne
    refine ⟨_, writeBuff_filled hb hp (bytesAt (a ++ b)) (by omega) hfit, ?_⟩
    rw [hlength] at hfit ⊢
    rw [writeBuff_twice hb hp (bytesAt a) (bytesAt b) hk hfit]
    have hbytes : ∀ i < a.length + b.length,
        (if i < a.length then bytesAt a (sourceIndex (sp.dataWrote d) i)
          else bytesAt b (sourceIndex (sp.dataWrote d + a.length) (i - a.length))) =
        bytesAt (a ++ b) (sourceIndex (sp.dataWrote d) i) := by
      intro i hi
      have hsource := sourceIndex_le (sp.dataWrote d) i
      split_ifs with hlt
      · rw [bytesAt_append_left a b (by omega)]
      · have hj := hagree (i - a.length) (by omega)
        rw [Nat.add_sub_cancel' (Nat.not_lt.mp hlt)] at hj
        exact hj.symm
    rw [copied_congr hbytes]

/-- Data may be cut anywhere if and only if it fits the buffer and what is put behind a boundary is
the same for both. -/
theorem writeBuff_append_iff {sp : Spcap n} (h : Written sp) (d : Fin n) {a b : List UInt8} (ha : a ≠ []) :
    SameCut sp d a b ↔ sp.buffs d ≠ none ∧ sp.dataWrote d + (a ++ b).length ≤ buffSize ∧
      Agree (sp.dataWrote d) a b :=
  sameCut_iff (congrFun h.level d) ha

def newFile : MetaFile := { name := fun _ => 65, startBlock := 256, endBlock := 256 }

theorem written_newFile : Written (initial newFile : Spcap n) := Written.init (fun _ => true) newFile

omit [NeZero n] in
theorem newFile_start (d : Fin 1) :
    (initial newFile : Spcap 1).buffs d = some (fun _ => 0) ∧
      (initial newFile : Spcap 1).dataWrote d = 0 := by
  have hcovers : Covers 1 newFile.startBlock := fun d => ⟨0, by decide, Subsingleton.elim _ _⟩
  have hholds := initial_holds hcovers
  obtain ⟨buff, hb, hempty⟩ := hholds.buff d
  rw [hempty (by decide)] at hb
  exact ⟨hb, hholds.data d⟩

omit [NeZero n] in
theorem writeBuff_append_two_bytes : SameCut (initial newFile : Spcap 1) 0 [1] [2] := by
  obtain ⟨hb, hw⟩ := newFile_start 0
  refine (writeBuff_append_iff written_newFile 0 (List.cons_ne_nil 1 [])).mpr ⟨by simp [hb], ?_, ?_⟩
  · rw [hw]
    decide
  · rw [hw]
    exact agree_of_fits (by decide)

omit [NeZero n] in
/-- The first byte of the payload takes the place of the last one, which is behind the boundary. -/
theorem writeBuff_append_split :
    Written (initial newFile : Spcap 1) ∧
      ¬ SameCut (initial newFile : Spcap 1) 0 (List.replicate superSectorLength 1) [2] := by
  refine ⟨written_newFile, fun h => ?_⟩
  obtain ⟨_, hw⟩ := newFile_start 0
  have hne : List.replicate superSectorLength (1 : UInt8) ≠ [] := by
    rw [Ne, List.replicate_eq_nil_iff]
    decide
  obtain ⟨_, _, hagree⟩ := (sameCut_iff (congrFun written_newFile.level 0) hne).mp h
  have hbyte := hagree 0 Nat.one_pos
  rw [hw, List.length_replicate] at hbyte
  have hone : sourceIndex 0 (superSectorLength + 0) = 0 := rfl
  have htwo : sourceIndex (0 + superSectorLength) 0 = 0 := rfl
  rw [hone, htwo, bytesAt_append_left _ _ (by rw [List.length_replicate]; decide)] at hbyte
  have hfirst : bytesAt (List.replicate superSectorLength 1) 0 = 1 :=
    List.getD_replicate 1 (by decide)
  rw [hfirst] at hbyte
  exact absurd hbyte (by decide)

end PcapReplay
