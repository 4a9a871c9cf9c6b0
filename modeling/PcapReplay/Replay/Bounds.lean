import PcapReplay.Replay.Tuples

/-! When the option parsers stay inside their arrays. -/

namespace PcapReplay
open Strtoul Tokens
variable {ports lcores : UInt32} {strsplit : Strsplit}

def Returns (r : Option (ℤ × Replay ports lcores)) : Prop := ∃ rc replay', r = some (rc, replay') ∧ rc ≤ 0

theorem readField_of_converts (hsplit : Splits strsplit) (side : Side) {field : Text}
    (h : FieldConverts strsplit field side.numVals) :
    readField strsplit side field = some (side.tuple (((strsplit field side.numVals ',').length : ℤ),
      (strsplit field side.numVals ',').map tokenVal)) := by
  have hn : side.numVals < 2 ^ 32 - 1 := by cases side <;> decide
  have hlen := hsplit.length_le field side.numVals ','
  unfold readField
  rw [← List.take_length (l := field)] at h hlen
  rw [strToUnsignedVals_of_converts hn hlen h, List.take_length]
  rfl

theorem readField_of_not (side : Side) {field : Text} (h : ¬ FieldConverts strsplit field side.numVals) :
    readField strsplit side field = none := by
  have hn : side.numVals < 2 ^ 32 - 1 := by cases side <;> decide
  unfold readField
  rw [← List.take_length (l := field)] at h
  rw [strToUnsignedVals_of_not hn h]
  rfl

inductive Comes (strsplit : Strsplit) (enabled : UInt32 → Bool) (side : Side) :
    List Text → ℕ → Replay ports lcores → Text → Prop
  | here (field : Text) (fields : List Text) (nTuples : ℕ) (replay : Replay ports lcores) :
      Comes strsplit enabled side (field :: fields) nTuples replay field
  | later {field f : Text} {fields : List Text} {nTuples : ℕ} {t : Tuple}
      {replay replay₁ : Replay ports lcores}
      (hread : readField strsplit side field = some (some t))
      (hstore : replay.storeTuple enabled side t = (0, replay₁)) (hroom : nTuples + 1 ≤ maxTuples)
      (h : Comes strsplit enabled side fields (nTuples + 1) replay₁ f) :
      Comes strsplit enabled side (field :: fields) nTuples replay f

def TuplesConvert (strsplit : Strsplit) (enabled : UInt32 → Bool) (side : Side) (arg : Text)
    (replay : Replay ports lcores) : Prop :=
  ∀ field, Comes strsplit enabled side (tupleTexts arg) 0 replay field →
    FieldConverts strsplit field side.numVals

theorem takeFields_isSome_iff (hsplit : Splits strsplit) (enabled : UInt32 → Bool) (side : Side) (done : Bool)
    (fields : List Text) (nTuples : ℕ) (replay : Replay ports lcores) :
    (takeFields strsplit enabled side done fields nTuples replay).isSome ↔
      ∀ field, Comes strsplit enabled side fields nTuples replay field →
        FieldConverts strsplit field side.numVals := by
  induction fields generalizing nTuples replay with
  | nil => exact iff_of_true rfl fun field h => by cases h
  | cons field fields ih =>
    by_cases hfield : FieldConverts strsplit field side.numVals
    · have hread := readField_of_converts hsplit side hfield
      generalize side.tuple _ = read at hread
      rw [takeFields, hread]
      cases read with
      | none =>
        refine iff_of_true rfl fun f h => ?_
        cases h with
        | here => exact hfield
        | later hread' => exact absurd (hread.symm.trans hread') (by simp)
      | some t =>
        dsimp only
        split_ifs with hcode hmany
        · refine iff_of_true rfl fun f h => ?_
          cases h with
          | here => exact hfield
          | later hread' hstore =>
            obtain rfl := Option.some.inj (Option.some.inj (hread.symm.trans hread'))
            exact absurd (congrArg Prod.fst hstore) hcode
        · refine iff_of_true rfl fun f h => ?_
          cases h with
          | here => exact hfield
          | later _ _ hroom => exact absurd hmany (Nat.not_lt.mpr hroom)
        · rw [not_not] at hcode
          rw [ih]
          constructor
          · intro hall f h
            cases h with
            | here => exact hfield
            | later hread' hstore _ h =>
              obtain rfl := Option.some.inj (Option.some.inj (hread.symm.trans hread'))
              rw [hstore] at hall
              exact hall f h
          · intro hall f h
            exact hall f (.later hread (Prod.ext hcode rfl) (Nat.not_lt.mp hmany) h)
    · rw [takeFields, readField_of_not side hfield]
      exact iff_of_false (by simp) fun hall => hfield (hall field (.here field fields nTuples replay))

theorem parseArg_returns_iff (hsplit : Splits strsplit) (enabled : UInt32 → Bool) (side : Side) (arg : Text)
    (replay : Replay ports lcores) :
    Returns (parseArg strsplit enabled side arg replay) ↔
      (arg.length ≤ maxChars → TuplesConvert strsplit enabled side arg replay) := by
  unfold parseArg
  split_ifs with hlong
  · exact iff_of_true ⟨-1, replay, rfl, by decide⟩ fun h => absurd h ((strnlen_eq_iff arg maxChars).mp hlong)
  · rw [strnlen_eq_iff, not_not] at hlong
    have hsome := takeFields_isSome_iff hsplit enabled side (parentheses arg).2 (tupleTexts arg) 0 replay
    rw [parseTuples_eq]
    constructor
    · rintro ⟨rc, replay', hr, _⟩ _
      exact hsome.mp (by rw [hr]; rfl)
    · intro hconv
      obtain ⟨r, hr⟩ := Option.isSome_iff_exists.mp (hsome.mpr (hconv hlong))
      exact ⟨r.1, r.2, hr, takeFields_code strsplit enabled side hr⟩

theorem sizes_isSome_iff (hsplit : Splits strsplit) {arg : Text} (hlen : arg.length ≤ maxSizeChars) :
    (strToUnsignedVals strsplit arg maxSizeChars ',' 2).isSome ↔ FieldConverts strsplit arg 2 := by
  have htake : arg.take maxSizeChars = arg := List.take_of_length_le hlen
  have hle := hsplit.length_le arg 2 ','
  by_cases h : FieldConverts strsplit arg 2
  · rw [← htake] at h hle
    rw [strToUnsignedVals_of_converts (by decide) hle h]
    exact iff_of_true rfl (by rwa [htake] at h)
  · rw [← htake] at h
    rw [strToUnsignedVals_of_not (by decide) h]
    exact iff_of_false (by simp) (by rwa [htake] at h)

section sizes
variable (hsplit : Splits strsplit) (arg : Text) (replay : Replay ports lcores)
include hsplit

theorem sizes_return_iff {finish : ℤ × List UInt32 → Option (ℤ × Replay ports lcores)}
    (hfinish : ∀ r, Returns (finish r)) :
    Returns (if strnlen arg (maxSizeChars + 1) = maxSizeChars + 1 then some (-1, replay)
      else (strToUnsignedVals strsplit arg maxSizeChars ',' 2).bind finish) ↔
      (arg.length ≤ maxSizeChars → FieldConverts strsplit arg 2) := by
  split_ifs with hlong
  · exact iff_of_true ⟨-1, replay, rfl, by decide⟩ fun h =>
      absurd h ((strnlen_eq_iff arg maxSizeChars).mp hlong)
  · rw [strnlen_eq_iff, not_not] at hlong
    have hsome := sizes_isSome_iff hsplit hlong
    cases hr : strToUnsignedVals strsplit arg maxSizeChars ',' 2 with
    | none =>
      rw [hr] at hsome
      exact iff_of_false (by simp [Returns]) fun h => absurd (hsome.mpr (h hlong)) (by simp)
    | some r =>
      rw [hr] at hsome
      exact iff_of_true (hfinish r) fun _ => hsome.mp rfl

theorem parseArgRsz_returns_iff :
    Returns (parseArgRsz strsplit arg replay) ↔
      (arg.length ≤ maxSizeChars → FieldConverts strsplit arg 2) := by
  let finish (r : ℤ × List UInt32) : Option (ℤ × Replay ports lcores) :=
    let sizes := storePair replay.nicRingSize r.2
    let replay := { replay with nicRingSize := sizes }
    if r.1 ≠ 2 then some (-2, replay)
    else if sizes .rx = 0 ∨ sizes .tx = 0 then some (-3, replay)
    else some (0, replay)
  have hfinish : ∀ r, Returns (finish r) := by
    intro r
    dsimp only [finish]
    split_ifs
    · exact ⟨_, _, rfl, by decide⟩
    · exact ⟨_, _, rfl, by decide⟩
    · exact ⟨_, _, rfl, le_rfl⟩
  rw [← sizes_return_iff hsplit arg replay hfinish]
  unfold parseArgRsz
  cases strToUnsignedVals strsplit arg maxSizeChars ',' 2 with
  | none => rfl
  | some r => rfl

theorem parseArgBsz_returns_iff :
    Returns (parseArgBsz strsplit arg replay) ↔
      (arg.length ≤ maxSizeChars → FieldConverts strsplit arg 2) := by
  let finish (r : ℤ × List UInt32) : Option (ℤ × Replay ports lcores) :=
    let sizes := storePair replay.burstSizeIo r.2
    let replay := { replay with burstSizeIo := sizes }
    if r.1 ≠ 2 then some (-2, replay)
    else if sizes .rx = 0 ∨ sizes .tx = 0 then some (-7, replay)
    else if mbufArraySize < sizes .rx ∨ mbufArraySize < sizes .tx then some (-8, replay)
    else some (0, replay)
  have hfinish : ∀ r, Returns (finish r) := by
    intro r
    dsimp only [finish]
    split_ifs
    · exact ⟨_, _, rfl, by decide⟩
    · exact ⟨_, _, rfl, by decide⟩
    · exact ⟨_, _, rfl, by decide⟩
    · exact ⟨_, _, rfl, le_rfl⟩
  rw [← sizes_return_iff hsplit arg replay hfinish]
  unfold parseArgBsz
  cases strToUnsignedVals strsplit arg maxSizeChars ',' 2 with
  | none => rfl
  | some r => rfl

end sizes

/-- A parser stays inside its arrays when no field that it comes to is rejected. -/
theorem parsers_return_iff (hsplit : Splits strsplit) (enabled : UInt32 → Bool) (arg : Text)
    (replay : Replay ports lcores) :
    (Returns (parseArgRx strsplit enabled arg replay) ↔
      (arg.length ≤ maxChars → TuplesConvert strsplit enabled .rx arg replay)) ∧
    (Returns (parseArgTx strsplit enabled arg replay) ↔
      (arg.length ≤ maxChars → TuplesConvert strsplit enabled .tx arg replay)) ∧
    (Returns (parseArgRsz strsplit arg replay) ↔
      (arg.length ≤ maxSizeChars → FieldConverts strsplit arg 2)) ∧
    (Returns (parseArgBsz strsplit arg replay) ↔
      (arg.length ≤ maxSizeChars → FieldConverts strsplit arg 2)) :=
  ⟨parseArg_returns_iff hsplit enabled .rx arg replay, parseArg_returns_iff hsplit enabled .tx arg replay,
    parseArgRsz_returns_iff hsplit arg replay, parseArgBsz_returns_iff hsplit arg replay⟩

theorem parsers_return_two_numbers :
    Returns (parseArgRsz split ['7', ',', '0', 'x', '1', 'F'] (Replay.zero 32 128)) :=
  (parsers_return_iff splits_split (fun _ => true) ['7', ',', '0', 'x', '1', 'F']
    (Replay.zero 32 128)).2.2.1.mpr fun _ => by
      unfold FieldConverts
      decide

theorem parsers_leave_arrays :
    ¬ Returns (parseArgRx split (fun _ => true) ['(', 'x', ',', '0', ',', '0', ')'] (Replay.zero 32 128)) ∧
      ¬ Returns (parseArgTx split (fun _ => true) ['(', 'x', ',', '0', ',', '0', ',', '0', ')']
        (Replay.zero 32 128)) ∧
      ¬ Returns (parseArgRsz split ['x', ',', '1'] (Replay.zero 32 128)) ∧
      ¬ Returns (parseArgBsz split ['x', ',', '1'] (Replay.zero 32 128)) := by
  have hsizes : ¬ FieldConverts split ['x', ',', '1'] 2 := by
    unfold FieldConverts
    decide
  have hrx : ¬ FieldConverts split ['x', ',', '0', ',', '0'] 3 := by
    unfold FieldConverts
    decide
  have htx : ¬ FieldConverts split ['x', ',', '0', ',', '0', ',', '0'] 4 := by
    unfold FieldConverts
    decide
  refine ⟨fun h => hrx ?_, fun h => htx ?_, fun h => hsizes ?_, fun h => hsizes ?_⟩
  · apply (parseArg_returns_iff splits_split _ .rx _ _).mp h (by decide)
    rw [tupleTexts, @parentheses_some _ _ [')'] rfl rfl]
    exact .here _ _ _ _
  · apply (parseArg_returns_iff splits_split _ .tx _ _).mp h (by decide)
    rw [tupleTexts, @parentheses_some _ _ [')'] rfl rfl]
    exact .here _ _ _ _
  · exact (parseArgRsz_returns_iff splits_split _ _).mp h (by decide)
  · exact (parseArgBsz_returns_iff splits_split _ _).mp h (by decide)

end PcapReplay
