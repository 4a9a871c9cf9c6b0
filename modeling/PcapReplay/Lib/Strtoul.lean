import Mathlib.Data.List.TakeWhile
import Mathlib.Algebra.Order.Ring.Int
import Mathlib.Tactic.SplitIfs

/-! Integer numerals in base 0, and `strtoul`, which reads them into 64 bits. -/

namespace Strtoul

def isSpace (c : Char) : Bool := c.toNat = 32 || (9 ≤ c.toNat && c.toNat ≤ 13)

def digit (base : ℕ) (c : Char) : Option ℕ :=
  let value : Option ℕ :=
    if 48 ≤ c.toNat ∧ c.toNat ≤ 57 then some (c.toNat - 48)
    else if 97 ≤ c.toNat ∧ c.toNat ≤ 122 then some (c.toNat - 87)
    else if 65 ≤ c.toNat ∧ c.toNat ≤ 90 then some (c.toNat - 55)
    else none
  value.filter (· < base)

def skipSign : List Char → Bool × List Char
  | '-' :: s => (true, s)
  | '+' :: s => (false, s)
  | s => (false, s)

def skipPrefix : List Char → ℕ × List Char
  | '0' :: x :: s => if x = 'x' ∨ x = 'X' then (16, s) else (8, '0' :: x :: s)
  | ['0'] => (8, ['0'])
  | s => (10, s)

def readDigits (base : ℕ) : ℕ → List Char → ℕ × List Char
  | v, [] => (v, [])
  | v, c :: s =>
    match digit base c with
    | some d => readDigits base (v * base + d) s
    | none => (v, c :: s)

structure Conversion where
  value : UInt64
  rest : List Char
  range : Bool
deriving DecidableEq

def strtoul (s : List Char) : Conversion :=
  let signed := skipSign (s.dropWhile isSpace)
  let based := skipPrefix signed.2
  let read := readDigits based.1 0 based.2
  if read.2.length = based.2.length then
    -- no digits; behind a prefix without digits the `0` alone is a numeral
    { value := 0, rest := if based.1 = 16 then signed.2.tail else s, range := false }
  else if 2 ^ 64 ≤ read.1 then { value := UInt64.ofNat (2 ^ 64 - 1), rest := read.2, range := true }
  else
    { value := if signed.1 then -UInt64.ofNat read.1 else UInt64.ofNat read.1
      rest := read.2
      range := false }

inductive DigitsFrom (base : ℕ) : ℕ → List Char → ℕ → Prop
  | nil (v : ℕ) : DigitsFrom base v [] v
  | cons {v d w : ℕ} {c : Char} {s : List Char} (hd : digit base c = some d)
      (h : DigitsFrom base (v * base + d) s w) : DigitsFrom base v (c :: s) w

/-- Numerals without sign: decimal ones, octal ones with a leading 0, hexadecimal ones. -/
inductive Magnitude : List Char → ℕ → Prop
  | decimal {c : Char} {s : List Char} {m : ℕ} (hc : c ≠ '0') (h : DigitsFrom 10 0 (c :: s) m) :
      Magnitude (c :: s) m
  | octal {s : List Char} {m : ℕ} (h : DigitsFrom 8 0 ('0' :: s) m) : Magnitude ('0' :: s) m
  | hexadecimal {x c : Char} {s : List Char} {m : ℕ} (hx : x = 'x' ∨ x = 'X')
      (h : DigitsFrom 16 0 (c :: s) m) : Magnitude ('0' :: x :: c :: s) m

inductive Sign : List Char → Bool → Prop
  | none : Sign [] false
  | plus : Sign ['+'] false
  | minus : Sign ['-'] true

def Numeral (s : List Char) (v : ℤ) : Prop :=
  ∃ spaces sign neg body, ∃ m : ℕ, s = spaces ++ (sign ++ body) ∧ (∀ c ∈ spaces, isSpace c) ∧
    Sign sign neg ∧ Magnitude body m ∧ v = if neg then -(m : ℤ) else m

theorem digit_ne_none {base : ℕ} {c : Char} {d : ℕ} (h : digit base c = some d) : c ≠ ',' := by
  rintro rfl
  simp [digit] at h

theorem digit_ten {c : Char} {d : ℕ} (h : digit 10 c = some d) : 48 ≤ c.toNat ∧ c.toNat ≤ 57 := by
  unfold digit at h
  split_ifs at h with h₁ h₂ h₃
  · exact h₁
  · simp only [Option.filter_some, decide_eq_true_eq] at h
    split_ifs at h
    omega
  · simp only [Option.filter_some, decide_eq_true_eq] at h
    split_ifs at h
    omega
  · simp at h

theorem DigitsFrom.read {base v w : ℕ} {s : List Char} (h : DigitsFrom base v s w) :
    readDigits base v s = (w, []) := by
  induction h with
  | nil v => rfl
  | cons hd _ ih =>
    rw [readDigits, hd]
    exact ih

theorem digitsFrom_of_read {base v : ℕ} {s : List Char} (h : (readDigits base v s).2 = []) :
    DigitsFrom base v s (readDigits base v s).1 := by
  induction s generalizing v with
  | nil => exact .nil v
  | cons c s ih =>
    rw [readDigits] at h ⊢
    cases hd : digit base c with
    | none =>
      rw [hd] at h
      exact absurd h (by simp)
    | some d =>
      rw [hd] at h
      exact .cons hd (ih h)

theorem DigitsFrom.comma_notMem {base v w : ℕ} {s : List Char} (h : DigitsFrom base v s w) : ',' ∉ s := by
  induction h with
  | nil v => exact List.not_mem_nil
  | cons hd _ ih =>
    rw [List.mem_cons, not_or]
    exact ⟨(digit_ne_none hd).symm, ih⟩

theorem skipPrefix_decimal {c : Char} (s : List Char) (hc : c ≠ '0') :
    skipPrefix (c :: s) = (10, c :: s) := by
  unfold skipPrefix
  split
  · next heq => exact absurd (List.cons.inj heq).1 hc
  · next heq => exact absurd (List.cons.inj heq).1 hc
  · rfl

theorem Magnitude.skipPrefix {body : List Char} {m : ℕ} (h : Magnitude body m) :
    ∃ base digits, Strtoul.skipPrefix body = (base, digits) ∧ digits ≠ [] ∧ DigitsFrom base 0 digits m := by
  cases h with
  | @decimal c s _ hc h => exact ⟨10, c :: s, skipPrefix_decimal s hc, List.cons_ne_nil c s, h⟩
  | @octal s _ h =>
    refine ⟨8, '0' :: s, ?_, List.cons_ne_nil _ s, h⟩
    cases s with
    | nil => rfl
    | cons x t =>
      -- an octal digit is no `x`
      cases h with
      | cons _ h =>
        cases h with
        | cons hd _ =>
          have hx : ¬ (x = 'x' ∨ x = 'X') := by
            rintro (rfl | rfl)
            · simp [digit] at hd
              omega
            · simp [digit] at hd
              omega
          exact if_neg hx
  | @hexadecimal x c s _ hx h => exact ⟨16, c :: s, if_pos hx, List.cons_ne_nil c s, h⟩

theorem magnitude_of_read {body : List Char} {m : ℕ} (hne : (skipPrefix body).2 ≠ [])
    (h : DigitsFrom (skipPrefix body).1 0 (skipPrefix body).2 m) : Magnitude body m := by
  cases body with
  | nil => exact absurd rfl hne
  | cons c s =>
    by_cases hc : c = '0'
    · subst hc
      cases s with
      | nil => exact .octal h
      | cons x t =>
        by_cases hx : x = 'x' ∨ x = 'X'
        · have hskip : skipPrefix ('0' :: x :: t) = (16, t) := if_pos hx
          rw [hskip] at hne h
          cases t with
          | nil => exact absurd rfl hne
          | cons c t => exact .hexadecimal hx h
        · have hskip : skipPrefix ('0' :: x :: t) = (8, '0' :: x :: t) := if_neg hx
          rw [hskip] at h
          exact .octal h
    · rw [skipPrefix_decimal s hc] at h
      exact .decimal hc h

theorem Magnitude.head {body : List Char} {m : ℕ} (h : Magnitude body m) :
    ∃ c s, body = c :: s ∧ 48 ≤ c.toNat ∧ c.toNat ≤ 57 := by
  cases h with
  | @decimal c s _ hc h =>
    cases h with
    | cons hd _ => exact ⟨c, s, rfl, digit_ten hd⟩
  | @octal s _ h => exact ⟨'0', s, rfl, by decide⟩
  | @hexadecimal x c s _ hx h => exact ⟨'0', x :: c :: s, rfl, by decide⟩

theorem Magnitude.comma_notMem {body : List Char} {m : ℕ} (h : Magnitude body m) : ',' ∉ body := by
  cases h with
  | decimal _ h => exact h.comma_notMem
  | octal h => exact h.comma_notMem
  | @hexadecimal x c s _ hx h =>
    have hcomma : ',' ≠ x := by
      rintro rfl
      exact absurd hx (by decide)
    rw [List.mem_cons, List.mem_cons, not_or, not_or]
    exact ⟨by decide, hcomma, h.comma_notMem⟩

theorem Sign.comma_notMem {sign : List Char} {neg : Bool} (h : Sign sign neg) : ',' ∉ sign := by
  cases h <;> decide

theorem Numeral.comma_notMem {s : List Char} {v : ℤ} (h : Numeral s v) : ',' ∉ s := by
  obtain ⟨spaces, sign, neg, body, m, rfl, hspaces, hsign, hbody, _⟩ := h
  rw [List.mem_append, List.mem_append, not_or, not_or]
  exact ⟨fun hc => absurd (hspaces _ hc) (by decide), hsign.comma_notMem, hbody.comma_notMem⟩

theorem skipSign_numeral {sign body : List Char} {neg : Bool} {m : ℕ} (hsign : Sign sign neg)
    (hbody : Magnitude body m) : skipSign (sign ++ body) = (neg, body) := by
  obtain ⟨c, s, rfl, hc⟩ := hbody.head
  cases hsign with
  | plus => rfl
  | minus => rfl
  | none =>
    show skipSign (c :: s) = _
    unfold skipSign
    split
    · next heq =>
      obtain ⟨rfl, _⟩ := List.cons.inj heq
      exact absurd hc (by decide)
    · next heq =>
      obtain ⟨rfl, _⟩ := List.cons.inj heq
      exact absurd hc (by decide)
    · rfl

theorem dropWhile_numeral {spaces sign body : List Char} {neg : Bool} {m : ℕ}
    (hspaces : ∀ c ∈ spaces, isSpace c) (hsign : Sign sign neg) (hbody : Magnitude body m) :
    (spaces ++ (sign ++ body)).dropWhile isSpace = sign ++ body := by
  obtain ⟨c, s, rfl, hc⟩ := hbody.head
  rw [List.dropWhile_append_of_pos hspaces]
  cases hsign with
  | plus => rfl
  | minus => rfl
  | none =>
    apply List.dropWhile_cons_of_neg
    simp only [isSpace, Bool.or_eq_true, Bool.and_eq_true, decide_eq_true_eq]
    omega

theorem strtoul_numeral {s : List Char} {v : ℤ} (h : Numeral s v) :
    (strtoul s).rest = [] ∧ ((strtoul s).range = false ↔ |v| < 2 ^ 64) ∧
      (|v| < 2 ^ 64 → ((strtoul s).value.toNat : ℤ) = v % 2 ^ 64) := by
  obtain ⟨spaces, sign, neg, body, m, rfl, hspaces, hsign, hbody, rfl⟩ := h
  obtain ⟨base, digits, hskip, hne, hdigits⟩ := hbody.skipPrefix
  have habs : |if neg then -(m : ℤ) else m| = m := by
    split_ifs
    · rw [abs_neg, abs_of_nonneg (Int.natCast_nonneg m)]
    · exact abs_of_nonneg (Int.natCast_nonneg m)
  have hlen : ¬ ([] : List Char).length = digits.length := fun h =>
    hne (List.length_eq_zero_iff.mp h.symm)
  rw [habs]
  unfold strtoul
  simp only [dropWhile_numeral hspaces hsign hbody, skipSign_numeral hsign hbody, hskip, hdigits.read,
    if_neg hlen]
  by_cases hm : 2 ^ 64 ≤ m
  · simp only [if_pos hm]
    refine ⟨trivial, ?_, ?_⟩
    · simp
      omega
    · omega
  · simp only [if_neg hm]
    have hlt : m < 2 ^ 64 := Nat.not_le.mp hm
    refine ⟨trivial, ?_, fun _ => ?_⟩
    · simp
      omega
    · cases neg with
      | false => simp
      | true =>
        have hneg : (-UInt64.ofNat m).toNat = (2 ^ 64 - m) % 2 ^ 64 := by
          rw [UInt64.toNat_neg, UInt64.toNat_ofNat', Nat.mod_eq_of_lt hlt]
          rfl
        rw [if_pos rfl, if_pos rfl, hneg]
        omega

theorem skipSign_sign (s : List Char) : ∃ sign, Sign sign (skipSign s).1 ∧ s = sign ++ (skipSign s).2 := by
  unfold skipSign
  split
  · exact ⟨['-'], .minus, rfl⟩
  · exact ⟨['+'], .plus, rfl⟩
  · exact ⟨[], .none, rfl⟩

theorem tail_of_hexadecimal {body : List Char} (h : (skipPrefix body).1 = 16) : body.tail ≠ [] := by
  unfold skipPrefix at h
  split at h
  · simp
  · exact absurd h (by decide)
  · exact absurd h (by simp)

theorem numeral_of_rest {s : List Char} (h : (strtoul s).rest = []) : s = [] ∨ ∃ v, Numeral s v := by
  obtain ⟨sign, hsign, hbody⟩ := skipSign_sign (s.dropWhile isSpace)
  unfold strtoul at h
  dsimp only at h
  generalize skipSign (s.dropWhile isSpace) = signed at *
  obtain ⟨neg, body⟩ := signed
  have hread : (readDigits (skipPrefix body).1 0 (skipPrefix body).2).2 = [] →
      (skipPrefix body).2 ≠ [] → ∃ v, Numeral s v := by
    intro hrest hne
    have hspaces : ∀ c ∈ s.takeWhile isSpace, isSpace c := fun c hc => List.mem_takeWhile_imp hc
    have hs : s = s.takeWhile isSpace ++ (sign ++ body) := by rw [← hbody, List.takeWhile_append_dropWhile]
    exact ⟨_, _, _, _, _, _, hs, hspaces, hsign, magnitude_of_read hne (digitsFrom_of_read hrest), rfl⟩
  have hne : ∀ rest : List Char, rest = [] → ¬ rest.length = (skipPrefix body).2.length →
      (skipPrefix body).2 ≠ [] := by
    rintro rest rfl hlen hnil
    exact hlen (by rw [hnil])
  split_ifs at h with hlen hbase hrange
  · exact absurd h (tail_of_hexadecimal hbase)
  · exact Or.inl h
  · exact Or.inr (hread h (hne _ h hlen))
  · exact Or.inr (hread h (hne _ h hlen))
  · exact Or.inr (hread h (hne _ h hlen))

def Converts (s : List Char) : Prop := (strtoul s).range = false ∧ (strtoul s).rest = []

instance : DecidablePred Converts := fun _ => inferInstanceAs (Decidable (_ ∧ _))

theorem converts_iff {s : List Char} : Converts s ↔ s = [] ∨ ∃ v, Numeral s v ∧ |v| < 2 ^ 64 := by
  constructor
  · rintro ⟨hrange, hrest⟩
    rcases numeral_of_rest hrest with rfl | ⟨v, hv⟩
    · exact Or.inl rfl
    · exact Or.inr ⟨v, hv, (strtoul_numeral hv).2.1.mp hrange⟩
  · rintro (rfl | ⟨v, hv, hlt⟩)
    · exact ⟨rfl, rfl⟩
    · exact ⟨(strtoul_numeral hv).2.1.mpr hlt, (strtoul_numeral hv).1⟩

theorem Converts.comma_notMem {s : List Char} (h : Converts s) : ',' ∉ s := by
  rcases converts_iff.mp h with rfl | ⟨v, hv, _⟩
  · exact List.not_mem_nil
  · exact hv.comma_notMem

end Strtoul
