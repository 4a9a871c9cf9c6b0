import PcapReplay.Lib.Strtoul
import PcapReplay.Lib.Tokens

/-! The numbers in the text of an option. The function `rte_strsplit` is a parameter. -/

namespace PcapReplay
open Strtoul

abbrev Text := List Char

/-- `rte_strsplit`: the tokens of a text, at most so many, cut at a delimiter. -/
abbrev Strsplit := Text → ℕ → Char → List Text

/-- The loop over the tokens: whether it came to its end, and the elements of `vals` it has written. -/
def convertTokens : List Text → Bool × List UInt32
  | [] => (true, [])
  | tok :: toks =>
    let r := strtoul tok
    let val := r.value.toUInt32
    if r.range = true ∨ r.rest ≠ [] then (false, [val])
    else ((convertTokens toks).1, val :: (convertTokens toks).2)

def strToUnsignedArray (strsplit : Strsplit) (s : Text) (sbuflen : ℕ) (separator : Char) (numVals : ℕ) :
    ℤ × List UInt32 :=
  let splits := strsplit (s.take sbuflen) numVals separator
  let converted := convertTokens splits
  (if converted.1 then splits.length else -1, converted.2)

/-- The store loop, with the written elements of `vals`, the pointers and the rounds that are left:
what is stored, or `none` when it reads an element that was not written or goes beyond the
pointers. -/
def storeVals : List UInt32 → ℕ → ℕ → Option (List UInt32)
  | _, _, 0 => some []
  | val :: vals, outs + 1, rounds + 1 => (storeVals vals outs rounds).map (val :: ·)
  | _, _, _ + 1 => none

def strToUnsignedVals (strsplit : Strsplit) (s : Text) (sbuflen : ℕ) (separator : Char) (numVals : ℕ) :
    Option (ℤ × List UInt32) :=
  let r := strToUnsignedArray strsplit s sbuflen separator numVals
  -- the code goes into an unsigned variable, and -1 becomes the bound of the loop
  let bound := UInt32.ofInt r.1
  (storeVals r.2 numVals bound.toNat).map fun stored => (bound.toNat, stored)

def tokenVal (tok : Text) : UInt32 := (strtoul tok).value.toUInt32

theorem convertTokens_of_converts {toks : List Text} (h : ∀ tok ∈ toks, Converts tok) :
    convertTokens toks = (true, toks.map tokenVal) := by
  induction toks with
  | nil => rfl
  | cons tok toks ih =>
    obtain ⟨hrange, hrest⟩ := h tok List.mem_cons_self
    have hgood : ¬ ((strtoul tok).range = true ∨ (strtoul tok).rest ≠ []) := by
      rw [hrange, hrest]
      decide
    have htail := ih fun t ht => h t (List.mem_cons_of_mem _ ht)
    rw [convertTokens, if_neg hgood, htail]
    rfl

theorem convertTokens_of_not {toks : List Text} (h : ¬ ∀ tok ∈ toks, Converts tok) :
    (convertTokens toks).1 = false := by
  induction toks with
  | nil => exact absurd (fun tok htok => absurd htok List.not_mem_nil) h
  | cons tok toks ih =>
    rw [convertTokens]
    split_ifs with hbad
    · rfl
    · apply ih
      intro hall
      apply h
      intro t ht
      rcases List.mem_cons.mp ht with rfl | ht
      · rw [not_or, not_not] at hbad
        exact ⟨Bool.eq_false_iff.mpr hbad.1, hbad.2⟩
      · exact hall t ht

theorem storeVals_of_le {vals : List UInt32} {outs rounds : ℕ} (hv : rounds ≤ vals.length)
    (ho : rounds ≤ outs) : storeVals vals outs rounds = some (vals.take rounds) := by
  induction rounds generalizing vals outs with
  | zero => rw [storeVals, List.take_zero]
  | succ rounds ih =>
    cases vals with
    | nil => exact absurd hv (by simp)
    | cons val vals =>
      cases outs with
      | zero => exact absurd ho (by simp)
      | succ outs =>
        rw [storeVals, ih (Nat.le_of_succ_le_succ hv) (Nat.le_of_succ_le_succ ho)]
        rfl

theorem storeVals_of_lt {vals : List UInt32} {outs rounds : ℕ} (ho : outs < rounds) :
    storeVals vals outs rounds = none := by
  induction rounds generalizing vals outs with
  | zero => exact absurd ho (Nat.not_lt_zero _)
  | succ rounds ih =>
    cases vals with
    | nil => rfl
    | cons val vals =>
      cases outs with
      | zero => rfl
      | succ outs =>
        rw [storeVals, ih (Nat.lt_of_succ_lt_succ ho)]
        rfl

def FieldConverts (strsplit : Strsplit) (field : Text) (numVals : ℕ) : Prop :=
  ∀ tok ∈ strsplit field numVals ',', Converts tok

section vals
variable {strsplit : Strsplit} {s : Text} {sbuflen numVals : ℕ} (hn : numVals < 2 ^ 32 - 1)
include hn

theorem strToUnsignedVals_of_converts (hsplit : (strsplit (s.take sbuflen) numVals ',').length ≤ numVals)
    (h : FieldConverts strsplit (s.take sbuflen) numVals) :
    strToUnsignedVals strsplit s sbuflen ',' numVals =
      some (((strsplit (s.take sbuflen) numVals ',').length : ℤ),
        (strsplit (s.take sbuflen) numVals ',').map tokenVal) := by
  have hgood := convertTokens_of_converts h
  unfold strToUnsignedVals strToUnsignedArray
  dsimp only
  generalize strsplit (s.take sbuflen) numVals ',' = toks at *
  have hbound : (UInt32.ofInt (toks.length : ℤ)).toNat = toks.length := by
    show (UInt32.ofNat ((toks.length : ℤ) % 2 ^ 32).toNat).toNat = _
    rw [UInt32.toNat_ofNat']
    omega
  have hlen : toks.length ≤ (toks.map tokenVal).length := (List.length_map _).ge
  rw [hgood, if_pos rfl, hbound, storeVals_of_le hlen hsplit, List.take_of_length_le (List.length_map _).le]
  rfl

theorem strToUnsignedVals_of_not (h : ¬ FieldConverts strsplit (s.take sbuflen) numVals) :
    strToUnsignedVals strsplit s sbuflen ',' numVals = none := by
  have hbad := convertTokens_of_not h
  have hfar : numVals < (UInt32.ofInt (-1)).toNat := by
    show numVals < 4294967295
    omega
  unfold strToUnsignedVals strToUnsignedArray
  dsimp only
  rw [hbad, if_neg (by decide), storeVals_of_lt hfar]
  rfl

end vals
end PcapReplay
