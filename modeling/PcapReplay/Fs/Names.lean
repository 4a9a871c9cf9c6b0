import PcapReplay.Fs.Types

/-! The bounded comparison of names. -/

namespace PcapReplay

/-- `strncmp` on the bytes that its bound leaves in view. -/
def strncmp : List UInt8 → List UInt8 → ℤ
  | a :: as, b :: bs =>
    if a ≠ b then (a.toNat : ℤ) - b.toNat
    else if a = 0 then 0
    else strncmp as bs
  | _, _ => 0

def cString (l : List UInt8) : List UInt8 := l.takeWhile (· ≠ 0)

theorem cString_take (l : List UInt8) (k : ℕ) : cString (l.take k) = (cString l).take k :=
  (List.take_takeWhile ..).symm

theorem strncmp_eq_zero {l m : List UInt8} (h : l.length = m.length) :
    strncmp l m = 0 ↔ cString l = cString m := by
  induction l generalizing m with
  | nil =>
    cases m with
    | nil => simp [strncmp]
    | cons b bs => simp at h
  | cons a as ih =>
    cases m with
    | nil => simp at h
    | cons b bs =>
      by_cases hab : a = b
      · subst hab
        by_cases ha : a = 0
        · simp [strncmp, cString, ha]
        · simpa [strncmp, cString, ha] using ih (by simpa using h)
      · have hne : (a.toNat : ℤ) - b.toNat ≠ 0 := by
          have : a.toNat ≠ b.toNat := fun e => hab (UInt8.toNat_inj.mp e)
          omega
        simp only [strncmp, ne_eq, hab, not_false_eq_true, if_true, hne, false_iff]
        intro he
        by_cases ha : a = 0
        · by_cases hb : b = 0
          · exact hab (ha.trans hb.symm)
          · simp [cString, ha, hb] at he
        · by_cases hb : b = 0
          · simp [cString, ha, hb] at he
          · simp [cString, ha, hb, hab] at he

def cmpFile (p q : Name) : ℤ := strncmp (List.ofFn p) (List.ofFn q)

def Name.str (p : Name) : List UInt8 := cString (List.ofFn p)

theorem cmpFile_eq_zero (p q : Name) : cmpFile p q = 0 ↔ p.str = q.str :=
  strncmp_eq_zero (by simp)

theorem Name.str_eq_nil (p : Name) : p.str = [] ↔ p 0 = 0 := by
  rw [Name.str, cString, List.ofFn_succ]
  by_cases h : p 0 = 0 <;> simp [h]

theorem Name.head_eq_zero {p q : Name} (h : p.str = q.str) : p 0 = 0 ↔ q 0 = 0 := by
  rw [← p.str_eq_nil, ← q.str_eq_nil, h]

end PcapReplay
