import Mathlib.Algebra.Order.Ring.Nat

/-! Little-endian numbers in byte sequences. -/

namespace LittleEndian

def byte (x i : ℕ) : UInt8 := UInt8.ofNat (x / 256 ^ i)

def value : ℕ → (ℕ → UInt8) → ℕ
  | 0, _ => 0
  | w + 1, b => (b 0).toNat + 256 * value w fun i => b (i + 1)

theorem byte_succ (x i : ℕ) : byte x (i + 1) = byte (x / 256) i := by
  rw [byte, byte, Nat.pow_succ', Nat.div_div_eq_div_mul]

theorem value_congr {w : ℕ} {b c : ℕ → UInt8} (h : ∀ i < w, b i = c i) : value w b = value w c := by
  induction w generalizing b c with
  | zero => rfl
  | succ w ih => rw [value, value, h 0 (by omega), ih fun i hi => h (i + 1) (by omega)]

theorem value_byte {w x : ℕ} (hx : x < 256 ^ w) : value w (byte x) = x := by
  induction w generalizing x with
  | zero => simp at hx; simp [value, hx]
  | succ w ih =>
    have hlt : x / 256 < 256 ^ w := Nat.div_lt_of_lt_mul (by rwa [Nat.pow_succ'] at hx)
    have htail : (fun i => byte x (i + 1)) = byte (x / 256) := funext fun i => byte_succ x i
    have hhead : (byte x 0).toNat = x % 256 := by simp [byte]
    rw [value, htail, ih hlt, hhead]
    omega

end LittleEndian
