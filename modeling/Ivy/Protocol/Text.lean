import Mathlib.Algebra.Group.Int.Defs
import Mathlib.Algebra.Group.Nat.Defs
import Mathlib.Data.List.Basic
import Mathlib.Data.Int.Notation
import Mathlib.Data.Nat.Notation
import Mathlib.Tactic.SplitIfs

/-! Byte strings, and the numerals that `%d` prints. -/
namespace Ivy

/-- The bytes of a C string, without its terminator. -/
abbrev Text := List UInt8

def ascii (s : String) : Text := s.toList.map fun c => UInt8.ofNat c.toNat

/-- The bytes of a string that has no other zero byte than its terminator. -/
structure CString where
  bytes : Text
  noZero : 0 ∉ bytes

def argStart : UInt8 := 2

def argEnd : UInt8 := 3

def newline : UInt8 := 10

def space : UInt8 := 32

def minus : UInt8 := 45

def plus : UInt8 := 43

def digit (d : ℕ) : UInt8 := UInt8.ofNat (48 + d)

def decimalAux : ℕ → ℕ → Text
  | 0, _ => []
  | fuel + 1, n => if n < 10 then [digit n] else decimalAux fuel (n / 10) ++ [digit (n % 10)]

def decimalNat (n : ℕ) : Text := decimalAux (n + 1) n

/-- `%d` -/
def decimal : ℤ → Text
  | .ofNat n => decimalNat n
  | .negSucc n => minus :: decimalNat (n + 1)

def IsDigit (b : UInt8) : Prop := 48 ≤ b.toNat ∧ b.toNat < 58

instance (b : UInt8) : Decidable (IsDigit b) := inferInstanceAs (Decidable (_ ∧ _))

instance (s : Text) : Decidable (∀ b ∈ s, IsDigit b) := List.decidableBAll _ s

theorem digit_toNat {d : ℕ} (h : d < 10) : (digit d).toNat = 48 + d := by
  simp only [digit, UInt8.toNat_ofNat']
  omega

theorem isDigit_digit {d : ℕ} (h : d < 10) : IsDigit (digit d) := by
  rw [IsDigit, digit_toNat h]
  omega

theorem isDigit_of_mem_decimalAux {fuel n : ℕ} {b : UInt8} (h : b ∈ decimalAux fuel n) :
    IsDigit b := by
  induction fuel generalizing n with
  | zero => simp [decimalAux] at h
  | succ fuel ih =>
    simp only [decimalAux] at h
    split_ifs at h with hn
    · rw [List.mem_singleton.mp h]
      exact isDigit_digit hn
    · rcases List.mem_append.mp h with h | h
      · exact ih h
      · rw [List.mem_singleton.mp h]
        exact isDigit_digit (Nat.mod_lt _ (by omega))

theorem decimalAux_ne_nil (fuel n : ℕ) : decimalAux (fuel + 1) n ≠ [] := by
  simp only [decimalAux]
  split_ifs <;> simp

theorem decimalNat_ne_nil (n : ℕ) : decimalNat n ≠ [] := decimalAux_ne_nil n n

theorem length_decimalAux_le {fuel n k : ℕ} (hk : 0 < k) (hn : n < 10 ^ k) :
    (decimalAux fuel n).length ≤ k := by
  induction fuel generalizing n k with
  | zero => exact Nat.zero_le k
  | succ fuel ih =>
    simp only [decimalAux]
    split_ifs with h10
    · exact hk
    · obtain ⟨j, rfl⟩ : ∃ j, k = j + 1 := ⟨k - 1, by omega⟩
      have hj : 0 < j := by
        rcases Nat.eq_zero_or_pos j with rfl | hj
        · exact absurd hn (by omega)
        · exact hj
      have hdiv : n / 10 < 10 ^ j := by
        rw [Nat.pow_succ] at hn
        omega
      simpa using ih hj hdiv

theorem length_decimal_le {z : ℤ} (hlo : -2 ^ 31 ≤ z) (hhi : z < 2 ^ 31) :
    (decimal z).length ≤ 11 := by
  cases z with
  | ofNat n =>
    have hn : n < 10 ^ 11 := by
      rw [Int.ofNat_eq_natCast] at hhi
      omega
    exact length_decimalAux_le (by omega) hn
  | negSucc n =>
    have hn : n + 1 < 10 ^ 10 := by omega
    exact Nat.succ_le_succ (length_decimalAux_le (by omega) hn)

theorem mem_decimal {z : ℤ} {b : UInt8} (h : b ∈ decimal z) : b = minus ∨ IsDigit b := by
  cases z with
  | ofNat n => exact .inr (isDigit_of_mem_decimalAux h)
  | negSucc n =>
    rcases List.mem_cons.mp h with h | h
    · exact .inl h
    · exact .inr (isDigit_of_mem_decimalAux h)

theorem not_mem_decimal {z : ℤ} {b : UInt8} (hb : b.toNat < 45) : b ∉ decimal z := by
  intro h
  rcases mem_decimal h with rfl | h
  · simp [minus] at hb
  · have := h.1
    omega

end Ivy
