import Ivy.Protocol.Text
import Mathlib.Data.List.TakeWhile

/-! `sscanf` with `"%d %d"`, and `strstr` for a one-byte string. -/
namespace Ivy

def isSpace (b : UInt8) : Bool := b == space || (9 ≤ b && b ≤ 13)

def digitsValue (ds : Text) : ℕ := ds.foldl (fun acc b => 10 * acc + (b.toNat - 48)) 0

/-- `strtol` saturates at a 64-bit `long`; storing into an `int` keeps the low 32 bits. -/
def toInt (z : ℤ) : ℤ := Int.bmod (max (-2 ^ 63) (min z (2 ^ 63 - 1))) (2 ^ 32)

def scanDigits (t : Text) : Option (ℕ × Text) :=
  let ds := t.takeWhile (IsDigit ·)
  if ds = [] then none else some (digitsValue ds, t.dropWhile (IsDigit ·))

/-- One `%d`: blanks, an optional sign, digits. A terminator is none of these. -/
def scanInt (t : Text) : Option (ℤ × Text) :=
  match t.dropWhile isSpace with
  | [] => none
  | b :: t =>
    if b = minus then (scanDigits t).map fun r => (toInt (-r.1), r.2)
    else if b = plus then (scanDigits t).map fun r => (toInt r.1, r.2)
    else (scanDigits (b :: t)).map fun r => (toInt r.1, r.2)

/-- `sscanf (line, "%d %d", …)`, `none` when it assigns fewer than two values. -/
def scanHeader (line : Text) : Option (ℤ × ℤ) :=
  (scanInt line).bind fun r => (scanInt r.2).map fun r' => (r.1, r'.1)

/-- `strstr`: the first `c` before the terminator. -/
def strstr : Text → UInt8 → Option ℕ
  | [], _ => none
  | b :: t, c => if b = c then some 0 else if b = 0 then none else (strstr t c).map (· + 1)

theorem strstr_append {pre : Text} {c : UInt8} (hc : c ∉ pre) (h0 : 0 ∉ pre) (rest : Text) :
    strstr (pre ++ c :: rest) c = some pre.length := by
  induction pre with
  | nil => simp [strstr]
  | cons b pre ih =>
    simp only [List.mem_cons, not_or] at hc h0
    simp [strstr, Ne.symm hc.1, Ne.symm h0.1, ih hc.2 h0.2]

theorem toInt_of_mem {z : ℤ} (hlo : -2 ^ 31 ≤ z) (hhi : z < 2 ^ 31) : toInt z = z := by
  have hclamp : max (-2 ^ 63) (min z (2 ^ 63 - 1)) = z := by omega
  rw [toInt, hclamp]
  exact Int.bmod_eq_of_le (by omega) (by omega)

theorem digitsValue_concat (ds : Text) (b : UInt8) :
    digitsValue (ds ++ [b]) = 10 * digitsValue ds + (b.toNat - 48) := by simp [digitsValue]

theorem digitsValue_decimalAux {fuel n : ℕ} (h : n < fuel) :
    digitsValue (decimalAux fuel n) = n := by
  induction fuel generalizing n with
  | zero => omega
  | succ fuel ih =>
    simp only [decimalAux]
    split_ifs with hn
    · simp [digitsValue, digit_toNat hn]
    · rw [digitsValue_concat, ih (by omega), digit_toNat (Nat.mod_lt n (by omega))]
      omega

/-- The digits are read back up to the first byte that is none. -/
theorem scanDigits_decimalNat (n : ℕ) {b : UInt8} (hb : ¬ IsDigit b) (rest : Text) :
    scanDigits (decimalNat n ++ b :: rest) = some (n, b :: rest) := by
  have hall : ∀ d ∈ decimalNat n, decide (IsDigit d) = true := fun d hd => by
    simpa using isDigit_of_mem_decimalAux hd
  have htake : (decimalNat n ++ b :: rest).takeWhile (IsDigit ·) = decimalNat n := by
    rw [List.takeWhile_append_of_pos hall, List.takeWhile_cons_of_neg (by simpa using hb),
      List.append_nil]
  have hdrop : (decimalNat n ++ b :: rest).dropWhile (IsDigit ·) = b :: rest := by
    rw [List.dropWhile_append_of_pos hall, List.dropWhile_cons_of_neg (by simpa using hb)]
  have hvalue : digitsValue (decimalNat n) = n := digitsValue_decimalAux (Nat.lt_succ_self n)
  simp only [scanDigits, htake, hdrop, hvalue, if_neg (decimalNat_ne_nil n)]

theorem not_isSpace_of_isDigit {b : UInt8} (h : IsDigit b) : isSpace b = false := by
  have h := h.1
  simp only [isSpace, space, Bool.or_eq_false_iff, beq_eq_false_iff_ne, Bool.and_eq_false_imp]
  refine ⟨?_, fun _ => ?_⟩
  · rintro rfl
    simp at h
  · simp only [decide_eq_false_iff_not, UInt8.le_iff_toNat_le, UInt8.reduceToNat]
    omega

/-- `%d` reads back what `%d` printed, blanks before it or not. -/
theorem scanInt_decimal {z : ℤ} (hlo : -2 ^ 31 ≤ z) (hhi : z < 2 ^ 31) (blanks : Text)
    (hblanks : ∀ b ∈ blanks, isSpace b = true) {b : UInt8} (hb : ¬ IsDigit b) (rest : Text) :
    scanInt (blanks ++ decimal z ++ b :: rest) = some (z, b :: rest) := by
  have hz := toInt_of_mem hlo hhi
  cases z with
  | ofNat n =>
    have hscan := scanDigits_decimalNat n hb rest
    obtain ⟨d, ds, hd⟩ := List.exists_cons_of_ne_nil (decimalNat_ne_nil n)
    have hdigit : IsDigit d := isDigit_of_mem_decimalAux (hd ▸ List.mem_cons_self)
    have hskip : (blanks ++ decimal (.ofNat n) ++ b :: rest).dropWhile isSpace =
        d :: (ds ++ b :: rest) := by
      rw [List.append_assoc, List.dropWhile_append_of_pos hblanks, decimal, hd]
      exact List.dropWhile_cons_of_neg (by simp [not_isSpace_of_isDigit hdigit])
    have hsign : d ≠ minus ∧ d ≠ plus := by
      constructor <;> rintro rfl <;> simp [IsDigit, minus, plus] at hdigit
    rw [hd] at hscan
    rw [scanInt, hskip]
    simp only [if_neg hsign.1, if_neg hsign.2]
    rw [show d :: (ds ++ b :: rest) = d :: ds ++ b :: rest from rfl, hscan]
    simpa using hz
  | negSucc n =>
    have hscan := scanDigits_decimalNat (n + 1) hb rest
    have hskip : (blanks ++ decimal (.negSucc n) ++ b :: rest).dropWhile isSpace =
        minus :: (decimalNat (n + 1) ++ b :: rest) := by
      rw [List.append_assoc, List.dropWhile_append_of_pos hblanks, decimal]
      exact List.dropWhile_cons_of_neg (by decide)
    rw [scanInt, hskip]
    simp only [if_pos trivial, hscan, Option.map_some]
    rw [show -((n + 1 : ℕ) : ℤ) = Int.negSucc n from rfl, hz]

end Ivy
