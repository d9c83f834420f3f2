import Ivy.Protocol.Scan
import Mathlib.Data.List.Induction
import Mathlib.Data.Rat.Defs
import Mathlib.Tactic.Linarith
import Mathlib.Tactic.NormNum

/-! The decimal numerals and their values. -/
namespace Ivy.Interval

def zero : UInt8 := 48

def dot : UInt8 := 46

/-- `0`, or digits without a leading zero. -/
def IsNatural (ds : Text) : Prop :=
  ds = [zero] ∨ ds ≠ [] ∧ (∀ b ∈ ds, IsDigit b) ∧ ds.head? ≠ some zero

/-- `0`, or an optional `-` and digits without a leading zero. -/
def IsInteger (s : Text) : Prop :=
  IsNatural s ∨ ∃ ds, s = minus :: ds ∧ IsNatural ds ∧ ds ≠ [zero]

def intValue (s : Text) : ℤ :=
  if s.head? = some minus then -digitsValue s.tail else digitsValue s

/-- An optional `-`, an integer part without superfluous zeros and an optional fraction. -/
def IsDecimal (s : Text) : Prop :=
  ∃ sign ds fraction, s = sign ++ ds ++ fraction ∧ (sign = [] ∨ sign = [minus]) ∧ IsNatural ds ∧
    (fraction = [] ∨ ∃ fs, fraction = dot :: fs ∧ fs ≠ [] ∧ ∀ b ∈ fs, IsDigit b)

def magnitude (s : Text) : ℚ :=
  let fs := (s.dropWhile (IsDigit ·)).tail
  digitsValue (s.takeWhile (IsDigit ·)) + digitsValue fs / 10 ^ fs.length

def decimalValue (s : Text) : ℚ :=
  if s.head? = some minus then -magnitude s.tail else magnitude s

theorem decimalAux_eq {fuel fuel' n : ℕ} (h : n < fuel) (h' : n < fuel') :
    decimalAux fuel n = decimalAux fuel' n := by
  induction fuel generalizing fuel' n with
  | zero => omega
  | succ fuel ih =>
    obtain ⟨k, rfl⟩ : ∃ k, fuel' = k + 1 := ⟨fuel' - 1, by omega⟩
    simp only [decimalAux]
    split_ifs with hn
    · rfl
    · have hk : n / 10 < k := by omega
      rw [ih (by omega) hk]

theorem decimalNat_of_lt {n : ℕ} (h : n < 10) : decimalNat n = [digit n] := by
  simp only [decimalNat, decimalAux, if_pos h]

theorem decimalNat_of_le {n : ℕ} (h : 10 ≤ n) :
    decimalNat n = decimalNat (n / 10) ++ [digit (n % 10)] := by
  have haux : decimalAux n (n / 10) = decimalNat (n / 10) := decimalAux_eq (by omega) (by omega)
  rw [← haux, decimalNat]
  simp only [decimalAux, if_neg (Nat.not_lt.mpr h)]

theorem digitsValue_decimalNat (n : ℕ) : digitsValue (decimalNat n) = n :=
  digitsValue_decimalAux (Nat.lt_succ_self n)

theorem IsDigit.digit_eq {b : UInt8} (h : IsDigit b) :
    b.toNat - 48 < 10 ∧ digit (b.toNat - 48) = b := by
  have hlo := h.1
  have hhi := h.2
  have hlt : b.toNat - 48 < 10 := by omega
  refine ⟨hlt, ?_⟩
  apply UInt8.toNat_inj.mp
  rw [digit_toNat hlt]
  omega

theorem isNatural_digits {ds : Text} (h : IsNatural ds) : ∀ b ∈ ds, IsDigit b := by
  rcases h with rfl | ⟨-, hd, -⟩
  · intro b hb
    rw [List.mem_singleton.mp hb]
    decide
  · exact hd

theorem digitsValue_pos {ds : Text} (hne : ds ≠ []) (hd : ∀ b ∈ ds, IsDigit b)
    (h0 : ds.head? ≠ some zero) : 0 < digitsValue ds := by
  induction ds using List.reverseRecOn with
  | nil => exact absurd rfl hne
  | append_singleton ds b ih =>
    rw [digitsValue_concat]
    by_cases hnil : ds = []
    · subst hnil
      have hb := hd b (by simp)
      have hb0 : b.toNat ≠ 48 := by
        intro hb48
        have hzero : b = zero := UInt8.toNat_inj.mp hb48
        exact h0 (by rw [hzero]; rfl)
      have := hb.1
      omega
    · have hhead : ds.head? ≠ some zero := by
        rwa [List.head?_append_of_ne_nil _ hnil] at h0
      have hpos := ih hnil (fun b hb => hd b (List.mem_append_left _ hb)) hhead
      omega

/-- A natural numeral is what `%d` prints for its value. -/
theorem IsNatural.eq_decimalNat {ds : Text} (h : IsNatural ds) :
    decimalNat (digitsValue ds) = ds := by
  rcases h with rfl | ⟨hne, hd, h0⟩
  · rfl
  · induction ds using List.reverseRecOn with
    | nil => exact absurd rfl hne
    | append_singleton ds b ih =>
      obtain ⟨hlt, hb⟩ := IsDigit.digit_eq (hd b (by simp))
      rw [digitsValue_concat]
      by_cases hnil : ds = []
      · subst hnil
        rw [show digitsValue [] = 0 from rfl, Nat.mul_zero, Nat.zero_add, decimalNat_of_lt hlt, hb,
          List.nil_append]
      · have hhead : ds.head? ≠ some zero := by
          rwa [List.head?_append_of_ne_nil _ hnil] at h0
        have hdigits : ∀ b ∈ ds, IsDigit b := fun b hb => hd b (List.mem_append_left _ hb)
        have hpos := digitsValue_pos hnil hdigits hhead
        have hdiv : (10 * digitsValue ds + (b.toNat - 48)) / 10 = digitsValue ds := by omega
        have hmod : (10 * digitsValue ds + (b.toNat - 48)) % 10 = b.toNat - 48 := by omega
        rw [decimalNat_of_le (by omega), hdiv, hmod, hb, ih hnil hdigits hhead]

theorem head?_ne_minus {ds : Text} (h : ∀ b ∈ ds, IsDigit b) : ds.head? ≠ some minus := by
  intro hhead
  have hdigit := h minus (List.mem_of_mem_head? hhead)
  exact absurd hdigit (by decide)

theorem decimalNat_digits (n : ℕ) : ∀ b ∈ decimalNat n, IsDigit b :=
  fun _ => isDigit_of_mem_decimalAux

theorem intValue_decimal (z : ℤ) : intValue (decimal z) = z := by
  cases z with
  | ofNat n =>
    have hhead := head?_ne_minus (decimalNat_digits n)
    rw [decimal, intValue, if_neg hhead, digitsValue_decimalNat]
    rfl
  | negSucc n =>
    rw [decimal, intValue, List.head?_cons, if_pos rfl, List.tail_cons, digitsValue_decimalNat]
    rfl

theorem IsInteger.eq_decimal {s : Text} (h : IsInteger s) : decimal (intValue s) = s := by
  rcases h with h | ⟨ds, rfl, h, hzero⟩
  · have hhead := head?_ne_minus (isNatural_digits h)
    rw [intValue, if_neg hhead]
    exact h.eq_decimalNat
  · have hpos : 0 < digitsValue ds := by
      rcases h with h | ⟨hne, hd, h0⟩
      · exact absurd h hzero
      · exact digitsValue_pos hne hd h0
    obtain ⟨n, hn⟩ : ∃ n, digitsValue ds = n + 1 := ⟨digitsValue ds - 1, by omega⟩
    rw [intValue, List.head?_cons, if_pos rfl, List.tail_cons, hn]
    have hdecimal : decimal (-((n + 1 : ℕ) : ℤ)) = minus :: decimalNat (n + 1) := rfl
    rw [hdecimal, ← hn, h.eq_decimalNat]

theorem IsInteger.eq_decimal_iff {s : Text} (h : IsInteger s) (z : ℤ) :
    s = decimal z ↔ intValue s = z := by
  constructor
  · rintro rfl
    exact intValue_decimal z
  · rintro rfl
    exact h.eq_decimal.symm

/-- What `%d` prints for a natural number has no superfluous zeros. -/
theorem isNatural_decimalNat (n : ℕ) : IsNatural (decimalNat n) := by
  induction n using Nat.strongRecOn with
  | ind n ih =>
    by_cases hlt : n < 10
    · rw [decimalNat_of_lt hlt]
      by_cases h0 : n = 0
      · subst h0
        exact .inl rfl
      · refine .inr ⟨List.cons_ne_nil _ _, ?_, ?_⟩
        · intro b hb
          rw [List.mem_singleton.mp hb]
          exact isDigit_digit hlt
        · intro hhead
          have hdigit : digit n = zero := Option.some.inj hhead
          have hvalue := congrArg UInt8.toNat hdigit
          rw [digit_toNat hlt] at hvalue
          exact h0 (Nat.add_left_cancel hvalue)
    · have hdiv : n / 10 < n := by omega
      have hpos : 0 < n / 10 := by omega
      refine .inr ⟨decimalNat_ne_nil n, decimalNat_digits n, ?_⟩
      rw [decimalNat_of_le (by omega), List.head?_append_of_ne_nil _ (decimalNat_ne_nil _)]
      rcases ih (n / 10) hdiv with hzero | ⟨-, -, hhead⟩
      · have hvalue := congrArg digitsValue hzero
        rw [digitsValue_decimalNat, show digitsValue [zero] = 0 from rfl] at hvalue
        omega
      · exact hhead

theorem magnitude_half (n : ℕ) : magnitude (decimalNat n ++ [dot, digit 5]) = n + 1 / 2 := by
  have hall : ∀ d ∈ decimalNat n, decide (IsDigit d) = true := fun d hd => by
    simpa using decimalNat_digits n d hd
  have htake : (decimalNat n ++ [dot, digit 5]).takeWhile (IsDigit ·) = decimalNat n := by
    rw [List.takeWhile_append_of_pos hall, List.takeWhile_cons_of_neg (by decide), List.append_nil]
  have hdrop : (decimalNat n ++ [dot, digit 5]).dropWhile (IsDigit ·) = [dot, digit 5] := by
    rw [List.dropWhile_append_of_pos hall, List.dropWhile_cons_of_neg (by decide)]
  have hfive : digitsValue [digit 5] = 5 := rfl
  rw [magnitude, htake, hdrop, List.tail_cons, digitsValue_decimalNat, hfive]
  norm_num

theorem isDecimal_digit {sign : Text} (hsign : sign = [] ∨ sign = [minus]) (n : ℕ) {d : ℕ}
    (hd : d < 10) : IsDecimal (sign ++ decimalNat n ++ [dot, digit d]) :=
  ⟨sign, decimalNat n, _, rfl, hsign, isNatural_decimalNat n, .inr ⟨[digit d], rfl,
    List.cons_ne_nil _ _, List.forall_mem_singleton.mpr (isDigit_digit hd)⟩⟩

theorem isDecimal_half (z : ℤ) : IsDecimal (decimal z ++ [dot, digit 5]) := by
  cases z with
  | ofNat n => exact isDecimal_digit (.inl rfl) n (by omega)
  | negSucc n => exact isDecimal_digit (.inr rfl) (n + 1) (by omega)

theorem decimalValue_half (z : ℤ) : decimalValue (decimal z ++ [dot, digit 5]) ≠ z := by
  cases z with
  | ofNat n =>
    have hhead : (decimalNat n ++ [dot, digit 5]).head? ≠ some minus := by
      rw [List.head?_append_of_ne_nil _ (decimalNat_ne_nil n)]
      exact head?_ne_minus (decimalNat_digits n)
    rw [decimal, decimalValue, if_neg hhead, magnitude_half]
    intro h
    have hcast : ((Int.ofNat n : ℤ) : ℚ) = n := rfl
    rw [hcast] at h
    linarith
  | negSucc n =>
    rw [decimal, decimalValue, List.cons_append, List.head?_cons, if_pos rfl, List.tail_cons,
      magnitude_half]
    intro h
    rw [Int.cast_negSucc] at h
    linarith

end Ivy.Interval
