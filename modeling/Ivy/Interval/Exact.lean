import Ivy.Interval.Numeral
import Ivy.Interval.Returns
import Ivy.Lib.Perl
import Mathlib.Data.Int.Order.Lemmas

/-! What the patterns of `regexpGen` match among the numerals. -/
namespace Ivy.Interval
open Regex Perl

theorem not_mem_special_of_isDigit {b : UInt8} (h : IsDigit b) : b ∉ special := by
  intro hmem
  have hspecial : special.all (fun c => ¬ IsDigit c) = true := by decide
  have hb := List.all_eq_true.mp hspecial b hmem
  exact of_decide_eq_true hb h

theorem not_mem_special_of_decimal {z : ℤ} : ∀ b ∈ decimal z, b ∉ special := by
  intro b hb
  rcases mem_decimal hb with rfl | hdigit
  · decide
  · exact not_mem_special_of_isDigit hdigit

/-- `[\d.]` -/
def digitOrDot : Regex UInt8 := seqs [within [(Perl.zero, nine), (Perl.dot, Perl.dot)]]

/-- `(?:\.\d+)?` -/
def fraction : Regex UInt8 := rep (seqs [lit Perl.dot, rep Perl.digit 1 none]) 0 (some 1)

/-- The group of a word, with the decimals or not, and the lookahead. -/
theorem parse_same {w : Text} (hw : ∀ b ∈ w, b ∉ special) (flottant : Bool) :
    parse (ascii "(?:" ++ (w ++ decimalPart flottant) ++ ascii ")(?![\\d.])") =
      some (seqs [seqs (w.map lit ++ if flottant then [fraction] else []),
        notAhead digitOrDot]) := by
  have hopen : (ascii "(?:").foldlM State.feed .init =
      some ⟨[.new false], .new false, .items⟩ := rfl
  have hword := State.foldlM_word (s := ⟨[.new false], .new false, .items⟩) rfl hw
  have hitems : ((w.map lit).reverse ++ []).reverse = w.map lit := by
    rw [List.append_nil, List.reverse_reverse]
  have hlast : ∀ (items : List (Regex UInt8)) (repeatable : Bool),
      ((ascii ")(?![\\d.])").foldlM State.feed
        ⟨[.new false], ⟨false, [], items, repeatable⟩, .items⟩).bind State.finish =
          some (seqs [seqs items.reverse, notAhead digitOrDot]) := fun _ _ => rfl
  rw [parse, List.foldlM_append, List.foldlM_append, hopen, Option.bind_eq_bind, Option.bind_some,
    List.foldlM_append, hword, Option.bind_eq_bind, Option.bind_some]
  cases flottant with
  | false =>
    refine (hlast ((w.map lit).reverse ++ []) _).trans ?_
    rw [hitems, if_neg Bool.false_ne_true, List.append_nil]
  | true =>
    refine (hlast (fraction :: ((w.map lit).reverse ++ [])) true).trans ?_
    rw [List.reverse_cons, hitems]
    rfl

def ExactIntegers (regexp : Text) (lo hi : ℤ) : Prop :=
  ∃ r, parse regexp = some r ∧ ∀ s, IsInteger s → (r.Whole s ↔ lo ≤ intValue s ∧ intValue s ≤ hi)

/-- Among the decimal numerals, the pattern matches those with a value between the bounds. -/
def ExactDecimals (regexp : Text) (lo hi : ℤ) : Prop :=
  ∃ r, parse regexp = some r ∧
    ∀ s, IsDecimal s → (r.Whole s ↔ lo ≤ decimalValue s ∧ decimalValue s ≤ hi)

/-- The bounds that make `regexpGen` ask for the interval from `1` to `1`: `0` and `1`, or `-1`
and one that is not negative. -/
def AroundOne (lo hi : ℤ) : Prop := lo = 0 ∧ hi = 1 ∨ lo = -1 ∧ 0 ≤ hi

/-- `0` and `1`, `-1` and `0`, or `-1` and `1`. -/
def UnitBounds (lo hi : ℤ) : Prop := lo = 0 ∧ hi = 1 ∨ lo = -1 ∧ (hi = 0 ∨ hi = 1)

section
variable (a b : Int32)

theorem sorted_of_swap {β : Type} (f : ℤ → ℤ → β)
    (hswap : ∀ {min max}, max < min → Int.bmod max (2 ^ 32) = max → f min max = f max min) :
    f a.toInt b.toInt = f (min a.toInt b.toInt) (max a.toInt b.toInt) := by
  rcases le_or_gt a.toInt b.toInt with hle | hlt
  · rw [min_eq_left hle, max_eq_right hle]
  · have hlo := Int32.le_toInt b
    have hhi := Int32.toInt_lt b
    have hmod : Int.bmod b.toInt (2 ^ 32) = b.toInt := Int.bmod_eq_of_le (by omega) (by omega)
    rw [min_eq_right hlt.le, max_eq_left hlt.le]
    exact hswap hlt hmod

theorem regexpGen_sorted (fuel : ℕ) (uninit : ℕ → Uninit) (buflen : ℕ) (flottant : Bool) :
    regexpGen fuel uninit buflen a.toInt b.toInt flottant =
      regexpGen fuel uninit buflen (min a.toInt b.toInt) (max a.toInt b.toInt) flottant :=
  sorted_of_swap a b (fun min max => regexpGen fuel uninit buflen min max flottant)
    fun hlt hmod => regexpGen_swap fuel uninit buflen hlt hmod flottant

/-- What is written for equal bounds. -/
def sameRegexp (flottant : Bool) : Text :=
  ascii "(?:" ++ (decimal a.toInt ++ decimalPart flottant) ++ ascii ")(?![\\d.])"

theorem regexpGen_eq_bounds (fuel : ℕ) (uninit : ℕ → Uninit) (flottant : Bool) :
    regexpGen (fuel + 1) uninit 8192 a.toInt a.toInt flottant = .returns (sameRegexp a flottant) :=
  regexpGen_same_returns fuel uninit a.le_toInt a.toInt_lt flottant

theorem digitOrDot_end (before : Text) (u : Place UInt8) : ¬ digitOrDot.Reads ⟨before, []⟩ u := by
  rintro ⟨v, ⟨b, rest, hrest, -⟩, -⟩
  exact absurd hrest (List.cons_ne_nil b rest).symm

theorem exactIntegers_same : ExactIntegers (sameRegexp a false) a.toInt a.toInt := by
  refine ⟨_, parse_same not_mem_special_of_decimal false, ?_⟩
  intro s hs
  rw [if_neg Bool.false_ne_true, List.append_nil, whole_guarded digitOrDot_end, whole_word,
    hs.eq_decimal_iff]
  omega

/-- Any decimals are matched after the integer. -/
theorem not_exactDecimals_same : ¬ ExactDecimals (sameRegexp a true) a.toInt a.toInt := by
  rintro ⟨r, hr, h⟩
  rw [sameRegexp, parse_same not_mem_special_of_decimal true] at hr
  cases hr
  have hfraction : (seqs [fraction]).Reads ⟨(decimal a.toInt).reverse, [dot, digit 5]⟩
      ⟨digit 5 :: dot :: (decimal a.toInt).reverse, []⟩ := by
    apply mem_places.mp
    exact List.mem_cons_of_mem _ List.mem_cons_self
  have hword : (seqs ((decimal a.toInt).map lit)).Reads ⟨[], decimal a.toInt ++ [dot, digit 5]⟩
      ⟨(decimal a.toInt).reverse, [dot, digit 5]⟩ :=
    reads_word.mpr ⟨rfl, (List.append_nil _).symm⟩
  have hwhole := (h _ (isDecimal_half a.toInt)).mp <| (whole_guarded digitOrDot_end).mpr
    ⟨_, reads_seqs_append.mpr ⟨_, hword, hfraction⟩⟩
  exact decimalValue_half a.toInt (le_antisymm hwhole.2 hwhole.1)

end

/-! ### The bounds `0`, `1` and `-1` -/

theorem regexpGen_zero_one (fuel buflen : ℕ) :
    regexpGen (fuel + 1) (fun _ => .holding []) buflen 0 1 true =
      ending buflen (ascii "(?:(?:0(?:\\.\\d+)?)|1") := by
  rw [regexpGen_zero _ _ _ _ (by omega),
    strictPosRegexpGen_one _ List.not_mem_nil (Nat.zero_lt_succ _)]
  rfl

theorem regexpGen_minus_one_zero (fuel buflen : ℕ) :
    regexpGen (fuel + 1) (fun _ => .holding []) buflen (-1) 0 true =
      ending buflen (ascii "(?:(?:0(?:\\.0+)?)|(?:-0(?:\\.\\d+)?)|-(?:1)") := by
  rw [regexpGen_neg_zero _ _ _ _ (by omega), Int.neg_neg,
    strictPosRegexpGen_one _ List.not_mem_nil (Nat.zero_lt_succ _)]
  rfl

theorem regexpGen_minus_one_one (fuel buflen : ℕ) :
    regexpGen (fuel + 2) (fun _ => .holding []) buflen (-1) 1 true =
      ending buflen (ascii
        ("(?:(?:(?:(?:0(?:\\.0+)?)|(?:-0(?:\\.\\d+)?)|-(?:1))(?![\\d.])|" ++
          "(?:(?:0(?:\\.\\d+)?)|1)(?![\\d.]))")) := by
  have hneg : ending (8192 - beforeBoth.length)
      (ascii "(?:(?:0(?:\\.0+)?)|(?:-0(?:\\.\\d+)?)|-(?:1)") =
        .returns (ascii "(?:(?:0(?:\\.0+)?)|(?:-0(?:\\.\\d+)?)|-(?:1))(?![\\d.])") := rfl
  rw [regexpGen_cross _ _ _ _ (by omega) (by omega), regexpGen_minus_one_zero, hneg,
    Outcome.returns_bind, regexpGen_zero_one]
  rfl

/-- A numeral on which the pattern and the bounds disagree. -/
theorem not_exactDecimals_of {regexp s : Text} {lo hi : ℤ} (found : Bool) (hs : IsDecimal s)
    (hfound : (parse regexp).map (fun r => decide (r.Whole s)) = some found)
    (hvalue : ¬ (found = true ↔ lo ≤ decimalValue s ∧ decimalValue s ≤ hi)) :
    ¬ ExactDecimals regexp lo hi := by
  rintro ⟨r, hr, h⟩
  rw [hr, Option.map_some, Option.some.injEq] at hfound
  subst hfound
  exact hvalue (by simpa using h s hs)

/-- With empty arrays the upper or the lower bound is not matched with decimals. -/
theorem exists_not_exactDecimals {lo hi : ℤ} (h : UnitBounds lo hi) :
    ∃ regexp, regexpGen 2 (fun _ => .holding []) 8192 lo hi true = .returns regexp ∧
      ¬ ExactDecimals regexp lo hi := by
  have hone : decimalValue (ascii "1.0") = 1 := by decide +kernel
  have hminus : decimalValue (ascii "-1.0") = -1 := by decide +kernel
  rcases h with ⟨rfl, rfl⟩ | ⟨rfl, rfl | rfl⟩
  · refine ⟨_, (regexpGen_zero_one 1 8192).trans (checkAndReturn_returns (by decide)), ?_⟩
    refine not_exactDecimals_of (s := ascii "1.0") false
      (isDecimal_digit (.inl rfl) 1 (Nat.zero_lt_succ 9)) (by decide) ?_
    rw [hone]
    norm_num
  · refine ⟨_, (regexpGen_minus_one_zero 1 8192).trans (checkAndReturn_returns (by decide)), ?_⟩
    refine not_exactDecimals_of (s := ascii "-1.0") false
      (isDecimal_digit (.inr rfl) 1 (Nat.zero_lt_succ 9)) (by decide) ?_
    rw [hminus]
    norm_num
  · refine ⟨_, (regexpGen_minus_one_one 0 8192).trans (checkAndReturn_returns (by decide)), ?_⟩
    refine not_exactDecimals_of (s := ascii "1.0") false
      (isDecimal_digit (.inl rfl) 1 (Nat.zero_lt_succ 9)) (by decide) ?_
    rw [hone]
    norm_num

/-! ### The intervals of integers -/

section
variable (a b : Int32)

/-- The pattern of an interval of integers is exact, if there is one and whatever the arrays held,
unless the bounds lie around `1`. With any arrays there is one if and only if the bounds are
equal. -/
theorem integers_exact_iff :
    ((∀ fuel uninit,
        (∀ e, regexpGen fuel uninit 8192 a.toInt b.toInt false ≠ .fails e) ∧
        ∀ r, regexpGen fuel uninit 8192 a.toInt b.toInt false = .returns r →
          ExactIntegers r (min a.toInt b.toInt) (max a.toInt b.toInt)) ↔
      ¬ AroundOne (min a.toInt b.toInt) (max a.toInt b.toInt)) ∧
    ((∀ uninit, ∃ fuel r, regexpGen fuel uninit 8192 a.toInt b.toInt false = .returns r ∧
        ExactIntegers r (min a.toInt b.toInt) (max a.toInt b.toInt)) ↔ a = b) := by
  have hundefined : a ≠ b → ¬ AroundOne (min a.toInt b.toInt) (max a.toInt b.toInt) →
      ∀ fuel uninit, regexpGen fuel uninit 8192 a.toInt b.toInt false = .undefined := by
    intro hab hone fuel uninit
    have hlt : min a.toInt b.toInt < max a.toInt b.toInt :=
      min_lt_max.mpr (mt Int32.toInt_inj.mp hab)
    rw [regexpGen_sorted]
    exact regexpGen_undefined _ _ _ _ hlt (fun h => hone (.inl h)) fun h => hone (.inr h)
  constructor
  · constructor
    · intro h hone
      have hfails := regexpGen_fails 0 8192 false hone
      rw [← regexpGen_sorted] at hfails
      exact (h 2 fun _ => .holding full).1 _ hfails
    · intro hone fuel uninit
      by_cases hab : a = b
      · subst hab
        rw [min_self, max_self]
        cases fuel with
        | zero => simp [regexpGen]
        | succ fuel =>
          rw [regexpGen_eq_bounds]
          constructor
          · simp
          · rintro r hr
            cases hr
            exact exactIntegers_same a
      · rw [hundefined hab hone]
        simp
  · constructor
    · intro h
      by_contra hab
      obtain ⟨fuel, r, hr, -⟩ := h fun _ => .holding full
      by_cases hone : AroundOne (min a.toInt b.toInt) (max a.toInt b.toInt)
      · rw [regexpGen_sorted] at hr
        exact regexpGen_full_ne_returns fuel 8192 false hone r hr
      · rw [hundefined hab hone] at hr
        simp at hr
    · rintro rfl uninit
      rw [min_self, max_self]
      exact ⟨1, _, regexpGen_eq_bounds a 0 uninit false, exactIntegers_same a⟩

end

/-- An `x` in the array becomes a part of the pattern, and `1` is not matched. -/
theorem zero_one_not_exact :
    regexpGen 1 (fun _ => .holding (ascii "x")) 8192 0 1 false =
        .returns (ascii "(?:(?:0)|x1)(?![\\d.])") ∧
      ¬ ExactIntegers (ascii "(?:(?:0)|x1)(?![\\d.])") 0 1 := by
  constructor
  · rw [regexpGen_zero _ _ _ _ (by omega), strictPosRegexpGen_one _ (by decide) (by decide)]
    rfl
  · rintro ⟨r, hr, h⟩
    have hmiss : (parse (ascii "(?:(?:0)|x1)(?![\\d.])")).map
        (fun r => decide (r.Whole (ascii "1"))) = some false := by decide
    rw [hr, Option.map_some, Option.some.injEq, decide_eq_false_iff_not] at hmiss
    exact hmiss ((h _ (.inl (isNatural_decimalNat 1))).mpr (by decide))

/-! ### The intervals of decimal numbers -/

section
variable (a b : Int32)

theorem regexpGen_ne_returns {lo hi : ℤ} (hlt : lo < hi) (hunit : ¬ UnitBounds lo hi) (fuel : ℕ)
    (uninit : ℕ → Uninit) (buflen : ℕ) (flottant : Bool) (r : Text) :
    regexpGen fuel uninit buflen lo hi flottant ≠ .returns r := by
  by_cases hcross : lo = -1 ∧ 1 < hi
  · exact regexpGen_cross_ne_returns _ _ _ _ (by omega) hcross.2 r
  · have hpos : ¬ (lo = 0 ∧ hi = 1) := fun h => hunit (.inl h)
    have hneg : ¬ (lo = -1 ∧ 0 ≤ hi) := by
      rintro ⟨hlo, hhi⟩
      exact hunit (.inr ⟨hlo, by omega⟩)
    rw [regexpGen_undefined _ _ _ _ hlt hpos hneg]
    simp

theorem exists_not_exact (h : ¬ (a ≠ b ∧ ¬ UnitBounds (min a.toInt b.toInt) (max a.toInt b.toInt))) :
    ∃ fuel uninit regexp, regexpGen fuel uninit 8192 a.toInt b.toInt true = .returns regexp ∧
      ¬ ExactDecimals regexp (min a.toInt b.toInt) (max a.toInt b.toInt) := by
  by_cases hab : a = b
  · subst hab
    rw [min_self, max_self]
    exact ⟨1, fun _ => .holding [], _, regexpGen_eq_bounds a 0 _ true, not_exactDecimals_same a⟩
  · have hunit : UnitBounds (min a.toInt b.toInt) (max a.toInt b.toInt) := by
      by_contra hunit
      exact h ⟨hab, hunit⟩
    obtain ⟨regexp, hregexp, hne⟩ := exists_not_exactDecimals hunit
    exact ⟨2, _, regexp, (regexpGen_sorted a b 2 _ 8192 true).trans hregexp, hne⟩

/-- The pattern of an interval of decimal numbers is exact, if there is one, only where there never
is one: with different bounds that are not among `0`, `1` and `-1`. -/
theorem decimals_exact_iff :
    ((∀ fuel uninit buflen r,
        regexpGen fuel uninit buflen a.toInt b.toInt true = .returns r →
          ExactDecimals r (min a.toInt b.toInt) (max a.toInt b.toInt)) ↔
      a ≠ b ∧ ¬ UnitBounds (min a.toInt b.toInt) (max a.toInt b.toInt)) ∧
    ((∀ fuel uninit buflen r, regexpGen fuel uninit buflen a.toInt b.toInt true ≠ .returns r) ↔
      a ≠ b ∧ ¬ UnitBounds (min a.toInt b.toInt) (max a.toInt b.toInt)) := by
  have hnever : a ≠ b ∧ ¬ UnitBounds (min a.toInt b.toInt) (max a.toInt b.toInt) →
      ∀ fuel uninit buflen r,
        regexpGen fuel uninit buflen a.toInt b.toInt true ≠ .returns r := by
    rintro ⟨hab, hunit⟩ fuel uninit buflen r
    have hlt : min a.toInt b.toInt < max a.toInt b.toInt :=
      min_lt_max.mpr (mt Int32.toInt_inj.mp hab)
    rw [regexpGen_sorted]
    exact regexpGen_ne_returns hlt hunit fuel uninit buflen true r
  constructor
  · constructor
    · intro h
      by_contra hbounds
      obtain ⟨fuel, uninit, regexp, hregexp, hne⟩ := exists_not_exact a b hbounds
      exact hne (h fuel uninit 8192 regexp hregexp)
    · intro hbounds fuel uninit buflen r hr
      exact absurd hr (hnever hbounds fuel uninit buflen r)
  · constructor
    · intro h
      by_contra hbounds
      obtain ⟨fuel, uninit, regexp, hregexp, -⟩ := exists_not_exact a b hbounds
      exact h fuel uninit 8192 regexp hregexp
    · exact hnever

end

/-- The interval from `5` to `5` holds `5.7`, to its pattern. -/
theorem five_not_exact :
    (∀ uninit, regexpGen 1 uninit 8192 5 5 true =
        .returns (ascii "(?:5(?:\\.\\d+)?)(?![\\d.])")) ∧
      ¬ ExactDecimals (ascii "(?:5(?:\\.\\d+)?)(?![\\d.])") 5 5 := by
  constructor
  · intro uninit
    exact regexpGen_same_returns 0 uninit (by omega) (by omega) true
  · have hvalue : decimalValue (ascii "5.7") = 57 / 10 := by decide +kernel
    have hdecimal : IsDecimal (ascii "5.7") := isDecimal_digit (.inl rfl) 5 (d := 7) (by omega)
    refine not_exactDecimals_of true hdecimal (by decide) ?_
    rw [hvalue]
    norm_num

end Ivy.Interval
