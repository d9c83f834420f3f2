import Ivy.Interval.RegexpGen

/-! Which calls of `regexpGen` return, and what they write. -/
namespace Ivy.Interval
open Outcome

/-- The test of the loop always holds. -/
theorem forDown_undefined {σ : Type} {body : UInt64 → σ → Outcome σ}
    (h : ∀ i s, body i s = .undefined ∨ ∃ s', body i s = .returns s') (fuel : ℕ) (i : UInt64)
    (s : σ) : forDown body fuel i s = .undefined := by
  induction fuel generalizing i s with
  | zero => rfl
  | succ fuel ih =>
    have hi : 0 ≤ i := UInt64.zero_le
    rw [forDown, if_pos hi]
    rcases h i s with hbody | ⟨s', hbody⟩
    · rw [hbody, undefined_bind]
    · rw [hbody, returns_bind, ih]

theorem charAt_cases (s : Text) (i : ℕ) :
    charAt s i = .undefined ∨ ∃ b, charAt s i = .returns b := by
  unfold charAt
  split_ifs
  · exact .inr ⟨_, rfl⟩
  · exact .inr ⟨_, rfl⟩
  · exact .inl rfl

theorem store_cases {n : ℕ} (buf : Vector UInt8 n) (i : ℕ) (b : UInt8) :
    store buf i b = .undefined ∨ ∃ buf', store buf i b = .returns buf' := by
  unfold store
  split_ifs
  · exact .inr ⟨_, rfl⟩
  · exact .inl rfl

/-- The index of the first loop never gets negative. -/
theorem nextMax_undefined (fuel : ℕ) (revMin revMax : Vector UInt8 32) (min max : Text) :
    nextMax fuel revMin revMax min max = .undefined := by
  have hloop : ∀ (i : UInt64) (buf : Vector UInt8 32),
      (charAt min i.toNat >>= fun b => store buf (UInt64.ofNat min.length - i - 1).toNat b) =
          .undefined ∨
        ∃ buf', (charAt min i.toNat >>= fun b =>
          store buf (UInt64.ofNat min.length - i - 1).toNat b) = .returns buf' := by
    intro i buf
    rcases charAt_cases min i.toNat with hb | ⟨b, hb⟩
    · exact .inl (by rw [hb, undefined_bind])
    · rw [hb, returns_bind]
      exact store_cases _ _ _
  rw [nextMax, forDown_undefined hloop, undefined_bind]

theorem subRegs_undefined (fuel : ℕ) (uninit : Uninit) (max : ℤ) (turns : ℕ) (regList : List Text)
    (min : ℤ) : subRegs fuel uninit max turns regList min = .undefined := by
  cases turns with
  | zero => rfl
  | succ turns => rw [subRegs, nextMax_undefined, undefined_bind]

section
variable (fuel : ℕ) (uninit : Uninit) (buflen : ℕ) (decimalPart boundDecimalPart : Text)

theorem strictPosRegexpGen_undefined {min max : ℤ} (hmin : 0 < min) (hmax : 0 < max)
    (hne : min ≠ max) :
    strictPosRegexpGen fuel uninit buflen min max decimalPart boundDecimalPart = .undefined := by
  rw [strictPosRegexpGen, if_neg (by omega), if_neg hne, subRegs_undefined, undefined_bind]

theorem strictPosRegexpGen_same {z : ℤ} (hz : 0 < z) {g : Text}
    (hg : string uninit.locBuf = .returns g) (hlen : g.length + (decimal z).length < 8192) :
    strictPosRegexpGen fuel uninit buflen z z decimalPart boundDecimalPart =
      checkAndReturn (ascii "strictPosRegexpGen") buflen (g ++ decimal z) := by
  rw [strictPosRegexpGen, if_neg (by omega), if_pos rfl, hg, returns_bind, sprintf, if_pos hlen,
    returns_bind]
end

theorem regexpGen_swap (fuel : ℕ) (uninit : ℕ → Uninit) (buflen : ℕ) {min max : ℤ}
    (hlt : max < min) (hmax : Int.bmod max (2 ^ 32) = max) (flottant : Bool) :
    regexpGen fuel uninit buflen min max flottant = regexpGen fuel uninit buflen max min flottant := by
  cases fuel with
  | zero => rfl
  | succ fuel =>
    have hgt : min > max := hlt
    have hng : ¬ max > min := by omega
    simp only [regexpGen, if_pos hgt, if_neg hng, hmax]

/-! ### The branches of `regexpGen` -/

section
variable (fuel : ℕ) (uninit : ℕ → Uninit) (buflen : ℕ) (flottant : Bool) {min max : ℤ}

def ending (buflen : ℕ) (locBuf : Text) : Outcome Text :=
  checkAndReturn (ascii "regexpGen") buflen (addLocBuf locBuf (ascii ")(?![\\d.])"))

def beforeNegative (flottant : Bool) : Text :=
  addLocBuf (ascii "(?:") (ascii "(?:0" ++ boundDecimalPart flottant ++ ascii ")|(?:-0" ++
    decimalPart flottant ++ ascii ")|-(?:")

def beforePositive (flottant : Bool) : Text :=
  addLocBuf (ascii "(?:") (ascii "(?:0" ++ decimalPart flottant ++ ascii ")|")

def beforeBoth : Text := addLocBuf (ascii "(?:") (ascii "(?:")

theorem regexpGen_same : regexpGen (fuel + 1) uninit buflen min min flottant =
    ending buflen (addLocBuf (ascii "(?:") (decimal min ++ decimalPart flottant)) := by
  have hgt : ¬ min > min := Int.lt_irrefl min
  simp only [regexpGen, if_neg hgt]
  rfl

theorem regexpGen_neg (hlt : min < max) (hmax : max < 0) :
    regexpGen (fuel + 1) uninit buflen min max flottant =
      (strictPosRegexpGen fuel (uninit 0) 8184 (-min) (-max) (decimalPart flottant)
        (boundDecimalPart flottant) >>= fun regexp =>
          ending buflen (addLocBuf (ascii "(?:\\-(?:" ++ regexp) (ascii ")"))) := by
  have hgt : ¬ min > max := by omega
  have hne : ¬ min = max := by omega
  have hmin : min < 0 := by omega
  simp only [regexpGen, if_neg hgt, if_neg hne, if_pos hmin, if_pos hmax]
  rfl

theorem regexpGen_neg_zero (hmin : min < 0) :
    regexpGen (fuel + 1) uninit buflen min 0 flottant =
      (strictPosRegexpGen fuel (uninit 0) (8192 - (beforeNegative flottant).length) 1 (-min)
        (decimalPart flottant) (boundDecimalPart flottant) >>= fun regexp =>
          ending buflen (addLocBuf (beforeNegative flottant ++ regexp) (ascii ")"))) := by
  have hgt : ¬ min > 0 := by omega
  have hne : ¬ min = 0 := by omega
  simp only [regexpGen, if_neg hgt, if_neg hne, if_pos hmin]
  rfl

theorem regexpGen_cross (hmin : min < 0) (hmax : 0 < max) :
    regexpGen (fuel + 1) uninit buflen min max flottant =
      (regexpGen fuel uninit (8192 - beforeBoth.length) min 0 flottant >>= fun neg =>
        regexpGen fuel (fun k => uninit (k + 1))
          (8192 - (addLocBuf (beforeBoth ++ neg) (ascii "|")).length) 0 max flottant >>=
            fun pos => ending buflen
              (addLocBuf (addLocBuf (beforeBoth ++ neg) (ascii "|") ++ pos) (ascii ")"))) := by
  have hgt : ¬ min > max := by omega
  have hne : ¬ min = max := by omega
  have hneg : ¬ max < 0 := by omega
  have hmax0 : ¬ max = 0 := by omega
  simp only [regexpGen, if_neg hgt, if_neg hne, if_pos hmin, if_neg hneg, if_neg hmax0]
  rfl

theorem regexpGen_zero (hmax : 0 < max) :
    regexpGen (fuel + 1) uninit buflen 0 max flottant =
      (strictPosRegexpGen fuel (uninit 0) (8192 - (beforePositive flottant).length) 1 max
        (decimalPart flottant) (boundDecimalPart flottant) >>= fun regexp =>
          ending buflen (beforePositive flottant ++ regexp)) := by
  have hgt : ¬ 0 > max := by omega
  have hne : ¬ 0 = max := by omega
  simp only [regexpGen, if_neg hgt, if_neg hne]
  rfl

theorem regexpGen_pos (hmin : 0 < min) (hlt : min < max) :
    regexpGen (fuel + 1) uninit buflen min max flottant =
      (strictPosRegexpGen fuel (uninit 0) 8189 min max (decimalPart flottant)
        (boundDecimalPart flottant) >>= fun regexp => ending buflen (ascii "(?:" ++ regexp)) := by
  have hgt : ¬ min > max := by omega
  have hne : ¬ min = max := by omega
  have hneg : ¬ min < 0 := by omega
  have hmin0 : ¬ min = 0 := by omega
  simp only [regexpGen, if_neg hgt, if_neg hne, if_neg hneg, if_neg hmin0]
  rfl

/-! ### The calls that do not return -/

theorem regexpGen_neg_zero_undefined (hmin : min < -1) :
    regexpGen fuel uninit buflen min 0 flottant = .undefined := by
  cases fuel with
  | zero => rfl
  | succ fuel =>
    have hneg : min < 0 := by omega
    rw [regexpGen_neg_zero _ _ _ _ hneg]
    rw [strictPosRegexpGen_undefined _ _ _ _ _ (by omega) (by omega) (by omega), undefined_bind]

theorem regexpGen_zero_undefined (hmax : 1 < max) :
    regexpGen fuel uninit buflen 0 max flottant = .undefined := by
  cases fuel with
  | zero => rfl
  | succ fuel =>
    have hpos : 0 < max := by omega
    rw [regexpGen_zero _ _ _ _ hpos]
    rw [strictPosRegexpGen_undefined _ _ _ _ _ (by omega) (by omega) (by omega), undefined_bind]

theorem regexpGen_undefined (hlt : min < max) (hpos : ¬ (min = 0 ∧ max = 1))
    (hneg : ¬ (min = -1 ∧ 0 ≤ max)) :
    regexpGen fuel uninit buflen min max flottant = .undefined := by
  cases fuel with
  | zero => rfl
  | succ fuel =>
    rcases Int.lt_trichotomy max 0 with hmax | hmax | hmax
    · rw [regexpGen_neg _ _ _ _ hlt hmax]
      rw [strictPosRegexpGen_undefined _ _ _ _ _ (by omega) (by omega) (by omega), undefined_bind]
    · subst hmax
      exact regexpGen_neg_zero_undefined _ _ _ _ (by omega)
    · rcases Int.lt_trichotomy min 0 with hmin | hmin | hmin
      · have hless : min < -1 := by omega
        rw [regexpGen_cross _ _ _ _ hmin hmax, regexpGen_neg_zero_undefined _ _ _ _ hless,
          undefined_bind]
      · subst hmin
        exact regexpGen_zero_undefined _ _ _ _ (by omega)
      · rw [regexpGen_pos _ _ _ _ hmin hlt]
        rw [strictPosRegexpGen_undefined _ _ _ _ _ hmin hmax (by omega), undefined_bind]

/-- The first half may fail or return, the second one does neither. -/
theorem regexpGen_cross_ne_returns (hmin : min < 0) (hmax : 1 < max) (r : Text) :
    regexpGen fuel uninit buflen min max flottant ≠ .returns r := by
  cases fuel with
  | zero => simp [regexpGen]
  | succ fuel =>
    rw [regexpGen_cross _ _ _ _ hmin (by omega)]
    cases regexpGen fuel uninit (8192 - beforeBoth.length) min 0 flottant with
    | returns neg =>
      rw [returns_bind, regexpGen_zero_undefined _ _ _ _ hmax, undefined_bind]
      simp
    | fails e => simp
    | undefined => simp

end

def holding (n : ℕ) (t : Text) : Vector UInt8 n :=
  ⟨((t ++ List.replicate n 0).take n).toArray, by
    rw [List.size_toArray, List.length_take, List.length_append, List.length_replicate]
    omega⟩

theorem string_holding {n : ℕ} {t : Text} (h0 : 0 ∉ t) (hlen : t.length < n) :
    string (holding n t) = .returns t := by
  have hlist : (holding n t).toList = t ++ 0 :: List.replicate (n - t.length - 1) 0 := by
    have hrep : 0 :: List.replicate (n - t.length - 1) (0 : UInt8) =
        List.replicate (n - t.length) 0 := by
      rw [← List.replicate_succ]
      congr 1
      omega
    have htake : (t ++ List.replicate n (0 : UInt8)).take n =
        t ++ List.replicate (n - t.length) 0 := by
      rw [List.take_append, List.take_of_length_le (Nat.le_of_lt hlen), List.take_replicate]
      congr 2
      omega
    rw [hrep]
    exact htake
  have hall : ∀ b ∈ t, decide (b ≠ 0) = true := by
    intro b hb
    have hne : b ≠ 0 := fun h => h0 (h ▸ hb)
    simpa using hne
  rw [string, hlist, if_pos (by simp), List.takeWhile_append_of_pos hall,
    List.takeWhile_cons_of_neg (by simp), List.append_nil]

def Uninit.holding (t : Text) : Uninit where
  locBuf := Interval.holding 8192 t
  revMin _ := .replicate 32 0
  revMax _ := .replicate 32 0

/-! ### The calls that return -/

theorem addLocBuf_eq {locBuf text : Text} (h : locBuf.length + text.length < 8192) :
    addLocBuf locBuf text = locBuf ++ text := by
  apply List.take_of_length_le
  rw [List.length_append]
  omega

theorem checkAndReturn_returns {func : Text} {buflen : ℕ} {locBuf : Text}
    (h : locBuf.length < buflen) : checkAndReturn func buflen locBuf = .returns locBuf := if_pos h

theorem checkAndReturn_fails {func : Text} {buflen : ℕ} {locBuf : Text}
    (h : buflen < locBuf.length) :
    checkAndReturn func buflen locBuf = .fails ⟨ascii "CHECK_AND_RETURN", func⟩ := by
  rw [checkAndReturn, if_neg (by omega), if_neg (by omega)]

theorem length_decimalPart (flottant : Bool) : (decimalPart flottant).length ≤ 10 := by
  cases flottant <;> decide

/-- Equal bounds: the numeral and the decimals, whatever the arrays hold. -/
theorem regexpGen_same_returns (fuel : ℕ) (uninit : ℕ → Uninit) {z : ℤ} (hlo : -2 ^ 31 ≤ z)
    (hhi : z < 2 ^ 31) (flottant : Bool) :
    regexpGen (fuel + 1) uninit 8192 z z flottant =
      .returns (ascii "(?:" ++ (decimal z ++ decimalPart flottant) ++ ascii ")(?![\\d.])") := by
  have hdecimal := length_decimal_le hlo hhi
  have hpart := length_decimalPart flottant
  have hlen : (ascii "(?:" ++ (decimal z ++ decimalPart flottant)).length ≤ 24 := by
    rw [List.length_append, List.length_append, show (ascii "(?:").length = 3 from rfl]
    omega
  have hend : (ascii ")(?![\\d.])").length = 10 := rfl
  have hbegin : addLocBuf (ascii "(?:") (decimal z ++ decimalPart flottant) =
      ascii "(?:" ++ (decimal z ++ decimalPart flottant) := by
    apply addLocBuf_eq
    rw [List.length_append] at hlen
    omega
  rw [regexpGen_same, hbegin, ending, addLocBuf_eq (by omega), checkAndReturn_returns]
  rw [List.length_append]
  omega

theorem strictPosRegexpGen_one (fuel : ℕ) {t : Text} (h0 : 0 ∉ t) (hlen : t.length < 8191)
    (buflen : ℕ) (decimalPart boundDecimalPart : Text) :
    strictPosRegexpGen fuel (.holding t) buflen 1 1 decimalPart boundDecimalPart =
      checkAndReturn (ascii "strictPosRegexpGen") buflen (t ++ ascii "1") := by
  apply strictPosRegexpGen_same
  · omega
  · exact string_holding h0 (by omega)
  · exact Nat.add_lt_add_right hlen 1

/-- A string that leaves `strictPosRegexpGen` no room for its result. -/
def full : Text := List.replicate 8190 120

theorem strictPosRegexpGen_full (fuel : ℕ) {buflen : ℕ} (hbuflen : buflen < 8191)
    (decimalPart boundDecimalPart : Text) :
    strictPosRegexpGen fuel (.holding full) buflen 1 1 decimalPart boundDecimalPart =
      .fails ⟨ascii "CHECK_AND_RETURN", ascii "strictPosRegexpGen"⟩ := by
  have hlen : full.length = 8190 := List.length_replicate
  have h0 : 0 ∉ full := by
    intro h
    exact absurd (List.eq_of_mem_replicate h) (by decide)
  rw [strictPosRegexpGen_one _ h0 (by omega), checkAndReturn_fails]
  rw [List.length_append, hlen]
  exact hbuflen

section
variable (fuel buflen : ℕ) (flottant : Bool) {min max : ℤ}

theorem regexpGen_neg_full :
    regexpGen (fuel + 1) (fun _ => .holding full) buflen (-1) 0 flottant =
      .fails ⟨ascii "CHECK_AND_RETURN", ascii "strictPosRegexpGen"⟩ := by
  have hroom : 8192 - (beforeNegative flottant).length < 8191 := by
    cases flottant <;> decide
  rw [regexpGen_neg_zero _ _ _ _ (by omega)]
  exact congrArg (· >>= _) (strictPosRegexpGen_full fuel hroom _ _)

theorem regexpGen_pos_full :
    regexpGen (fuel + 1) (fun _ => .holding full) buflen 0 1 flottant =
      .fails ⟨ascii "CHECK_AND_RETURN", ascii "strictPosRegexpGen"⟩ := by
  have hroom : 8192 - (beforePositive flottant).length < 8191 := by
    cases flottant <;> decide
  rw [regexpGen_zero _ _ _ _ (by omega), strictPosRegexpGen_full _ hroom, fails_bind]

/-- The calls with the bounds `0` and `1`, or `-1` and a larger one, can fail. -/
theorem regexpGen_fails (h : min = 0 ∧ max = 1 ∨ min = -1 ∧ 0 ≤ max) :
    regexpGen (fuel + 2) (fun _ => .holding full) buflen min max flottant =
      .fails ⟨ascii "CHECK_AND_RETURN", ascii "strictPosRegexpGen"⟩ := by
  rcases h with ⟨rfl, rfl⟩ | ⟨rfl, hmax⟩
  · exact regexpGen_pos_full (fuel + 1) buflen flottant
  · by_cases hmax0 : max = 0
    · subst hmax0
      exact regexpGen_neg_full (fuel + 1) buflen flottant
    · rw [regexpGen_cross _ _ _ _ (by omega) (by omega), regexpGen_neg_full, fails_bind]

/-- With the arrays in that state they do not return. -/
theorem regexpGen_full_ne_returns (h : min = 0 ∧ max = 1 ∨ min = -1 ∧ 0 ≤ max) (r : Text) :
    regexpGen fuel (fun _ => .holding full) buflen min max flottant ≠ .returns r := by
  match fuel with
  | 0 => simp [regexpGen]
  | 1 =>
    rcases h with ⟨rfl, rfl⟩ | ⟨rfl, hmax⟩
    · rw [regexpGen_pos_full 0]
      simp
    · by_cases hmax0 : max = 0
      · subst hmax0
        rw [regexpGen_neg_full 0]
        simp
      · rw [regexpGen_cross _ _ _ _ (by omega) (by omega)]
        simp [regexpGen]
  | fuel + 2 =>
    rw [regexpGen_fails fuel buflen flottant h]
    simp

end

end Ivy.Interval
