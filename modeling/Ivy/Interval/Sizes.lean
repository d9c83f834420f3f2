import Ivy.Interval.Writes

/-! Which calls of `regexpGen` respect the sizes of the outputs. -/
namespace Ivy.Interval.Logged
open Outcome

theorem Respects.of_undefined {r : Run Text} (h : r.outcome = .undefined) : Respects r where
  fits hne := absurd h hne
  complete regexp hregexp := by
    rw [h] at hregexp
    cases hregexp

theorem respects_checkAndReturn (func : Text) (buflen : ℕ) (locBuf : Text) :
    Respects (checkAndReturn func buflen locBuf) ↔ locBuf.length ≠ buflen := by
  constructor
  · intro h heq
    have hle : locBuf.length ≤ buflen := heq.le
    have hfits := h.fits (by simp [checkAndReturn, hle]) (.writes func buflen (locBuf.length + 1))
      (by simp [checkAndReturn, hle])
    have hbytes : locBuf.length + 1 ≤ buflen := hfits
    omega
  · intro hne
    by_cases hle : locBuf.length ≤ buflen
    · refine ⟨fun _ e he => ?_, fun _ _ text htext => ?_⟩
      · simp only [checkAndReturn, if_pos hle, List.mem_singleton] at he
        subst he
        show locBuf.length + 1 ≤ buflen
        omega
      · simp [checkAndReturn, hle] at htext
    · refine ⟨fun _ e he => ?_, fun _ _ text htext => ?_⟩
      · simp [checkAndReturn, hle] at he
      · simp [checkAndReturn, hle] at htext

theorem addLocBuf_bind {α : Type} {locBuf text : Text} (h : locBuf.length + text.length < 8192)
    (f : Text → Run α) : addLocBuf locBuf text >>= f = f (locBuf ++ text) := by
  have hroom : text.length ≤ 8192 - locBuf.length - 1 := by omega
  rw [addLocBuf, if_pos hroom, List.take_of_length_le hroom, Run.returns_bind]
  rfl

def sameLength (z : ℤ) (flottant : Bool) : ℕ := (decimal z).length + (if flottant then 10 else 0) + 13

section
variable (fuel : ℕ) (uninit : ℕ → Uninit) (buflen : ℕ) (flottant : Bool) (a b : Int32)

theorem regexpGen_same_eq : ∃ text, text.length = sameLength a.toInt flottant ∧
    regexpGen (fuel + 1) uninit buflen a.toInt a.toInt flottant =
      checkAndReturn (ascii "regexpGen") buflen text := by
  have hdecimal := length_decimal_le a.le_toInt a.toInt_lt
  have hpart : (decimalPart flottant).length = if flottant then 10 else 0 := by
    cases flottant <;> rfl
  have hbegin : (ascii "(?:").length = 3 := rfl
  have hend : (ascii ")(?![\\d.])").length = 10 := rfl
  refine ⟨ascii "(?:" ++ (decimal a.toInt ++ decimalPart flottant) ++ ascii ")(?![\\d.])", ?_, ?_⟩
  · simp only [List.length_append, hbegin, hend, hpart, sameLength]
    omega
  · have hlen : (ascii "(?:" ++ (decimal a.toInt ++ decimalPart flottant)).length ≤ 24 := by
      simp only [List.length_append, hbegin, hpart]
      split_ifs <;> omega
    rw [regexpGen_same, addLocBuf_bind, ending, addLocBuf_bind]
    · omega
    · rw [List.length_append] at hlen
      omega

/-! ### Different bounds -/

theorem strictPosRegexpGen_undefined (uninit : Uninit) {min max : ℤ} (hmin : 0 < min) (hmax : 0 < max)
    (hne : min ≠ max) (decimalPart boundDecimalPart : Text) :
    (strictPosRegexpGen fuel uninit buflen min max decimalPart boundDecimalPart).outcome =
      .undefined := by
  have hloop : (subRegs fuel uninit (max - 1) 64 [] min).outcome = .undefined := by
    rw [subRegs, nextMax_undefined]
    rfl
  rw [strictPosRegexpGen, if_neg (by omega), if_neg hne, Run.outcome_bind, hloop]
  rfl

theorem undefined_of_bind {α β : Type} {x : Run α} (h : x.outcome = .undefined) (f : α → Run β) :
    (x >>= f).outcome = .undefined := by
  rw [Run.outcome_bind, h]
  rfl

theorem regexpGen_undefined {min max : ℤ} (hlt : min < max) (hone : ¬ AroundOne min max) :
    (regexpGen fuel uninit buflen min max flottant).outcome = .undefined := by
  cases fuel with
  | zero => rfl
  | succ fuel =>
    unfold AroundOne at hone
    have hnegzero : ∀ fuel buflen, min < -1 →
        (regexpGen fuel uninit buflen min 0 flottant).outcome = .undefined := by
      intro fuel buflen hmin
      cases fuel with
      | zero => rfl
      | succ fuel =>
        rw [regexpGen_neg_zero _ _ _ _ (by omega)]
        apply undefined_of_bind
        exact strictPosRegexpGen_undefined _ _ _ (by omega) (by omega) (by omega) _ _
    rcases Int.lt_trichotomy max 0 with hmax | rfl | hmax
    · rw [regexpGen_neg _ _ _ _ hlt hmax]
      apply undefined_of_bind
      exact strictPosRegexpGen_undefined _ _ _ (by omega) (by omega) (by omega) _ _
    · exact hnegzero (fuel + 1) buflen (by omega)
    · rcases Int.lt_trichotomy min 0 with hmin | rfl | hmin
      · rw [regexpGen_cross _ _ _ _ hmin hmax]
        exact undefined_of_bind (hnegzero _ _ (by omega)) _
      · rw [regexpGen_zero _ _ _ _ hmax]
        apply undefined_of_bind
        exact strictPosRegexpGen_undefined _ _ _ (by omega) (by omega) (by omega) _ _
      · rw [regexpGen_pos _ _ _ _ hmin hlt]
        apply undefined_of_bind
        exact strictPosRegexpGen_undefined _ _ _ hmin hmax (by omega) _ _

/-! ### The interval from `1` to `1` -/

/-- A call of `strictPosRegexpGen` has written a byte more than there was room for, and the call
does not end with that. -/
def Overruns (r : Run Text) : Prop :=
  r.outcome ≠ .undefined ∧ ∃ buflen, .writes (ascii "strictPosRegexpGen") buflen (buflen + 1) ∈ r.events

theorem Overruns.not_respects {r : Run Text} (h : Overruns r) : ¬ Respects r := by
  obtain ⟨hdefined, buflen, hmem⟩ := h
  intro hr
  have hbytes : buflen + 1 ≤ buflen := hr.fits hdefined _ hmem
  omega

theorem Overruns.bind {α : Type} {x : Run α} {f : α → Run Text} (hx : x.outcome ≠ .undefined)
    (hmem : ∃ buflen, .writes (ascii "strictPosRegexpGen") buflen (buflen + 1) ∈ x.events)
    (hf : ∀ a, x.outcome = .returns a → (f a).outcome ≠ .undefined) : Overruns (x >>= f) := by
  obtain ⟨buflen, hmem⟩ := hmem
  obtain ⟨events, outcome⟩ := x
  cases outcome with
  | returns a => exact ⟨hf a rfl, buflen, List.mem_append_left _ hmem⟩
  | fails e => exact ⟨by simp, buflen, hmem⟩
  | undefined => exact absurd rfl hx

/-- A string that fills the room of the output with the number behind it. -/
def filling (room : ℕ) : Text := List.replicate (room - 1) 120

theorem strictPosRegexpGen_filling (hpos : 0 < buflen) (hlt : buflen < 8192)
    (decimalPart boundDecimalPart : Text) :
    strictPosRegexpGen fuel (.holding (filling buflen)) buflen 1 1 decimalPart boundDecimalPart =
      ⟨[.writes (ascii "strictPosRegexpGen") buflen (buflen + 1)],
        .returns (filling buflen ++ ascii "1")⟩ := by
  have hlen : (filling buflen).length = buflen - 1 := List.length_replicate
  have h0 : 0 ∉ filling buflen := fun h => absurd (List.eq_of_mem_replicate h) (by decide)
  have hone : (ascii "1").length = 1 := rfl
  have hfull : (filling buflen ++ ascii "1").length = buflen := by
    rw [List.length_append, hlen, hone]
    omega
  have hstring : string (Uninit.holding (filling buflen)).locBuf = .returns (filling buflen) :=
    string_holding h0 (by omega)
  have hprint : sprintf 8192 (filling buflen) (decimal 1) = .returns (filling buflen ++ ascii "1") := by
    rw [sprintf, if_pos (show (filling buflen).length + (decimal 1).length < 8192 from ?_)]
    · rfl
    · rw [hlen, show (decimal 1).length = 1 from rfl]
      omega
  rw [strictPosRegexpGen, if_neg (by omega), if_pos rfl, hstring, Outcome.returns_bind, hprint,
    Run.silent, Run.returns_bind, checkAndReturn, if_pos hfull.le, hfull]
  rfl

theorem outcome_ending (locBuf : Text) : (ending buflen locBuf).outcome ≠ .undefined := by
  rw [ending, addLocBuf, Run.returns_bind, checkAndReturn]
  split_ifs <;> simp

theorem outcome_addLocBuf {α : Type} {locBuf text : Text} {f : Text → Run α}
    (hf : ∀ l, (f l).outcome ≠ .undefined) : (addLocBuf locBuf text >>= f).outcome ≠ .undefined := hf _

theorem addLocBuf_full {α : Type} {locBuf : Text} (h : locBuf.length = 8192) (text : Text)
    (f : Text → Run α) : (addLocBuf locBuf text >>= f).outcome = (f locBuf).outcome := by
  rw [addLocBuf, h, Run.returns_bind]
  simp

theorem ending_full {locBuf : Text} (h : locBuf.length = 8192) (hbuflen : buflen < 8192) :
    ∃ e, (ending buflen locBuf).outcome = .fails e := by
  rw [ending, addLocBuf_full h, checkAndReturn, if_neg (by omega)]
  exact ⟨_, rfl⟩

theorem length_filling_one {before : Text} (hbefore : before.length < 8192) :
    (before ++ (filling (8192 - before.length) ++ ascii "1")).length = 8192 := by
  have hlen : (filling (8192 - before.length)).length = 8192 - before.length - 1 :=
    List.length_replicate
  rw [List.length_append, List.length_append, hlen, show (ascii "1").length = 1 from rfl]
  omega

/-- The array with which the calls for `-1` overrun. -/
def negativeUninit (flottant : Bool) (_ : ℕ) : Uninit :=
  .holding (filling (8192 - (beforeNegative flottant).length))

theorem regexpGen_neg_one_eq :
    regexpGen (fuel + 1) (negativeUninit flottant) buflen (-1) 0 flottant =
      (⟨[.writes (ascii "strictPosRegexpGen") (8192 - (beforeNegative flottant).length)
          (8192 - (beforeNegative flottant).length + 1)],
        .returns (filling (8192 - (beforeNegative flottant).length) ++ ascii "1")⟩ : Run Text) >>=
      fun regexp => addLocBuf (beforeNegative flottant ++ regexp) (ascii ")") >>= ending buflen := by
  have hroom : 0 < 8192 - (beforeNegative flottant).length ∧
      8192 - (beforeNegative flottant).length < 8192 := by
    cases flottant <;> decide
  rw [regexpGen_neg_zero _ _ _ _ (by omega), show -(-1 : ℤ) = 1 from rfl, negativeUninit,
    strictPosRegexpGen_filling _ _ hroom.1 hroom.2]

theorem regexpGen_neg_one_overruns :
    Overruns (regexpGen (fuel + 1) (negativeUninit flottant) buflen (-1) 0 flottant) := by
  rw [regexpGen_neg_one_eq]
  refine .bind (by simp) ⟨_, List.mem_singleton_self _⟩ fun _ _ => ?_
  exact outcome_addLocBuf fun _ => outcome_ending _ _

/-- The call then fails where its output is smaller than the array. -/
theorem regexpGen_neg_one_fails (hbuflen : buflen < 8192) : ∃ e,
    (regexpGen (fuel + 1) (negativeUninit flottant) buflen (-1) 0 flottant).outcome = .fails e := by
  have hfull := length_filling_one (length_beforeNegative flottant)
  rw [regexpGen_neg_one_eq, Run.returns_bind]
  dsimp only
  rw [addLocBuf_full hfull]
  exact ending_full _ hfull hbuflen

/-- So do the calls for `-1` and a positive bound. -/
theorem regexpGen_cross_overruns {max : ℤ} (hmax : 0 < max) :
    Overruns (regexpGen (fuel + 2) (negativeUninit flottant) buflen (-1) max flottant) := by
  have hinner := regexpGen_neg_one_overruns fuel (8192 - beforeBoth.length) flottant
  obtain ⟨e, hfails⟩ := regexpGen_neg_one_fails fuel (8192 - beforeBoth.length) flottant (by decide)
  rw [regexpGen_cross _ _ _ _ (by omega) hmax]
  refine .bind hinner.1 hinner.2 fun neg hneg => ?_
  rw [hfails] at hneg
  cases hneg

theorem regexpGen_one_overruns :
    Overruns (regexpGen (fuel + 1)
      (fun _ => .holding (filling (8192 - (beforePositive flottant).length))) buflen 0 1 flottant) := by
  have hroom : 0 < 8192 - (beforePositive flottant).length ∧
      8192 - (beforePositive flottant).length < 8192 := by
    cases flottant <;> decide
  rw [regexpGen_zero _ _ _ _ (by omega), strictPosRegexpGen_filling _ _ hroom.1 hroom.2]
  exact .bind (by simp) ⟨_, List.mem_singleton_self _⟩ fun _ _ => outcome_ending _ _

/-- Where an interval from `1` to `1` is asked, some contents of the arrays make a call overrun. -/
theorem exists_overruns {min max : ℤ} (h : AroundOne min max) :
    ∃ uninit, Overruns (regexpGen 2 uninit buflen min max flottant) := by
  rcases h with ⟨rfl, rfl⟩ | ⟨rfl, hmax⟩
  · exact ⟨_, regexpGen_one_overruns 1 buflen flottant⟩
  · rcases Int.lt_or_eq_of_le hmax with hpos | rfl
    · exact ⟨_, regexpGen_cross_overruns 0 buflen flottant hpos⟩
    · exact ⟨_, regexpGen_neg_one_overruns 1 buflen flottant⟩

end

/-! ### All bounds -/

section
variable (a b : Int32) (buflen : ℕ) (flottant : Bool)

theorem regexpGen_sorted (fuel : ℕ) (uninit : ℕ → Uninit) :
    regexpGen fuel uninit buflen a.toInt b.toInt flottant =
      regexpGen fuel uninit buflen (min a.toInt b.toInt) (max a.toInt b.toInt) flottant :=
  sorted_of_swap a b (fun min max => regexpGen fuel uninit buflen min max flottant)
    fun hlt hmod => regexpGen_swap fuel uninit buflen flottant hlt hmod

theorem respects_same : (∀ fuel uninit, Respects (regexpGen fuel uninit buflen a.toInt a.toInt flottant)) ↔
    sameLength a.toInt flottant ≠ buflen := by
  constructor
  · intro h
    obtain ⟨text, hlength, heq⟩ := regexpGen_same_eq 0 (negativeUninit flottant) buflen flottant a
    have hrespects := h 1 (negativeUninit flottant)
    rw [heq, respects_checkAndReturn, hlength] at hrespects
    exact hrespects
  · intro hne fuel uninit
    cases fuel with
    | zero => exact .of_undefined rfl
    | succ fuel =>
      obtain ⟨text, hlength, heq⟩ := regexpGen_same_eq fuel uninit buflen flottant a
      rw [heq, respects_checkAndReturn, hlength]
      exact hne

theorem outcome_same (uninit : ℕ → Uninit) :
    (regexpGen 1 uninit buflen a.toInt a.toInt flottant).outcome ≠ .undefined := by
  obtain ⟨text, -, heq⟩ := regexpGen_same_eq 0 uninit buflen flottant a
  rw [heq, checkAndReturn]
  split_ifs <;> simp

section
variable {a b}

theorem undefined_different (hab : a ≠ b)
    (hone : ¬ AroundOne (min a.toInt b.toInt) (max a.toInt b.toInt)) (fuel : ℕ) (uninit : ℕ → Uninit) :
    (regexpGen fuel uninit buflen a.toInt b.toInt flottant).outcome = .undefined := by
  have hlt : min a.toInt b.toInt < max a.toInt b.toInt := min_lt_max.mpr (mt Int32.toInt_inj.mp hab)
  rw [regexpGen_sorted]
  exact regexpGen_undefined _ _ _ _ hlt hone

theorem overruns_different (hone : AroundOne (min a.toInt b.toInt) (max a.toInt b.toInt)) :
    ∃ uninit, Overruns (regexpGen 2 uninit buflen a.toInt b.toInt flottant) := by
  obtain ⟨uninit, h⟩ := exists_overruns buflen flottant hone
  refine ⟨uninit, ?_⟩
  rw [regexpGen_sorted]
  exact h

end

/-- `regexpGen`, all that it calls included, respects the sizes of the outputs, whatever its arrays
held, if equal bounds do not make a pattern of exactly `buflen` characters and different bounds do
not lie around `1`. Then different bounds make it run for ever. -/
theorem generators_respect_iff :
    ((∀ fuel uninit, Respects (regexpGen fuel uninit buflen a.toInt b.toInt flottant)) ↔
      (a = b → sameLength a.toInt flottant ≠ buflen) ∧
      (a ≠ b → ¬ AroundOne (min a.toInt b.toInt) (max a.toInt b.toInt))) ∧
    ((∀ fuel uninit, (regexpGen fuel uninit buflen a.toInt b.toInt flottant).outcome = .undefined) ↔
      a ≠ b ∧ ¬ AroundOne (min a.toInt b.toInt) (max a.toInt b.toInt)) := by
  by_cases hab : a = b
  · subst hab
    constructor
    · rw [respects_same]
      exact ⟨fun h => ⟨fun _ => h, fun hne => absurd rfl hne⟩, fun h => h.1 rfl⟩
    · constructor
      · intro h
        exact absurd (h 1 (negativeUninit flottant)) (outcome_same a buflen flottant _)
      · exact fun h => absurd rfl h.1
  · constructor
    · constructor
      · intro h
        refine ⟨fun heq => absurd heq hab, fun _ hone => ?_⟩
        obtain ⟨uninit, hoverruns⟩ := overruns_different buflen flottant hone
        exact hoverruns.not_respects (h 2 uninit)
      · intro h fuel uninit
        exact .of_undefined (undefined_different buflen flottant hab (h.2 hab) fuel uninit)
    · constructor
      · intro h
        refine ⟨hab, fun hone => ?_⟩
        obtain ⟨uninit, hoverruns⟩ := overruns_different buflen flottant hone
        exact hoverruns.1 (h 2 uninit)
      · exact fun h => undefined_different buflen flottant hab h.2

/-- At most the terminator stands behind an output. -/
def OneByte : Event → Prop
  | .writes _ buflen bytes => bytes ≤ buflen + 1
  | _ => True

theorem allows_oneByte : Allows OneByte := ⟨fun _ _ _ h => h, fun _ => trivial⟩

theorem regexpGen_oneByte (fuel : ℕ) (uninit : ℕ → Uninit) :
    (regexpGen fuel uninit buflen a.toInt b.toInt flottant).All OneByte := by
  have ha := a.le_toInt
  have ha' := a.toInt_lt
  have hb := b.le_toInt
  have hb' := b.toInt_lt
  rw [regexpGen_sorted]
  exact allows_oneByte.regexpGen _ _ _ _ min_le_max (le_min ha hb) (max_lt ha' hb')
    fun _ _ _ _ => trivial

theorem genAtRank_oneByte (min max : Text) (rank : ℤ) :
    (genAtRank buflen min max rank).All OneByte := allows_oneByte.genAtRank _ _ _ _

/-- The pattern for the bounds `5` and `5` has 14 characters: 15 bytes are written to an output of 14. -/
theorem five_overruns : ¬ ∀ fuel uninit, Respects (regexpGen fuel uninit 14 5 5 false) := by
  intro h
  have hrun : regexpGen 1 (negativeUninit false) 14 5 5 false =
      ⟨[.writes (ascii "regexpGen") 14 15], .returns (ascii "(?:5)(?![\\d.])")⟩ := rfl
  have hrespects := h 1 (negativeUninit false)
  rw [hrun] at hrespects
  have hbytes : 15 ≤ 14 := hrespects.fits (by simp) _ (List.mem_singleton_self _)
  omega

end

end Ivy.Interval.Logged
