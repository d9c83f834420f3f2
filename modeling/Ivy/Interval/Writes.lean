import Ivy.Interval.Exact

/-! What the generators write to their outputs, and what the calls before them ask for. -/
namespace Ivy.Interval.Logged
open Outcome

/-- A call of `nextMax`, the `strcpy` of `CHECK_AND_RETURN` in some function, its terminator
included, or an `snprintf` of `AddLocBuf` that has no room for the whole text. -/
inductive Event
  | asks (min max : Text)
  | writes (func : Text) (buflen bytes : ℕ)
  | cuts (text : Text)
  deriving DecidableEq

/-- What a call does on its way, and how it ends. -/
structure Run (α : Type) where
  events : List Event
  outcome : Outcome α

namespace Run
variable {α β : Type}

def bind (x : Run α) (f : α → Run β) : Run β :=
  match x.outcome with
  | .returns a => ⟨x.events ++ (f a).events, (f a).outcome⟩
  | .fails e => ⟨x.events, .fails e⟩
  | .undefined => ⟨x.events, .undefined⟩

instance : Monad Run where
  pure a := ⟨[], .returns a⟩
  bind := Run.bind

def silent (o : Outcome α) : Run α := ⟨[], o⟩

end Run

/-- `CHECK_AND_RETURN`. Nothing stops a string of `buflen` bytes, and what comes after it goes on
with that string. -/
def checkAndReturn (func : Text) (buflen : ℕ) (locBuf : Text) : Run Text :=
  if locBuf.length ≤ buflen then ⟨[.writes func buflen (locBuf.length + 1)], .returns locBuf⟩
  else ⟨[], .fails ⟨ascii "CHECK_AND_RETURN", func⟩⟩

def addLocBuf (locBuf text : Text) : Run Text :=
  let room := 8192 - locBuf.length - 1
  ⟨if text.length ≤ room then [] else [.cuts text], .returns (locBuf ++ text.take room)⟩

def substr (buflen : ℕ) (expr : Text) (pos len : ℕ) : Run Text :=
  checkAndReturn (ascii "substr") buflen ((expr.drop pos).take (min len (expr.length - pos)))

def genPostRank (buflen : ℕ) (rank : ℤ) : Run Text :=
  checkAndReturn (ascii "genPostRank") buflen <|
    if rank ≤ 1 then []
    else if rank = 2 then ascii "\\d"
    else ascii "\\d\x7b" ++ decimal (rank - 1) ++ ascii "\x7d"

def genRank (buflen : ℕ) (min max : Text) (rank : ℤ) : Run Text := do
  let a ← Run.silent (charAt min (toSizeT (min.length - rank)))
  let b ← Run.silent (charAt max (toSizeT (max.length - rank)))
  let lmin := if a < b then a else b
  let lmax := if a > b then a else b
  checkAndReturn (ascii "genRank") buflen <|
    if lmin = 48 ∧ lmax = 57 then ascii "\\d"
    else if lmin = lmax then [lmin]
    else if lmax.toNat = lmin.toNat + 1 then ascii "[" ++ [lmin, lmax] ++ ascii "]"
    else ascii "[" ++ [lmin] ++ ascii "-" ++ [lmax] ++ ascii "]"

def genPreRank (buflen : ℕ) (min max : Text) (rank : ℤ) : Run Text := do
  let lmin := min.dropWhile (· = 48)
  let lmax := max.dropWhile (· = 48)
  let locBuf ← substr 512 lmin 0 (toSizeT (lmin.length - rank))
  let locBufMax ← substr 512 lmax 0 (toSizeT (lmax.length - rank))
  if locBuf.take 512 ≠ locBufMax.take 512 then
    Run.silent (.fails ⟨ascii "min=" ++ locBuf ++ ascii "[" ++ min ++ ascii "] and max=" ++
      locBufMax ++ ascii "[" ++ max ++ ascii "] should be invariants at rank " ++ decimal rank,
      ascii "genPreRank"⟩)
  else checkAndReturn (ascii "genPreRank") buflen locBuf

def genAtRank (buflen : ℕ) (min max : Text) (rank : ℤ) : Run Text := do
  let preRank ← genPreRank 512 min max rank
  let outRank ← genRank (512 - preRank.length) min max rank
  let postRank ← genPostRank (512 - (preRank ++ outRank).length) rank
  checkAndReturn (ascii "genAtRank") buflen (preRank ++ outRank ++ postRank)

def subRegs (fuel : ℕ) (uninit : Uninit) (max : ℤ) : ℕ → List Text → ℤ → Run (List Text)
  | 0, _, _ => Run.silent .undefined
  | turns + 1, regList, min => do
    let nMax ← ⟨[.asks (longtoa min) (longtoa max)], nextMax fuel (uninit.revMin regList.length)
      (uninit.revMax regList.length) (longtoa min) (longtoa max)⟩
    let reg ← genAtRank 128 (longtoa min) (longtoa nMax.max) nMax.rank
    let regList := regList ++ [reg]
    if regList.length = 64 then
      Run.silent (.fails ⟨ascii "regIndex == maxSubReg", ascii "strictPosRegexpGen"⟩)
    else if nMax.max = 2 ^ 31 - 1 then Run.silent .undefined
    else if nMax.max ≠ max then subRegs fuel uninit max turns regList (nMax.max + 1)
    else pure regList

def strictPosRegexpGen (fuel : ℕ) (uninit : Uninit) (buflen : ℕ) (min max : ℤ)
    (decimalPart boundDecimalPart : Text) : Run Text :=
  if min ≤ 0 ∨ max ≤ 0 then
    Run.silent (.fails ⟨ascii "min or max <= 0", ascii "strictPosRegexpGen"⟩)
  else if min = max then do
    let locBuf ← Run.silent (string uninit.locBuf >>= fun locBuf => sprintf 8192 locBuf (decimal max))
    checkAndReturn (ascii "strictPosRegexpGen") buflen locBuf
  else do
    let regList ← subRegs fuel uninit (max - 1) 64 [] min
    let locBuf ← Run.silent (regList.foldlM (fun locBuf reg =>
      sprintf 8192 locBuf (ascii "(?:" ++ reg ++ decimalPart ++ ascii ")|")) [])
    let locBuf := if locBuf.getLast? = some 124 then locBuf.dropLast else locBuf
    let locBuf ← Run.silent (sprintf 8192 locBuf
      (ascii "|(?:" ++ longtoa max ++ boundDecimalPart ++ ascii ")"))
    checkAndReturn (ascii "strictPosRegexpGen") buflen locBuf

def regexpGen : ℕ → (ℕ → Uninit) → ℕ → ℤ → ℤ → Bool → Run Text
  | 0, _, _, _, _, _ => Run.silent .undefined
  | fuel + 1, uninit, buflen, min, max, flottant => do
    let decimalPart := decimalPart flottant
    let boundDecimalPart := boundDecimalPart flottant
    let (min, max) := if min > max then (Int.bmod max (2 ^ 32), min) else (min, max)
    let locBuf := ascii "(?:"
    let locBuf ←
      if min = max then
        addLocBuf locBuf (decimal min ++ decimalPart)
      else if min < 0 then
        if max < 0 then do
          let locBuf ← addLocBuf locBuf (ascii "\\-(?:")
          let regexp ← strictPosRegexpGen fuel (uninit 0) (8192 - locBuf.length) (-min) (-max)
            decimalPart boundDecimalPart
          addLocBuf (locBuf ++ regexp) (ascii ")")
        else if max = 0 then do
          let locBuf ← addLocBuf locBuf
            (ascii "(?:0" ++ boundDecimalPart ++ ascii ")|(?:-0" ++ decimalPart ++ ascii ")|-(?:")
          let regexp ← strictPosRegexpGen fuel (uninit 0) (8192 - locBuf.length) 1 (-min)
            decimalPart boundDecimalPart
          addLocBuf (locBuf ++ regexp) (ascii ")")
        else do
          let locBuf ← addLocBuf locBuf (ascii "(?:")
          let regexp ← regexpGen fuel uninit (8192 - locBuf.length) min 0 flottant
          let locBuf ← addLocBuf (locBuf ++ regexp) (ascii "|")
          let regexp ← regexpGen fuel (fun k => uninit (k + 1)) (8192 - locBuf.length) 0 max flottant
          addLocBuf (locBuf ++ regexp) (ascii ")")
      else if min = 0 then do
        let locBuf ← addLocBuf locBuf (ascii "(?:0" ++ decimalPart ++ ascii ")|")
        let regexp ← strictPosRegexpGen fuel (uninit 0) (8192 - locBuf.length) 1 max
          decimalPart boundDecimalPart
        pure (locBuf ++ regexp)
      else do
        let regexp ← strictPosRegexpGen fuel (uninit 0) (8192 - locBuf.length) min max
          decimalPart boundDecimalPart
        pure (locBuf ++ regexp)
    let locBuf ← addLocBuf locBuf (ascii ")(?![\\d.])")
    checkAndReturn (ascii "regexpGen") buflen locBuf

/-- What is written is no longer than its output. -/
def Event.Fits : Event → Prop
  | .writes _ buflen bytes => bytes ≤ buflen
  | _ => True

instance : DecidablePred Event.Fits
  | .writes _ buflen bytes => inferInstanceAs (Decidable (bytes ≤ buflen))
  | .asks _ _ => .isTrue trivial
  | .cuts _ => .isTrue trivial

/-- The call respects the sizes of the outputs, its own and those of the calls that it makes, and
reports success only with the complete text. -/
structure Respects (r : Run Text) : Prop where
  fits : r.outcome ≠ .undefined → ∀ e ∈ r.events, e.Fits
  complete : ∀ regexp, r.outcome = .returns regexp → ∀ text, .cuts text ∉ r.events

/-! ### Without the log -/

namespace Run
variable {α β : Type}

@[simp] theorem pure_eq (a : α) : (pure a : Run α) = ⟨[], .returns a⟩ := rfl

@[simp] theorem returns_bind (events : List Event) (a : α) (f : α → Run β) :
    (⟨events, .returns a⟩ : Run α) >>= f = ⟨events ++ (f a).events, (f a).outcome⟩ := rfl

@[simp] theorem fails_bind (events : List Event) (e : Erreur) (f : α → Run β) :
    (⟨events, .fails e⟩ : Run α) >>= f = ⟨events, .fails e⟩ := rfl

@[simp] theorem undefined_bind (events : List Event) (f : α → Run β) :
    (⟨events, .undefined⟩ : Run α) >>= f = ⟨events, .undefined⟩ := rfl

theorem outcome_bind (x : Run α) (f : α → Run β) :
    (x >>= f).outcome = x.outcome >>= fun a => (f a).outcome := by
  obtain ⟨events, outcome⟩ := x
  cases outcome <;> rfl

/-- A byte too many is undefined behaviour. -/
def checked (x : Run α) : Outcome α := if ∀ e ∈ x.events, e.Fits then x.outcome else .undefined

@[simp] theorem checked_silent (o : Outcome α) : (silent o).checked = o := by
  simp [checked, silent]

@[simp] theorem checked_returns (a : α) : (⟨[], .returns a⟩ : Run α).checked = .returns a := by
  simp [checked]

theorem checked_bind (x : Run α) (f : α → Run β) :
    (x >>= f).checked = x.checked >>= fun a => (f a).checked := by
  obtain ⟨events, outcome⟩ := x
  unfold checked
  by_cases hevents : ∀ e ∈ events, e.Fits
  · cases outcome with
    | returns a =>
      have hall : (∀ e ∈ events ++ (f a).events, e.Fits) ↔ ∀ e ∈ (f a).events, e.Fits := by
        constructor
        · exact fun h e he => h e (List.mem_append_right events he)
        · exact fun h e he => (List.mem_append.mp he).elim (hevents e) (h e)
      simp only [returns_bind, if_pos hevents, Outcome.returns_bind, hall]
    | fails e =>
      simp only [fails_bind, if_pos hevents, Outcome.fails_bind]
      exact if_pos hevents
    | undefined =>
      simp only [undefined_bind, if_pos hevents, Outcome.undefined_bind]
      exact if_pos hevents
  · have hfalse : ¬ ∀ e ∈ ((⟨events, outcome⟩ : Run α) >>= f).events, e.Fits := by
      intro h
      apply hevents
      intro e he
      apply h e
      cases outcome with
      | returns a => exact List.mem_append_left _ he
      | fails e => exact he
      | undefined => exact he
    rw [if_neg hfalse, if_neg hevents, Outcome.undefined_bind]

end Run

@[simp] theorem checked_checkAndReturn (func : Text) (buflen : ℕ) (locBuf : Text) :
    (checkAndReturn func buflen locBuf).checked = Interval.checkAndReturn func buflen locBuf := by
  rcases Nat.lt_trichotomy locBuf.length buflen with hlt | heq | hgt
  · have hle : locBuf.length ≤ buflen := hlt.le
    have hbytes : locBuf.length + 1 ≤ buflen := hlt
    simp [checkAndReturn, Interval.checkAndReturn, Run.checked, Event.Fits, hlt, hle, hbytes]
  · simp [checkAndReturn, Interval.checkAndReturn, Run.checked, Event.Fits, heq]
  · have hle : ¬ locBuf.length ≤ buflen := by omega
    have hlt : ¬ locBuf.length < buflen := by omega
    have hne : ¬ locBuf.length = buflen := by omega
    simp [checkAndReturn, Interval.checkAndReturn, Run.checked, hle, hlt, hne]

theorem checked_genPostRank (buflen : ℕ) (rank : ℤ) :
    (genPostRank buflen rank).checked = Interval.genPostRank buflen rank := by
  rw [genPostRank, checked_checkAndReturn, Interval.genPostRank]

theorem checked_genRank (buflen : ℕ) (min max : Text) (rank : ℤ) :
    (genRank buflen min max rank).checked = Interval.genRank buflen min max rank := by
  simp only [genRank, Run.checked_bind, Run.checked_silent, checked_checkAndReturn]
  rfl

theorem checked_genPreRank (buflen : ℕ) (min max : Text) (rank : ℤ) :
    (genPreRank buflen min max rank).checked = Interval.genPreRank buflen min max rank := by
  simp only [genPreRank, substr, Run.checked_bind, apply_ite Run.checked, Run.checked_silent,
    checked_checkAndReturn]
  rfl

theorem checked_genAtRank (buflen : ℕ) (min max : Text) (rank : ℤ) :
    (genAtRank buflen min max rank).checked = Interval.genAtRank buflen min max rank := by
  simp only [genAtRank, Run.checked_bind, checked_genPreRank, checked_genRank, checked_genPostRank,
    checked_checkAndReturn]
  rfl

theorem checked_subRegs (fuel : ℕ) (uninit : Uninit) (max : ℤ) (turns : ℕ) (regList : List Text)
    (min : ℤ) : (subRegs fuel uninit max turns regList min).checked =
      Interval.subRegs fuel uninit max turns regList min := by
  induction turns generalizing regList min with
  | zero => simp [subRegs, Interval.subRegs]
  | succ turns ih =>
    have hasks (o : Outcome NextMax) : (⟨[.asks (longtoa min) (longtoa max)], o⟩ : Run NextMax).checked
        = o := by
      simp [Run.checked, Event.Fits]
    simp only [subRegs, Run.checked_bind, hasks, checked_genAtRank, apply_ite Run.checked,
      Run.checked_silent, ih, Run.pure_eq, Run.checked_returns]
    rfl

theorem checked_strictPosRegexpGen (fuel : ℕ) (uninit : Uninit) (buflen : ℕ) (min max : ℤ)
    (decimalPart boundDecimalPart : Text) :
    (strictPosRegexpGen fuel uninit buflen min max decimalPart boundDecimalPart).checked =
      Interval.strictPosRegexpGen fuel uninit buflen min max decimalPart boundDecimalPart := by
  simp only [strictPosRegexpGen, Interval.strictPosRegexpGen, apply_ite Run.checked,
    Run.checked_silent, Run.checked_bind, checked_checkAndReturn, checked_subRegs, bind_assoc]

/-! ### The branches of `regexpGen` -/

def ending (buflen : ℕ) (locBuf : Text) : Run Text :=
  addLocBuf locBuf (ascii ")(?![\\d.])") >>= checkAndReturn (ascii "regexpGen") buflen

section
variable (fuel : ℕ) (uninit : ℕ → Uninit) (buflen : ℕ) (flottant : Bool) {min max : ℤ}

theorem regexpGen_swap (hlt : max < min) (hmax : Int.bmod max (2 ^ 32) = max) :
    regexpGen fuel uninit buflen min max flottant = regexpGen fuel uninit buflen max min flottant := by
  cases fuel with
  | zero => rfl
  | succ fuel =>
    have hgt : min > max := hlt
    have hng : ¬ max > min := by omega
    simp only [regexpGen, if_pos hgt, if_neg hng, hmax]

theorem regexpGen_same : regexpGen (fuel + 1) uninit buflen min min flottant =
    (addLocBuf (ascii "(?:") (decimal min ++ decimalPart flottant) >>= ending buflen) := by
  have hgt : ¬ min > min := Int.lt_irrefl min
  simp only [regexpGen, if_neg hgt]
  rfl

theorem regexpGen_neg (hlt : min < max) (hmax : max < 0) :
    regexpGen (fuel + 1) uninit buflen min max flottant =
      (strictPosRegexpGen fuel (uninit 0) 8184 (-min) (-max) (decimalPart flottant)
        (boundDecimalPart flottant) >>= fun regexp =>
          addLocBuf (ascii "(?:\\-(?:" ++ regexp) (ascii ")") >>= ending buflen) := by
  have hgt : ¬ min > max := by omega
  have hne : ¬ min = max := by omega
  have hmin : min < 0 := by omega
  simp only [regexpGen, if_neg hgt, if_neg hne, if_pos hmin, if_pos hmax]
  rfl

theorem regexpGen_neg_zero (hmin : min < 0) :
    regexpGen (fuel + 1) uninit buflen min 0 flottant =
      (strictPosRegexpGen fuel (uninit 0) (8192 - (beforeNegative flottant).length) 1 (-min)
        (decimalPart flottant) (boundDecimalPart flottant) >>= fun regexp =>
          addLocBuf (beforeNegative flottant ++ regexp) (ascii ")") >>= ending buflen) := by
  have hgt : ¬ min > 0 := by omega
  have hne : ¬ min = 0 := by omega
  simp only [regexpGen, if_neg hgt, if_neg hne, if_pos hmin]
  cases flottant <;> rfl

theorem regexpGen_cross (hmin : min < 0) (hmax : 0 < max) :
    regexpGen (fuel + 1) uninit buflen min max flottant =
      (regexpGen fuel uninit (8192 - beforeBoth.length) min 0 flottant >>= fun neg =>
        addLocBuf (beforeBoth ++ neg) (ascii "|") >>= fun locBuf =>
          regexpGen fuel (fun k => uninit (k + 1)) (8192 - locBuf.length) 0 max flottant >>=
            fun pos => addLocBuf (locBuf ++ pos) (ascii ")") >>= ending buflen) := by
  have hgt : ¬ min > max := by omega
  have hne : ¬ min = max := by omega
  have hneg : ¬ max < 0 := by omega
  have hmax0 : ¬ max = 0 := by omega
  simp only [regexpGen, if_neg hgt, if_neg hne, if_pos hmin, if_neg hneg, if_neg hmax0]
  rfl

theorem regexpGen_zero (hmax : 0 < max) :
    regexpGen (fuel + 1) uninit buflen 0 max flottant =
      (strictPosRegexpGen fuel (uninit 0) (8192 - (beforePositive flottant).length) 1 max
        (decimalPart flottant) (boundDecimalPart flottant) >>= fun regexp =>
          ending buflen (beforePositive flottant ++ regexp)) := by
  have hgt : ¬ 0 > max := by omega
  have hne : ¬ 0 = max := by omega
  simp only [regexpGen, if_neg hgt, if_neg hne]
  cases flottant <;> rfl

theorem regexpGen_pos (hmin : 0 < min) (hlt : min < max) :
    regexpGen (fuel + 1) uninit buflen min max flottant =
      (strictPosRegexpGen fuel (uninit 0) 8189 min max (decimalPart flottant)
        (boundDecimalPart flottant) >>= fun regexp => ending buflen (ascii "(?:" ++ regexp)) := by
  have hgt : ¬ min > max := by omega
  have hne : ¬ min = max := by omega
  have hneg : ¬ min < 0 := by omega
  have hmin0 : ¬ min = 0 := by omega
  simp only [regexpGen, if_neg hgt, if_neg hne, if_neg hneg, if_neg hmin0]
  rfl

end

/-! ### `regexpGen` without the log -/

theorem checked_addLocBuf {α : Type} {locBuf : Text} (h : locBuf.length < 8192) (text : Text)
    (f : Text → Run α) :
    (addLocBuf locBuf text >>= f).checked = (f (Interval.addLocBuf locBuf text)).checked := by
  have hcut : locBuf ++ text.take (8192 - locBuf.length - 1) = Interval.addLocBuf locBuf text := by
    rw [Interval.addLocBuf, List.take_append, List.take_of_length_le (Nat.le_of_lt_succ h)]
    congr 2
    omega
  have hfits : (addLocBuf locBuf text).checked = .returns (Interval.addLocBuf locBuf text) := by
    rw [addLocBuf, hcut]
    apply if_pos
    intro e he
    simp only at he
    split_ifs at he
    · exact absurd he List.not_mem_nil
    · rw [List.mem_singleton.mp he]
      trivial
  rw [Run.checked_bind, hfits, Outcome.returns_bind]

theorem length_addLocBuf (locBuf text : Text) : (Interval.addLocBuf locBuf text).length < 8192 := by
  rw [Interval.addLocBuf, List.length_take]
  omega

theorem checked_ending (buflen : ℕ) {locBuf : Text} (h : locBuf.length < 8192) :
    (ending buflen locBuf).checked = Interval.ending buflen locBuf := by
  rw [ending, checked_addLocBuf h, checked_checkAndReturn, Interval.ending]

theorem checked_bind_eq {α β : Type} {x : Run α} {y : Outcome α} {f : α → Run β}
    {g : α → Outcome β} (hx : x.checked = y) (hf : ∀ a, y = .returns a → (f a).checked = g a) :
    (x >>= f).checked = y >>= g := by
  rw [Run.checked_bind, hx]
  cases y with
  | returns a => exact hf a rfl
  | fails e => rfl
  | undefined => rfl

/-! A text that is returned leaves room for the terminator. -/

theorem length_lt_checkAndReturn {func : Text} {buflen : ℕ} {locBuf r : Text}
    (h : Interval.checkAndReturn func buflen locBuf = .returns r) : r.length < buflen := by
  unfold Interval.checkAndReturn at h
  split_ifs at h with hlt
  cases h
  exact hlt

theorem length_lt_bind {α : Type} {n : ℕ} {x : Outcome α} {f : α → Outcome Text}
    (hf : ∀ a r, f a = .returns r → r.length < n) {r : Text} (h : x >>= f = .returns r) :
    r.length < n := by
  cases x with
  | returns a => exact hf a r h
  | fails e => cases h
  | undefined => cases h

theorem length_lt_strictPosRegexpGen {fuel : ℕ} {uninit : Uninit} {buflen : ℕ} {min max : ℤ}
    {decimalPart boundDecimalPart r : Text}
    (h : Interval.strictPosRegexpGen fuel uninit buflen min max decimalPart boundDecimalPart =
      .returns r) : r.length < buflen := by
  unfold Interval.strictPosRegexpGen at h
  split_ifs at h
  · exact length_lt_bind (fun _ _ h => length_lt_bind (fun _ _ h => length_lt_checkAndReturn h) h) h
  · exact length_lt_bind (fun _ _ h => length_lt_bind (fun _ _ h =>
      length_lt_bind (fun _ _ h => length_lt_checkAndReturn h) h) h) h

section
variable {fuel : ℕ} {uninit : ℕ → Uninit} {buflen : ℕ} {flottant : Bool} {min max : ℤ} {r : Text}

theorem length_lt_ending {locBuf : Text} (h : Interval.ending buflen locBuf = .returns r) :
    r.length < buflen := length_lt_checkAndReturn h

/-- The texts that a call of `strictPosRegexpGen` returns fit behind what stands before them. -/
theorem length_lt_behind {fuel : ℕ} {uninit : Uninit} {before : Text} {min max : ℤ}
    {decimalPart boundDecimalPart : Text} (hbefore : before.length < 8192)
    (h : Interval.strictPosRegexpGen fuel uninit (8192 - before.length) min max decimalPart
      boundDecimalPart = .returns r) : (before ++ r).length < 8192 := by
  have hlt := length_lt_strictPosRegexpGen h
  rw [List.length_append]
  omega

theorem length_beforeNegative (flottant : Bool) : (beforeNegative flottant).length < 8192 := by
  cases flottant <;> decide

theorem length_beforePositive (flottant : Bool) : (beforePositive flottant).length < 8192 := by
  cases flottant <;> decide

theorem length_lt_neg_zero (hmin : min < 0)
    (h : Interval.regexpGen fuel uninit buflen min 0 flottant = .returns r) : r.length < buflen := by
  cases fuel with
  | zero => cases h
  | succ fuel =>
    rw [Interval.regexpGen_neg_zero _ _ _ _ hmin] at h
    exact length_lt_bind (fun _ _ h => length_lt_ending h) h

theorem length_lt_zero (hmax : 0 < max)
    (h : Interval.regexpGen fuel uninit buflen 0 max flottant = .returns r) : r.length < buflen := by
  cases fuel with
  | zero => cases h
  | succ fuel =>
    rw [Interval.regexpGen_zero _ _ _ _ hmax] at h
    exact length_lt_bind (fun _ _ h => length_lt_ending h) h

theorem checked_neg_zero (hmin : min < 0) :
    (regexpGen fuel uninit buflen min 0 flottant).checked =
      Interval.regexpGen fuel uninit buflen min 0 flottant := by
  cases fuel with
  | zero => rfl
  | succ fuel =>
    rw [regexpGen_neg_zero _ _ _ _ hmin, Interval.regexpGen_neg_zero _ _ _ _ hmin]
    refine checked_bind_eq (checked_strictPosRegexpGen _ _ _ _ _ _ _) fun regexp hregexp => ?_
    have hlen := length_lt_behind (length_beforeNegative flottant) hregexp
    rw [checked_addLocBuf hlen, checked_ending _ (length_addLocBuf _ _)]

theorem checked_zero (hmax : 0 < max) :
    (regexpGen fuel uninit buflen 0 max flottant).checked =
      Interval.regexpGen fuel uninit buflen 0 max flottant := by
  cases fuel with
  | zero => rfl
  | succ fuel =>
    rw [regexpGen_zero _ _ _ _ hmax, Interval.regexpGen_zero _ _ _ _ hmax]
    refine checked_bind_eq (checked_strictPosRegexpGen _ _ _ _ _ _ _) fun regexp hregexp => ?_
    exact checked_ending _ (length_lt_behind (length_beforePositive flottant) hregexp)

theorem checked_cross (hmin : min < 0) (hmax : 0 < max) :
    (regexpGen fuel uninit buflen min max flottant).checked =
      Interval.regexpGen fuel uninit buflen min max flottant := by
  cases fuel with
  | zero => rfl
  | succ fuel =>
    rw [regexpGen_cross _ _ _ _ hmin hmax, Interval.regexpGen_cross _ _ _ _ hmin hmax]
    refine checked_bind_eq (checked_neg_zero hmin) fun neg hneg => ?_
    have hbefore : (beforeBoth ++ neg).length < 8192 := by
      have hboth : beforeBoth.length = 6 := rfl
      have hlt := length_lt_neg_zero hmin hneg
      rw [List.length_append]
      omega
    rw [checked_addLocBuf hbefore]
    refine checked_bind_eq (checked_zero hmax) fun pos hpos => ?_
    have hlen : (Interval.addLocBuf (beforeBoth ++ neg) (ascii "|") ++ pos).length < 8192 := by
      have hlt := length_lt_zero hmax hpos
      rw [List.length_append]
      omega
    rw [checked_addLocBuf hlen, checked_ending _ (length_addLocBuf _ _)]

/-- Without the log, and with a byte too many for undefined behaviour, this is `regexpGen`. -/
theorem checked_regexpGen (hle : min ≤ max) :
    (regexpGen fuel uninit buflen min max flottant).checked =
      Interval.regexpGen fuel uninit buflen min max flottant := by
  cases fuel with
  | zero => rfl
  | succ fuel =>
    rcases Int.lt_or_eq_of_le hle with hlt | rfl
    · rcases Int.lt_trichotomy max 0 with hmax | rfl | hmax
      · rw [regexpGen_neg _ _ _ _ hlt hmax, Interval.regexpGen_neg _ _ _ _ hlt hmax]
        refine checked_bind_eq (checked_strictPosRegexpGen _ _ _ _ _ _ _) fun regexp hregexp => ?_
        have hbefore : (ascii "(?:\\-(?:").length < 8192 := by decide
        have hlen := length_lt_behind hbefore hregexp
        rw [checked_addLocBuf hlen, checked_ending _ (length_addLocBuf _ _)]
      · exact checked_neg_zero hlt
      · rcases Int.lt_trichotomy min 0 with hmin | rfl | hmin
        · exact checked_cross hmin hmax
        · exact checked_zero hmax
        · rw [regexpGen_pos _ _ _ _ hmin hlt, Interval.regexpGen_pos _ _ _ _ hmin hlt]
          refine checked_bind_eq (checked_strictPosRegexpGen _ _ _ _ _ _ _) fun regexp hregexp => ?_
          have hbefore : (ascii "(?:").length < 8192 := by decide
          exact checked_ending _ (length_lt_behind hbefore hregexp)
    · have hbegin : (ascii "(?:").length < 8192 := by decide
      rw [regexpGen_same, Interval.regexpGen_same, checked_addLocBuf hbegin,
        checked_ending _ (length_addLocBuf _ _)]

end

/-! ### The events -/

def Run.All {α : Type} (P : Event → Prop) (x : Run α) : Prop := ∀ e ∈ x.events, P e

/-- All that the generators do other than to call `nextMax`. -/
structure Allows (P : Event → Prop) : Prop where
  writes : ∀ func buflen bytes, bytes ≤ buflen + 1 → P (.writes func buflen bytes)
  cuts : ∀ text, P (.cuts text)

section
variable {P : Event → Prop} {α β : Type}

theorem all_silent (o : Outcome α) : (Run.silent o).All P := fun _ he => absurd he List.not_mem_nil

theorem all_bind {x : Run α} {f : α → Run β} (hx : x.All P) (hf : ∀ a, (f a).All P) :
    (x >>= f).All P := by
  obtain ⟨events, outcome⟩ := x
  cases outcome with
  | returns a => exact fun e he => (List.mem_append.mp he).elim (hx e) (hf a e)
  | fails e => exact hx
  | undefined => exact hx

theorem Allows.checkAndReturn (hP : Allows P) (func : Text) (buflen : ℕ) (locBuf : Text) :
    (checkAndReturn func buflen locBuf).All P := by
  unfold Logged.checkAndReturn
  split_ifs with hle
  · intro e he
    rw [List.mem_singleton.mp he]
    exact hP.writes func buflen _ (Nat.succ_le_succ hle)
  · exact fun _ he => absurd he List.not_mem_nil

theorem Allows.addLocBuf (hP : Allows P) (locBuf text : Text) : (addLocBuf locBuf text).All P := by
  intro e he
  simp only [Logged.addLocBuf] at he
  split_ifs at he
  · exact absurd he List.not_mem_nil
  · rw [List.mem_singleton.mp he]
    exact hP.cuts text

theorem Allows.genPreRank (hP : Allows P) (buflen : ℕ) (min max : Text) (rank : ℤ) :
    (genPreRank buflen min max rank).All P := by
  refine all_bind (hP.checkAndReturn _ _ _) fun locBuf => ?_
  refine all_bind (hP.checkAndReturn _ _ _) fun locBufMax => ?_
  split_ifs
  · exact all_silent _
  · exact hP.checkAndReturn _ _ _

theorem Allows.genRank (hP : Allows P) (buflen : ℕ) (min max : Text) (rank : ℤ) :
    (genRank buflen min max rank).All P :=
  all_bind (all_silent _) fun _ => all_bind (all_silent _) fun _ => hP.checkAndReturn _ _ _

theorem Allows.genAtRank (hP : Allows P) (buflen : ℕ) (min max : Text) (rank : ℤ) :
    (genAtRank buflen min max rank).All P := by
  refine all_bind (hP.genPreRank _ _ _ _) fun preRank => ?_
  refine all_bind (hP.genRank _ _ _ _) fun outRank => ?_
  exact all_bind (hP.checkAndReturn _ _ _) fun postRank => hP.checkAndReturn _ _ _

/-- `nextMax` does not return, so that only its first call is reached. -/
theorem all_subRegs (fuel : ℕ) (uninit : Uninit) (min max : ℤ)
    (hasks : P (.asks (longtoa min) (longtoa max))) :
    (subRegs fuel uninit max 64 [] min).All P := by
  rw [subRegs, nextMax_undefined]
  intro e he
  rw [List.mem_singleton.mp he]
  exact hasks

theorem Allows.strictPosRegexpGen (hP : Allows P) (fuel : ℕ) (uninit : Uninit) (buflen : ℕ)
    (min max : ℤ) (decimalPart boundDecimalPart : Text)
    (hasks : 0 < min → P (.asks (longtoa min) (longtoa (max - 1)))) :
    (strictPosRegexpGen fuel uninit buflen min max decimalPart boundDecimalPart).All P := by
  unfold Logged.strictPosRegexpGen
  split_ifs with hpos
  · exact all_silent _
  · exact all_bind (all_silent _) fun _ => hP.checkAndReturn _ _ _
  · refine all_bind (all_subRegs _ _ _ _ (hasks (by omega))) fun _ => ?_
    exact all_bind (all_silent _) fun _ => all_bind (all_silent _) fun _ => hP.checkAndReturn _ _ _

theorem Allows.ending (hP : Allows P) (buflen : ℕ) (locBuf : Text) : (ending buflen locBuf).All P :=
  all_bind (hP.addLocBuf _ _) fun _ => hP.checkAndReturn _ _ _

theorem Allows.regexpGen (hP : Allows P) (fuel : ℕ) (uninit : ℕ → Uninit) (buflen : ℕ)
    {min max : ℤ} (flottant : Bool) (hle : min ≤ max) (hlo : -2 ^ 31 ≤ min) (hhi : max < 2 ^ 31)
    (hasks : ∀ lo hi, 0 < lo → lo ≤ 2 ^ 31 → P (.asks (longtoa lo) (longtoa (hi - 1)))) :
    (regexpGen fuel uninit buflen min max flottant).All P := by
  have hadd (locBuf text : Text) (buflen : ℕ) : (Logged.addLocBuf locBuf text >>= Logged.ending buflen).All P :=
    all_bind (hP.addLocBuf _ _) fun _ => hP.ending _ _
  have hstrict (fuel : ℕ) (uninit : Uninit) (buflen : ℕ) (lo hi : ℤ) (hlo : lo ≤ 2 ^ 31) :
      (Logged.strictPosRegexpGen fuel uninit buflen lo hi (decimalPart flottant)
        (boundDecimalPart flottant)).All P :=
    hP.strictPosRegexpGen _ _ _ _ _ _ _ fun hpos => hasks lo hi hpos hlo
  have hneg (fuel : ℕ) (buflen : ℕ) (hmin : min < 0) :
      (Logged.regexpGen fuel uninit buflen min 0 flottant).All P := by
    cases fuel with
    | zero => exact all_silent _
    | succ fuel =>
      rw [regexpGen_neg_zero _ _ _ _ hmin]
      exact all_bind (hstrict _ _ _ _ _ (by omega)) fun _ => hadd _ _ _
  have hpos (fuel : ℕ) (uninit : ℕ → Uninit) (buflen : ℕ) (hmax : 0 < max) :
      (Logged.regexpGen fuel uninit buflen 0 max flottant).All P := by
    cases fuel with
    | zero => exact all_silent _
    | succ fuel =>
      rw [regexpGen_zero _ _ _ _ hmax]
      exact all_bind (hstrict _ _ _ _ _ (by omega)) fun _ => hP.ending _ _
  cases fuel with
  | zero => exact all_silent _
  | succ fuel =>
    rcases Int.lt_or_eq_of_le hle with hlt | rfl
    · rcases Int.lt_trichotomy max 0 with hmax | rfl | hmax
      · rw [regexpGen_neg _ _ _ _ hlt hmax]
        exact all_bind (hstrict _ _ _ _ _ (by omega)) fun _ => hadd _ _ _
      · exact hneg (fuel + 1) buflen hlt
      · rcases Int.lt_trichotomy min 0 with hmin | rfl | hmin
        · rw [regexpGen_cross _ _ _ _ hmin hmax]
          refine all_bind (hneg _ _ hmin) fun neg => all_bind (hP.addLocBuf _ _) fun locBuf => ?_
          exact all_bind (hpos _ _ _ hmax) fun pos => hadd _ _ _
        · exact hpos (fuel + 1) uninit buflen hmax
        · rw [regexpGen_pos _ _ _ _ hmin hlt]
          exact all_bind (hstrict _ _ _ _ _ (by omega)) fun _ => hP.ending _ _
    · rw [regexpGen_same]
      exact hadd _ _ _

end

end Ivy.Interval.Logged
