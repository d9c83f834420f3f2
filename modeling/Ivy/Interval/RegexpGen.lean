import Ivy.Protocol.Scan

/-! `intervalRegexp.c`: the pattern of the numerals of an interval. -/
namespace Ivy.Interval

/-- What `Perr` prints: the message and the function that calls it. -/
structure Erreur where
  buffer : Text
  func : Text
  deriving DecidableEq, Repr

/-- A call returns, or fails through `Perr`, or its behaviour is undefined, or its fuel runs out
before it ends. -/
inductive Outcome (α : Type)
  | returns (a : α)
  | fails (e : Erreur)
  | undefined
  deriving DecidableEq, Repr

namespace Outcome
variable {α β : Type}

def bind : Outcome α → (α → Outcome β) → Outcome β
  | .returns a, f => f a
  | .fails e, _ => .fails e
  | .undefined, _ => .undefined

instance : Monad Outcome where
  pure := .returns
  bind := Outcome.bind

instance : LawfulMonad Outcome :=
  .mk' Outcome (fun x => by cases x <;> rfl) (fun _ _ => rfl) fun x _ _ => by cases x <;> rfl

@[simp] theorem returns_bind (a : α) (f : α → Outcome β) : Outcome.returns a >>= f = f a := rfl

@[simp] theorem fails_bind (e : Erreur) (f : α → Outcome β) :
    Outcome.fails e >>= f = .fails e := rfl

@[simp] theorem undefined_bind (f : α → Outcome β) : Outcome.undefined >>= f = .undefined := rfl

@[simp] theorem pure_eq (a : α) : (pure a : Outcome α) = .returns a := rfl

end Outcome

/-! ### Arrays, strings and loops of C -/

def charAt (s : Text) (i : ℕ) : Outcome UInt8 :=
  if i < s.length then .returns (s.getD i 0) else if i = s.length then .returns 0 else .undefined

def load {n : ℕ} (buf : Vector UInt8 n) (i : ℕ) : Outcome UInt8 :=
  if h : i < n then .returns buf[i] else .undefined

def store {n : ℕ} (buf : Vector UInt8 n) (i : ℕ) (b : UInt8) : Outcome (Vector UInt8 n) :=
  if h : i < n then .returns (buf.set i b) else .undefined

def string {n : ℕ} (buf : Vector UInt8 n) : Outcome Text :=
  if 0 ∈ buf.toList then .returns (buf.toList.takeWhile (· ≠ 0)) else .undefined

/-- `for (i = n; i >= 0; i--)`. -/
def forDown {σ : Type} (body : UInt64 → σ → Outcome σ) : ℕ → UInt64 → σ → Outcome σ
  | 0, _, _ => .undefined
  | fuel + 1, i, s =>
    -- `i` is a `size_t`: the test always holds.
    if 0 ≤ i then do forDown body fuel (i - 1) (← body i s) else .returns s

def whileLoop {σ : Type} (test : σ → Outcome Bool) (body : σ → Outcome σ) :
    ℕ → σ → Outcome σ
  | 0, _ => .undefined
  | fuel + 1, s => do
    if ← test s then whileLoop test body fuel (← body s) else .returns s

def toSizeT (z : ℤ) : ℕ := (z % 2 ^ 64).toNat

/-- `sprintf` at the end of a string in an array of `size` bytes. -/
def sprintf (size : ℕ) (locBuf text : Text) : Outcome Text :=
  if locBuf.length + text.length < size then .returns (locBuf ++ text) else .undefined

/-- `AddLocBuf`: `snprintf` at the end of a string in an array of 8192 bytes. -/
def addLocBuf (locBuf text : Text) : Text := (locBuf ++ text).take 8191

/-- `CHECK_AND_RETURN`. A string of `buflen` bytes passes the test, and its terminator is written
after the end of the array. -/
def checkAndReturn (func : Text) (buflen : ℕ) (locBuf : Text) : Outcome Text :=
  if locBuf.length < buflen then .returns locBuf
  else if locBuf.length = buflen then .undefined
  else .fails ⟨ascii "CHECK_AND_RETURN", func⟩

def longtoa (n : ℤ) : Text := decimal n

def reverse (s : Text) : Text := s.reverse

def atoi (s : Text) : ℤ := (scanInt s).elim 0 Prod.fst

def substr (buflen : ℕ) (expr : Text) (pos len : ℕ) : Outcome Text :=
  checkAndReturn (ascii "substr") buflen ((expr.drop pos).take (min len (expr.length - pos)))

/-! ### One sub-range -/

def genPostRank (buflen : ℕ) (rank : ℤ) : Outcome Text :=
  checkAndReturn (ascii "genPostRank") buflen <|
    if rank ≤ 1 then []
    else if rank = 2 then ascii "\\d"
    else ascii "\\d\x7b" ++ decimal (rank - 1) ++ ascii "\x7d"

def genRank (buflen : ℕ) (min max : Text) (rank : ℤ) : Outcome Text := do
  let a ← charAt min (toSizeT (min.length - rank))
  let b ← charAt max (toSizeT (max.length - rank))
  let lmin := if a < b then a else b
  let lmax := if a > b then a else b
  checkAndReturn (ascii "genRank") buflen <|
    if lmin = 48 ∧ lmax = 57 then ascii "\\d"
    else if lmin = lmax then [lmin]
    else if lmax.toNat = lmin.toNat + 1 then ascii "[" ++ [lmin, lmax] ++ ascii "]"
    else ascii "[" ++ [lmin] ++ ascii "-" ++ [lmax] ++ ascii "]"

def genPreRank (buflen : ℕ) (min max : Text) (rank : ℤ) : Outcome Text := do
  let lmin := min.dropWhile (· = 48)
  let lmax := max.dropWhile (· = 48)
  let locBuf ← substr 512 lmin 0 (toSizeT (lmin.length - rank))
  let locBufMax ← substr 512 lmax 0 (toSizeT (lmax.length - rank))
  if locBuf.take 512 ≠ locBufMax.take 512 then
    .fails ⟨ascii "min=" ++ locBuf ++ ascii "[" ++ min ++ ascii "] and max=" ++ locBufMax ++
      ascii "[" ++ max ++ ascii "] should be invariants at rank " ++ decimal rank,
      ascii "genPreRank"⟩
  else checkAndReturn (ascii "genPreRank") buflen locBuf

def genAtRank (buflen : ℕ) (min max : Text) (rank : ℤ) : Outcome Text := do
  let preRank ← genPreRank 512 min max rank
  let outRank ← genRank (512 - preRank.length) min max rank
  let postRank ← genPostRank (512 - (preRank ++ outRank).length) rank
  checkAndReturn (ascii "genAtRank") buflen (preRank ++ outRank ++ postRank)

structure NextMax where
  max : ℤ
  rank : ℤ

/-- `nextMax`. The two arrays hold what they held before the call. -/
def nextMax (fuel : ℕ) (revMin revMax : Vector UInt8 32) (min max : Text) : Outcome NextMax := do
  let nbDigitsMin := UInt64.ofNat min.length
  let nbDigitsMax := UInt64.ofNat max.length
  let revMin ← forDown (fun i revMin => do
    store revMin (nbDigitsMin - i - 1).toNat (← charAt min i.toNat)) fuel (nbDigitsMin - 1) revMin
  let revMin ← forDown (fun i revMin =>
    store revMin (nbDigitsMax - i).toNat 48) fuel (nbDigitsMax - nbDigitsMin) revMin
  let revMax ← forDown (fun i revMax => do
    store revMax (nbDigitsMax - i - 1).toNat (← charAt max i.toNat)) fuel (nbDigitsMax - 1) revMax
  let revMin ← store revMin nbDigitsMax.toNat 0
  let revMax ← store revMax nbDigitsMax.toNat 0
  let rankRev ← whileLoop (fun rankRev => do
    return (← load revMin rankRev) = 48 ∧ rankRev < nbDigitsMax.toNat)
    (fun rankRev => .returns (rankRev + 1)) fuel 0
  let rankForw ← whileLoop (fun rankForw => do
    return (← load revMin rankForw) = (← load revMax rankForw) ∧ 0 < rankForw)
    (fun rankForw => .returns (rankForw - 1)) fuel (nbDigitsMax - 1).toNat
  let nines (n : ℕ) (revMin : Vector UInt8 32) : Outcome (Vector UInt8 32) :=
    (List.range n).foldlM (fun revMin i => store revMin i 57) revMin
  let (rank, revMin) ←
    if rankForw ≤ rankRev then do
      let b ← load revMax rankForw
      let revMin ← store revMin rankForw (b - if rankForw = 0 then 0 else 1)
      pure (rankForw, ← nines rankForw revMin)
    else do
      pure (rankRev, ← nines (rankRev + 1) revMin)
  let nextMaxi := atoi (reverse (← string revMin))
  let currMax := atoi max
  return ⟨if nextMaxi > currMax then currMax else nextMaxi, rank + 1⟩

/-! ### The intervals of positive integers -/

/-- What the arrays of one call of `strictPosRegexpGen` held before it, those of its calls of
`nextMax` included. -/
structure Uninit where
  locBuf : Vector UInt8 8192
  revMin : ℕ → Vector UInt8 32
  revMax : ℕ → Vector UInt8 32

/-- The loop over the sub-ranges. It ends at the 64th, so that it needs no other fuel. -/
def subRegs (fuel : ℕ) (uninit : Uninit) (max : ℤ) : ℕ → List Text → ℤ → Outcome (List Text)
  | 0, _, _ => .undefined
  | turns + 1, regList, min => do
    let nMax ← nextMax fuel (uninit.revMin regList.length) (uninit.revMax regList.length)
      (longtoa min) (longtoa max)
    let reg ← genAtRank 128 (longtoa min) (longtoa nMax.max) nMax.rank
    let regList := regList ++ [reg]
    if regList.length = 64 then .fails ⟨ascii "regIndex == maxSubReg", ascii "strictPosRegexpGen"⟩
    -- `nMax.max + 1` is computed as an `int`.
    else if nMax.max = 2 ^ 31 - 1 then .undefined
    else if nMax.max ≠ max then subRegs fuel uninit max turns regList (nMax.max + 1)
    else .returns regList

def strictPosRegexpGen (fuel : ℕ) (uninit : Uninit) (buflen : ℕ) (min max : ℤ)
    (decimalPart boundDecimalPart : Text) : Outcome Text :=
  if min ≤ 0 ∨ max ≤ 0 then .fails ⟨ascii "min or max <= 0", ascii "strictPosRegexpGen"⟩
  else if min = max then do
    -- The number is appended to what the array happens to hold.
    let locBuf ← sprintf 8192 (← string uninit.locBuf) (decimal max)
    checkAndReturn (ascii "strictPosRegexpGen") buflen locBuf
  else do
    let regList ← subRegs fuel uninit (max - 1) 64 [] min
    let locBuf ← regList.foldlM (fun locBuf reg =>
      sprintf 8192 locBuf (ascii "(?:" ++ reg ++ decimalPart ++ ascii ")|")) []
    let locBuf := if locBuf.getLast? = some 124 then locBuf.dropLast else locBuf
    let locBuf ← sprintf 8192 locBuf
      (ascii "|(?:" ++ longtoa max ++ boundDecimalPart ++ ascii ")")
    checkAndReturn (ascii "strictPosRegexpGen") buflen locBuf

/-! ### All intervals -/

def decimalPart (flottant : Bool) : Text := if flottant then ascii "(?:\\.\\d+)?" else []

def boundDecimalPart (flottant : Bool) : Text := if flottant then ascii "(?:\\.0+)?" else []

/-- `regexpGen`. The calls of `strictPosRegexpGen` find the elements of `uninit`, in order. -/
def regexpGen : ℕ → (ℕ → Uninit) → ℕ → ℤ → ℤ → Bool → Outcome Text
  | 0, _, _, _, _, _ => .undefined
  | fuel + 1, uninit, buflen, min, max, flottant => do
    let decimalPart := decimalPart flottant
    let boundDecimalPart := boundDecimalPart flottant
    -- `nmin` is an `int`.
    let (min, max) := if min > max then (Int.bmod max (2 ^ 32), min) else (min, max)
    let locBuf := ascii "(?:"
    let locBuf ←
      if min = max then
        pure (addLocBuf locBuf (decimal min ++ decimalPart))
      else if min < 0 then
        if max < 0 then do
          let locBuf := addLocBuf locBuf (ascii "\\-(?:")
          let regexp ← strictPosRegexpGen fuel (uninit 0) (8192 - locBuf.length) (-min) (-max)
            decimalPart boundDecimalPart
          pure (addLocBuf (locBuf ++ regexp) (ascii ")"))
        else if max = 0 then do
          let locBuf := addLocBuf locBuf
            (ascii "(?:0" ++ boundDecimalPart ++ ascii ")|(?:-0" ++ decimalPart ++ ascii ")|-(?:")
          let regexp ← strictPosRegexpGen fuel (uninit 0) (8192 - locBuf.length) 1 (-min)
            decimalPart boundDecimalPart
          pure (addLocBuf (locBuf ++ regexp) (ascii ")"))
        else do
          let locBuf := addLocBuf locBuf (ascii "(?:")
          let regexp ← regexpGen fuel uninit (8192 - locBuf.length) min 0 flottant
          let locBuf := addLocBuf (locBuf ++ regexp) (ascii "|")
          let regexp ← regexpGen fuel (fun k => uninit (k + 1)) (8192 - locBuf.length) 0 max flottant
          pure (addLocBuf (locBuf ++ regexp) (ascii ")"))
      else if min = 0 then do
        let locBuf := addLocBuf locBuf (ascii "(?:0" ++ decimalPart ++ ascii ")|")
        let regexp ← strictPosRegexpGen fuel (uninit 0) (8192 - locBuf.length) 1 max
          decimalPart boundDecimalPart
        pure (locBuf ++ regexp)
      else do
        let regexp ← strictPosRegexpGen fuel (uninit 0) (8192 - locBuf.length) min max
          decimalPart boundDecimalPart
        pure (locBuf ++ regexp)
    checkAndReturn (ascii "regexpGen") buflen (addLocBuf locBuf (ascii ")(?![\\d.])"))

end Ivy.Interval
