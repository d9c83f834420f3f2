import Ivy.Lib.Regex

/-! The meaning of a part of the Perl patterns over bytes: letters, `.`, `^`, `\d` and escaped
punctuation, classes of letters and ranges, groups, negative lookahead, alternatives, `?`, `*`,
`+` and `{n}`. The other patterns have no reading here. -/
namespace Ivy.Perl
open Regex

def newline : UInt8 := 10
def dollar : UInt8 := 36
def opening : UInt8 := 40
def closing : UInt8 := 41
def star : UInt8 := 42
def plus : UInt8 := 43
def hyphen : UInt8 := 45
def dot : UInt8 := 46
def zero : UInt8 := 48
def nine : UInt8 := 57
def colon : UInt8 := 58
def question : UInt8 := 63
def bracket : UInt8 := 91
def backslash : UInt8 := 92
def closingBracket : UInt8 := 93
def caret : UInt8 := 94
def letterD : UInt8 := 100
def brace : UInt8 := 123
def bar : UInt8 := 124
def closingBrace : UInt8 := 125
def exclamation : UInt8 := 33

/-- The bytes that do not stand for themselves outside of a class. -/
def special : List UInt8 :=
  [dollar, opening, closing, star, plus, dot, question, bracket, backslash, caret, brace, bar]

/-- The letters, the digits and the underscore: escaped, they mean something else. -/
def isWord (b : UInt8) : Bool :=
  zero ≤ b && b ≤ nine || 65 ≤ b && b ≤ 90 || b == 95 || 97 ≤ b && b ≤ 122

/-- The bytes in one of the ranges. -/
def within (ranges : List (UInt8 × UInt8)) : Regex UInt8 :=
  set fun b => ranges.any fun r => r.1 ≤ b && b ≤ r.2

def digit : Regex UInt8 := within [(zero, nine)]

/-- A group being read: its finished alternatives and the items of the current one, the last
first, and whether a quantifier may follow. -/
structure Frame where
  negative : Bool
  branches : List (Regex UInt8)
  items : List (Regex UInt8)
  repeatable : Bool

namespace Frame

def new (negative : Bool) : Frame := ⟨negative, [], [], false⟩

def push (f : Frame) (r : Regex UInt8) (repeatable : Bool) : Frame :=
  { f with items := r :: f.items, repeatable := repeatable }

def regex (f : Frame) : Regex UInt8 := alts f.branches.reverse (seqs f.items.reverse)

def branch (f : Frame) : Frame :=
  ⟨f.negative, seqs f.items.reverse :: f.branches, [], false⟩

def word (f : Frame) (w : List UInt8) : Frame :=
  { f with items := (w.map lit).reverse ++ f.items, repeatable := w ≠ [] || f.repeatable }

end Frame

/-- What the next byte is a part of. In a class, the ranges so far and the letter that can begin
one, and whether a hyphen has followed; in braces, the number so far. -/
inductive Mode
  | items
  | escape
  | opened
  | mark
  | cls (ranges : List (UInt8 × UInt8)) (pending : Option UInt8)
  | clsTo (ranges : List (UInt8 × UInt8)) (pending : Option UInt8)
  | clsEscape (ranges : List (UInt8 × UInt8))
  | count (n : Option ℕ)

/-- The groups around the current one, from the inside. -/
structure State where
  stack : List Frame
  top : Frame
  mode : Mode

namespace State

def init : State := ⟨[], .new false, .items⟩

def push (s : State) (r : Regex UInt8) (repeatable : Bool) : State :=
  ⟨s.stack, s.top.push r repeatable, .items⟩

def enter (s : State) (negative : Bool) : State := ⟨s.top :: s.stack, .new negative, .items⟩

def leave (s : State) : Option State :=
  match s.stack with
  | [] => none
  | f :: fs =>
    if s.top.negative then some ⟨fs, f.push (notAhead s.top.regex) false, .items⟩
    else some ⟨fs, f.push s.top.regex true, .items⟩

def quantify (s : State) (least : ℕ) (most : Option ℕ) : Option State :=
  match s.top.items with
  | [] => none
  | r :: rs =>
    if s.top.repeatable then
      some ⟨s.stack, ⟨s.top.negative, s.top.branches, rep r least most :: rs, false⟩, .items⟩
    else none

def item (s : State) (b : UInt8) : Option State :=
  if b ∉ special then some (s.push (lit b) true)
  else if b = backslash then some { s with mode := .escape }
  else if b = dot then some (s.push (set fun c => c ≠ newline) true)
  else if b = caret then some (s.push start false)
  else if b = opening then some { s with mode := .opened }
  else if b = closing then s.leave
  else if b = bar then some ⟨s.stack, s.top.branch, .items⟩
  else if b = bracket then some { s with mode := .cls [] none }
  else if b = brace then some { s with mode := .count none }
  else if b = star then s.quantify 0 none
  else if b = plus then s.quantify 1 none
  else if b = question then s.quantify 0 (some 1)
  else none

def escape (s : State) (b : UInt8) : Option State :=
  if b = letterD then some (s.push digit true)
  else if isWord b then none
  else some (s.push (lit b) true)

/-- The ranges of a class with the pending letter among them. -/
def flush (ranges : List (UInt8 × UInt8)) (pending : Option UInt8) : List (UInt8 × UInt8) :=
  pending.elim ranges fun b => (b, b) :: ranges

def closeCls (s : State) (ranges : List (UInt8 × UInt8)) : Option State :=
  if ranges = [] then none else some (s.push (within ranges.reverse) true)

def cls (s : State) (ranges : List (UInt8 × UInt8)) (pending : Option UInt8) (b : UInt8) :
    Option State :=
  if b = closingBracket then s.closeCls (flush ranges pending)
  else if b = backslash then some { s with mode := .clsEscape (flush ranges pending) }
  else if b = hyphen then some { s with mode := .clsTo ranges pending }
  else if b = caret ∨ b = bracket then none
  else some { s with mode := .cls (flush ranges pending) (some b) }

/-- After a hyphen, the end of a range. The hyphen stands for itself at the end of the class. -/
def clsTo (s : State) (ranges : List (UInt8 × UInt8)) (pending : Option UInt8) (b : UInt8) :
    Option State :=
  if b = closingBracket then s.closeCls ((hyphen, hyphen) :: flush ranges pending)
  else if b = backslash ∨ b = bracket then none
  else
    match pending with
    | some lo => if lo ≤ b then some { s with mode := .cls ((lo, b) :: ranges) none } else none
    | none => none

def clsEscape (s : State) (ranges : List (UInt8 × UInt8)) (b : UInt8) : Option State :=
  if b = letterD then some { s with mode := .cls ((zero, nine) :: ranges) none }
  else if isWord b then none
  else some { s with mode := .cls ranges (some b) }

def count (s : State) (n : Option ℕ) (b : UInt8) : Option State :=
  if zero ≤ b ∧ b ≤ nine then
    some { s with mode := .count (some (10 * n.getD 0 + (b.toNat - zero.toNat))) }
  else if b = closingBrace then n.bind fun k => s.quantify k (some k)
  else none

def mark (s : State) (b : UInt8) : Option State :=
  if b = colon then some (s.enter false)
  else if b = exclamation then some (s.enter true)
  else none

/-- A group begins, or what follows `(` tells which one does. -/
def opened (s : State) (b : UInt8) : Option State :=
  if b = question then some { s with mode := .mark }
  else if b = star then none
  else (s.enter false).item b

def feed (s : State) (b : UInt8) : Option State :=
  match s.mode with
  | .items => s.item b
  | .escape => s.escape b
  | .opened => s.opened b
  | .mark => s.mark b
  | .cls ranges pending => s.cls ranges pending b
  | .clsTo ranges pending => s.clsTo ranges pending b
  | .clsEscape ranges => s.clsEscape ranges b
  | .count n => s.count n b

def finish (s : State) : Option (Regex UInt8) :=
  match s.mode, s.stack with
  | .items, [] => some s.top.regex
  | _, _ => none

theorem foldlM_feed {s s' : State} {b : UInt8} (h : s.feed b = some s') (w : List UInt8) :
    (b :: w).foldlM feed s = w.foldlM feed s' := by
  rw [List.foldlM_cons, h]
  rfl

theorem foldlM_word {s : State} (hs : s.mode = .items) {w : List UInt8}
    (hw : ∀ b ∈ w, b ∉ special) : w.foldlM feed s = some { s with top := s.top.word w } := by
  induction w generalizing s with
  | nil =>
    have hword : s.top.word [] = s.top := by
      simp [Frame.word]
    rw [hword]
    rfl
  | cons b w ih =>
    have hfeed : s.feed b = some (s.push (lit b) true) := by
      simp only [feed, hs, item, if_pos (hw b List.mem_cons_self)]
    have hrest := ih (s := s.push (lit b) true) rfl fun c hc => hw c (List.mem_cons_of_mem b hc)
    rw [foldlM_feed hfeed, hrest]
    simp [push, Frame.push, Frame.word, hs]

end State

def parse (pattern : List UInt8) : Option (Regex UInt8) :=
  (pattern.foldlM State.feed .init).bind State.finish

/-- The message holds a match of the pattern. -/
def Matches (pattern message : List UInt8) : Prop :=
  ∃ r, parse pattern = some r ∧ r.Found message

end Ivy.Perl
