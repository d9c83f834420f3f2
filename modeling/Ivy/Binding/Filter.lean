import Ivy.Lib.Linked
import Ivy.Lib.Machine
import Ivy.Lib.Perl
import Ivy.Protocol.Text
import Mathlib.Data.List.TakeWhile

/-! The classes of messages that an application sends, and the regexps that it filters out for
them. -/
namespace Ivy.Binding
open Linked Regex

def caret : UInt8 := 94

/-- The ranges of `[a-zA-Z_0-9-]`. -/
def keywordRanges : List (UInt8 × UInt8) :=
  [(97, 122), (65, 90), (95, 95), (48, 57), (minus, minus)]

def isKeywordByte (b : UInt8) : Bool := keywordRanges.any fun r => r.1 ≤ b && b ≤ r.2

/-- `messages_classes`, and whether `token_extract` is compiled. -/
structure Filter where
  messages_classes : Store Text
  token_extract : Bool

namespace Filter

def initial : Filter := ⟨.empty, false⟩

def words (s : Filter) : List Text := s.messages_classes.values

/-- `IvyBindingAddFilter`; `compiles` tells whether PCRE2 compiles the regexp of the tokens. -/
def ivyBindingAddFilter (arg : Option Text) (compiles : Bool) (s : Filter) : Filter :=
  ⟨arg.elim s.messages_classes s.messages_classes.push, s.token_extract || compiles⟩

def ivyBindingRemoveFilter (arg : Text) (s : Filter) : Option Filter :=
  (s.messages_classes.prune fun word => word = arg).map fun messages_classes =>
    { s with messages_classes := messages_classes }

def tokenExtract : Text := ascii "^\\^([a-zA-Z_0-9-]+).*"

/-- What `token_extract` captures of an expression, the most that it can. It matches the
expressions that begin with `^` and for which this is not empty. -/
def token (expression : Text) : Text := (expression.drop 1).takeWhile isKeywordByte

/-- `strncmp (s, t, n) != 0` -/
def strncmp (s t : Text) (n : ℕ) : Bool := (s ++ [0]).take n ≠ (t ++ [0]).take n

/-- `IvyBindingFilter`: whether the expression is accepted. -/
def ivyBindingFilter (expression : Text) (s : Filter) : Option Bool :=
  if expression.head? = some caret ∧ s.messages_classes.head ≠ none then
    if s.token_extract = false ∨ token expression = [] then some true
    else
      -- `IvyBindingMatch` gives a null token of no length for one that is too long for an `int`.
      let tokenlen := if (token expression).length < 2 ^ 31 then (token expression).length else 0
      (iter s.messages_classes.node (fun word => strncmp word.val (expression.drop 1) tokenlen)
        s.messages_classes.brk s.messages_classes.head).map fun word => word.isSome
  else some true

inductive Event
  | add (arg : Option Text) (compiles : Bool)
  | remove (arg : Text)

def step (s : Filter) : Event → Option Filter
  | .add arg compiles => some (ivyBindingAddFilter arg compiles s)
  | .remove arg => ivyBindingRemoveFilter arg s

/-- The first keyword of a message. -/
def keyword (message : Text) : Text := message.takeWhile isKeywordByte

def HasToken (expression : Text) : Prop :=
  expression.head? = some caret ∧ token expression ≠ [] ∧ (token expression).length < 2 ^ 31

/-! ### The token and the words -/

/-- The regexp of the tokens matches the expressions that have one, of any length. -/
theorem tokenExtract_matches_iff (expression : Text) :
    Perl.Matches tokenExtract expression ↔
      expression.head? = some caret ∧ token expression ≠ [] := by
  have hparse : Perl.parse tokenExtract = some (seqs [Regex.start, lit caret,
      seqs [rep (Perl.within keywordRanges) 1 none], rep (set fun c => c ≠ Perl.newline) 0 none]) :=
    rfl
  constructor
  · rintro ⟨r, hr, hfound⟩
    rw [hparse] at hr
    cases hr
    obtain ⟨u, v, hcaret, w, ⟨x, ⟨k, hk, -, hrun⟩, -⟩, -⟩ := found_start.mp hfound
    obtain ⟨hexpression, -⟩ := reads_lit.mp hcaret
    obtain ⟨j, rfl⟩ : ∃ j, k = j + 1 := ⟨k - 1, by omega⟩
    obtain ⟨_, ⟨a, rest, hrest, ha, -⟩, -⟩ := hrun
    have hexpression : expression = caret :: v.rest := hexpression
    have htoken : token expression = a :: rest.takeWhile isKeywordByte := by
      rw [hexpression, hrest, token, List.drop_one, List.tail_cons]
      exact List.takeWhile_cons_of_pos ha
    rw [htoken, hexpression]
    exact ⟨rfl, List.cons_ne_nil _ _⟩
  · rintro ⟨hcaret, htoken⟩
    obtain ⟨rest, rfl⟩ : ∃ rest, expression = caret :: rest :=
      ⟨expression.tail, (List.cons_head?_tail hcaret).symm⟩
    cases rest with
    | nil => exact absurd rfl htoken
    | cons a rest =>
      have ha : isKeywordByte a = true := by
        by_contra ha
        exact htoken (List.takeWhile_cons_of_neg ha)
      have hgroup : (rep (Perl.within keywordRanges) 1 none).Reads ⟨[caret], a :: rest⟩
          ⟨[a, caret], rest⟩ :=
        ⟨1, le_refl 1, fun _ h => absurd h (Option.not_mem_none _), _, ⟨a, rest, rfl, ha, rfl⟩, rfl⟩
      have htail : (rep (set fun c => decide (c ≠ Perl.newline)) 0 none).Reads ⟨[a, caret], rest⟩
          ⟨[a, caret], rest⟩ :=
        ⟨0, le_refl 0, fun _ h => absurd h (Option.not_mem_none _), rfl⟩
      exact ⟨_, hparse, found_start.mpr ⟨_, _, reads_lit.mpr ⟨rfl, rfl⟩, _, ⟨_, hgroup, rfl⟩, _,
        htail, rfl⟩⟩

/-- An expression that is read as its token and anything after it needs the token. -/
theorem token_prefix_of_matches {expression message : Text} {rs : List (Regex UInt8)}
    (hparse : Perl.parse expression =
      some (seqs (Regex.start :: ((token expression).map lit ++ rs))))
    (h : Perl.Matches expression message) : token expression <+: message := by
  obtain ⟨r, hr, hfound⟩ := h
  rw [hparse] at hr
  cases hr
  exact prefix_of_found hfound

/-- The filter is right about `^PLANE (.*)`. -/
example {message : Text} (h : Perl.Matches (ascii "^PLANE (.*)") message) :
    ascii "PLANE" <+: message := by
  have hparse : Perl.parse (ascii "^PLANE (.*)") = some (seqs (Regex.start ::
      ((ascii "PLANE").map lit ++ [lit space, seqs [rep (set fun c => c ≠ Perl.newline) 0 none]]))) :=
    rfl
  exact token_prefix_of_matches hparse h

theorem zero_not_mem_token {expression : Text} : 0 ∉ token expression := by
  intro h
  exact absurd (List.mem_takeWhile_imp h) (by decide)

theorem take_token (expression : Text) :
    (expression.drop 1 ++ [0]).take (token expression).length = token expression := by
  have hpre : token expression <+: expression.drop 1 ++ [0] :=
    (List.takeWhile_prefix _).trans (List.prefix_append _ _)
  exact (List.prefix_iff_eq_take.mp hpre).symm

/-- The comparison tells whether the word begins with the token. -/
theorem strncmp_token {expression word : Text} :
    strncmp word (expression.drop 1) (token expression).length = false ↔
      token expression <+: word := by
  rw [strncmp, take_token, decide_eq_false_iff_not, not_not]
  constructor
  · intro h
    have hpre : token expression <+: word ++ [0] := h ▸ List.take_prefix _ _
    rcases List.prefix_concat_iff.mp hpre with heq | hword
    · exact absurd (heq ▸ List.mem_concat_self) zero_not_mem_token
    · exact hword
  · intro h
    exact (List.prefix_iff_eq_take.mp (h.trans (List.prefix_append _ _))).symm

theorem token_prefix_keyword {expression message : Text} (h : token expression <+: message) :
    token expression <+: keyword message := by
  obtain ⟨rest, rfl⟩ := h
  have hall : ∀ b ∈ token expression, isKeywordByte b = true := fun _ => List.mem_takeWhile_imp
  rw [keyword, List.takeWhile_append_of_pos hall]
  exact List.prefix_append _ _

/-! ### The set of words -/

def wordsAfter (words : List Text) : Event → List Text
  | .add arg _ => arg.toList ++ words
  | .remove arg => words.filter (· ≠ arg)

def Lists (s : Filter) (words : List Text) : Prop :=
  ∃ ns, s.messages_classes.Holds ns ∧ ns.map Prod.snd = words

theorem Lists.words_eq {s : Filter} {words : List Text} (h : s.Lists words) : s.words = words := by
  obtain ⟨ns, hns, rfl⟩ := h
  exact hns.values_eq

theorem lists_initial : initial.Lists [] := ⟨[], holds_empty, rfl⟩

theorem Lists.step {s : Filter} {words : List Text} (h : s.Lists words) (e : Event) :
    ∃ t, step s e = some t ∧ t.Lists (wordsAfter words e) := by
  obtain ⟨ns, hns, rfl⟩ := h
  cases e with
  | add arg compiles =>
    cases arg with
    | none => exact ⟨_, rfl, ns, hns, rfl⟩
    | some word => exact ⟨_, rfl, _, hns.push word, rfl⟩
  | remove arg =>
    obtain ⟨l, hl, hpruned⟩ := hns.prune fun word => word = arg
    have hstep : Filter.step s (.remove arg) = some { s with messages_classes := l } := by
      rw [Filter.step, ivyBindingRemoveFilter, hl, Option.map_some]
    refine ⟨_, hstep, _, hpruned.holds, ?_⟩
    rw [wordsAfter, List.filter_map]
    congr 1
    apply List.filter_congr
    intro n _
    simp

/-- Every run is defined, and its words are those that were added and not removed since. -/
theorem run_lists (events : List Event) :
    ∃ s, Machine.run step initial events = some s ∧ s.Lists (events.foldl wordsAfter []) := by
  have hstep : ∀ past s e, s.Lists (past.foldl wordsAfter []) → True →
      ∃ t, step s e = some t ∧ t.Lists ((past ++ [e]).foldl wordsAfter []) := by
    intro past s e h _
    rw [List.foldl_concat]
    exact h.step e
  exact Machine.run_history (G := fun _ _ => True)
    (I := fun past (s : Filter) => s.Lists (past.foldl wordsAfter [])) lists_initial hstep
    (Machine.guarded_of_forall fun _ _ _ => trivial)

/-! ### Rejected expressions -/

theorem iter_eq_none {ns : List (ℕ × Text)} {l : Store Text} (h : l.Holds ns) (cond : Text → Bool) :
    (iter l.node (fun word => cond word.val) l.brk l.head).map (·.isSome) = some false ↔
      ∀ word ∈ ns.map Prod.snd, cond word = true := by
  rw [iter_eq h.path cond h.length_le, Option.map_some, Option.some.injEq]
  have hfirst : ∀ ms : List (ℕ × Text), (first ms).isSome = false ↔ ms = [] := by
    intro ms
    cases ms <;> simp
  rw [hfirst, List.dropWhile_eq_nil_iff, List.forall_mem_map]

/-- A rejected expression has a token with which no word begins. -/
theorem Lists.rejects_iff {s : Filter} {words : List Text} (h : s.Lists words) (expression : Text) :
    ivyBindingFilter expression s = some false ↔
      HasToken expression ∧ s.token_extract = true ∧ words ≠ [] ∧
        ∀ word ∈ words, ¬ token expression <+: word := by
  obtain ⟨ns, hns, rfl⟩ := h
  have hhead : s.messages_classes.head ≠ none ↔ ns.map Prod.snd ≠ [] := by
    rw [hns.path.first_eq]
    cases ns <;> simp
  rw [ivyBindingFilter]
  by_cases hbegin : expression.head? = some caret ∧ s.messages_classes.head ≠ none
  · have hwords := hhead.mp hbegin.2
    rw [if_pos hbegin]
    by_cases hnone : s.token_extract = false ∨ token expression = []
    · rw [if_pos hnone]
      constructor
      · exact fun h => absurd h (by simp)
      · rintro ⟨⟨-, htoken, -⟩, hextract, -⟩
        rcases hnone with hnone | hnone
        · exact absurd (hnone.symm.trans hextract) (by simp)
        · exact absurd hnone htoken
    · obtain ⟨hextract, htoken⟩ := not_or.mp hnone
      rw [if_neg hnone, iter_eq_none hns fun word => strncmp word (expression.drop 1) _]
      by_cases hlen : (token expression).length < 2 ^ 31
      · rw [if_pos hlen]
        simp only [← Bool.not_eq_false, strncmp_token]
        exact ⟨fun h => ⟨⟨hbegin.1, htoken, hlen⟩, hextract, hwords, h⟩, fun h => h.2.2.2⟩
      · rw [if_neg hlen]
        obtain ⟨word, hword⟩ := List.exists_mem_of_ne_nil _ hwords
        constructor
        · intro h
          exact absurd (h word hword) (by simp [strncmp])
        · exact fun h => absurd h.1.2.2 hlen
  · rw [if_neg hbegin]
    constructor
    · exact fun h => absurd h (by simp)
    · rintro ⟨⟨hcaret, -, -⟩, -, hwords, -⟩
      exact absurd ⟨hcaret, hhead.mpr hwords⟩ hbegin

/-- No filter rejects an expression that a message of one of its classes matches, if and only if
the expression has no token, or the messages that it matches all begin with the token. `matched`
is the meaning of the regexps. -/
theorem filter_sound_iff (matched : Text → Text → Prop) (expression : Text) :
    (∀ events s, Machine.run step initial events = some s → s.words ≠ [] →
      ivyBindingFilter expression s = some false →
        ∀ message, keyword message ∈ s.words → ¬ matched expression message) ↔
    ¬ HasToken expression ∨ ∀ message, matched expression message → token expression <+: message := by
  constructor
  · intro h
    by_cases htoken : HasToken expression
    · right
      intro message hmatched
      by_contra hpre
      -- the only class is the one of the message
      obtain ⟨s, hrun, hlists⟩ := run_lists [.add (some (keyword message)) true]
      have hstate : s = ⟨Store.empty.push (keyword message), true⟩ := (Option.some.inj hrun).symm
      have hwords : s.words = [keyword message] := hlists.words_eq
      have hrejects : ivyBindingFilter expression s = some false := by
        apply (hlists.rejects_iff expression).mpr
        refine ⟨htoken, by rw [hstate], List.cons_ne_nil _ _, ?_⟩
        intro word hword hbegins
        rw [List.mem_singleton.mp hword] at hbegins
        exact hpre (hbegins.trans (List.takeWhile_prefix _))
      have hnonempty : s.words ≠ [] := by
        rw [hwords]
        exact List.cons_ne_nil _ _
      have hmember : keyword message ∈ s.words := by
        rw [hwords]
        exact List.mem_singleton_self _
      exact h _ s hrun hnonempty hrejects message hmember hmatched
    · exact .inl htoken
  · intro h events s hrun _ hrejects message hkeyword hmatched
    obtain ⟨t, ht, hlists⟩ := run_lists events
    cases hrun.symm.trans ht
    obtain ⟨htoken, -, -, hbegin⟩ := (hlists.rejects_iff expression).mp hrejects
    rw [hlists.words_eq] at hkeyword
    rcases h with hnone | hpre
    · exact hnone htoken
    · exact hbegin _ hkeyword (token_prefix_keyword (hpre message hmatched))

/-- A `?` after the token: the class `OTHER` satisfies the regexp, which its filter rejects. -/
theorem quantifier_not_sound :
    ∃ s, Machine.run step initial [.add (some (ascii "OTHER")) true] = some s ∧
      ivyBindingFilter (ascii "^OTHERS?") s = some false ∧
      keyword (ascii "OTHER") ∈ s.words ∧
      Perl.Matches (ascii "^OTHERS?") (ascii "OTHER") := by
  refine ⟨_, rfl, ?_, ?_, _, rfl, ?_⟩
  · decide
  · decide
  · decide

end Filter
end Ivy.Binding
