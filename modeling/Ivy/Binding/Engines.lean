import Ivy.Protocol.Args
import Mathlib.Data.List.DropRight
import Mathlib.Tactic.SplitIfs

/-! `IvyBindingExec` and `IvyBindingMatch` over `regexec` and over `pcre2_match`. -/
namespace Ivy.Binding

def maxMsgFields : ℕ := 200

/-- `PCRE2_UNSET` -/
def pcre2Unset : ℕ := 2 ^ 64 - 1

/-- A match: the span of the whole, and of each group that takes part. -/
structure Match where
  whole : ℕ × ℕ
  groups : List (Option (ℕ × ℕ))

def Match.span (m : Match) : ℕ → Option (ℕ × ℕ)
  | 0 => some m.whole
  | n + 1 => m.groups.getD n none

/-- The number of the last group that takes part, zero if none does. -/
def Match.highest (m : Match) : ℕ := (m.groups.rdropWhile Option.isNone).length

/-- `regmatch_t` -/
structure RegMatch where
  rm_so : ℤ
  rm_eo : ℤ
  deriving DecidableEq

/-- What `memset` leaves in `bind->match`. -/
def unset : ℕ → RegMatch := fun _ => ⟨-1, -1⟩

/-- `regexec` with an expression and a message: what it returns, and what it makes of the array. -/
abbrev Regexec := (ℕ → RegMatch) → ℤ × (ℕ → RegMatch)

def regNomatch : ℤ := 1

def regMatch : Option (ℕ × ℕ) → RegMatch
  | none => ⟨-1, -1⟩
  | some (rm_so, rm_eo) => ⟨rm_so, rm_eo⟩

/-- The result of `regexec` is this match, or that there is none; elements that are not used are -1. -/
structure Regexec.Reports (regexec : Regexec) (found : Option Match) : Prop where
  ret : (regexec unset).1 = if found.isSome then 0 else regNomatch
  spans : ∀ m ∈ found, ∀ i < maxMsgFields, (regexec unset).2 i = regMatch (m.span i)

/-- What `pcre2_match` returns and leaves in the match data. -/
structure Pcre2Match where
  ret : ℤ
  ovector : ℕ → ℕ
  ovector_count : ℕ

/-- `PCRE2_ERROR_NOMATCH` -/
def pcre2ErrorNomatch : ℤ := -1

/-- The result of `pcre2_match` is this match, or that there is none: it returns one more than the
number of the last group that is set. -/
structure Pcre2Match.Reports (q : Pcre2Match) (found : Option Match) : Prop where
  ret : q.ret = found.elim pcre2ErrorNomatch fun m => m.highest + 1
  count : ∀ m ∈ found, q.ovector_count = m.groups.length + 1
  spans : ∀ m ∈ found, ∀ i ≤ m.groups.length,
    (q.ovector (2 * i), q.ovector (2 * i + 1)) = (m.span i).getD (pcre2Unset, pcre2Unset)

/-- The value of `IvyBindingExec`, and `IvyBindingMatch` after it: a length and a pointer into the
message. -/
structure Engine where
  nb_match : ℤ
  ivyBindingMatch : ℕ → ℤ × Option ℕ

/-- The build without `USE_PCRE_REGEX`. -/
def posix (regexec : Regexec) : Engine :=
  let r := regexec unset
  { nb_match :=
      if r.1 = regNomatch then 0
      else (List.range' 1 (maxMsgFields - 1)).foldl
        (fun nb_match index => if (r.2 index).rm_so ≠ -1 then nb_match + 1 else nb_match) r.1
    ivyBindingMatch argnum :=
      let p := r.2 argnum
      if p.rm_so ≠ -1 then (p.rm_eo - p.rm_so, some p.rm_so.toNat) else (0, none) }

/-- The build with `USE_PCRE_REGEX`; `bind->nb_match` is what `IvyBindingExec` returns. -/
def pcre2 (q : Pcre2Match) : Engine :=
  let nb_match := if q.ret < 1 then 0 else q.ret
  { nb_match := nb_match
    ivyBindingMatch argnum :=
      if nb_match < 1 ∨ q.ovector_count ≤ argnum then (0, none)
      else
        let start := q.ovector (2 * argnum)
        let stop := q.ovector (2 * argnum + 1)
        if start = pcre2Unset ∨ stop = pcre2Unset ∨ stop < start ∨ 2 ^ 31 ≤ stop - start then (0, none)
        else ((stop - start : ℕ), some start) }

/-- The text of an argument; a null one prints nothing. -/
def argument (message : Text) (arg : ℤ × Option ℕ) : Option Text :=
  arg.2.map fun start => (message.drop start).take arg.1.toNat

/-- The arguments that `RegexpCall` asks for. -/
def captures (message : Text) (e : Engine) : List (Option Text) :=
  (List.range' 1 (e.nb_match.toNat - 1)).map fun indx => argument message (e.ivyBindingMatch indx)

def encoded (bufferArg : IvyBuffer) (message : Text) (e : Engine) : Option Text :=
  if e.nb_match < 1 then none else some (printArgs bufferArg (captures message e)).contents

/-- The same value, the same length and text for each group below it, and the same arguments. -/
structure Agree (bufferArg : IvyBuffer) (message : Text) (e e' : Engine) : Prop where
  value : e.nb_match = e'.nb_match
  groups : ∀ argnum : ℕ, 1 ≤ argnum → (argnum : ℤ) ≤ e.nb_match - 1 →
    (e.ivyBindingMatch argnum).1 = (e'.ivyBindingMatch argnum).1 ∧
      argument message (e.ivyBindingMatch argnum) = argument message (e'.ivyBindingMatch argnum)
  arguments : encoded bufferArg message e = encoded bufferArg message e'

/-! ### The values -/

private theorem foldl_count {p : ℕ → Prop} [DecidablePred p] {b : ℕ → Bool} {is : List ℕ}
    (h : ∀ i ∈ is, p i ↔ b i = true) (z : ℤ) :
    is.foldl (fun nb_match index => if p index then nb_match + 1 else nb_match) z = z + is.countP b := by
  induction is generalizing z with
  | nil => simp
  | cons i is ih =>
    rw [List.forall_mem_cons] at h
    rw [List.foldl_cons, ih h.2, List.countP_cons]
    by_cases hi : p i
    · rw [if_pos hi, if_pos (h.1.mp hi)]
      push_cast
      omega
    · rw [if_neg hi, if_neg fun hb => hi (h.1.mpr hb), Nat.add_zero]

private theorem countP_range' {α : Type*} (xs : List (Option α)) {n : ℕ} (h : xs.length ≤ n) :
    (List.range' 1 n).countP (fun i => (xs.getD (i - 1) none).isSome) = xs.countP Option.isSome := by
  induction xs generalizing n with
  | nil => simp
  | cons x xs ih =>
    obtain ⟨n, rfl⟩ : ∃ m, n = m + 1 := ⟨n - 1, by simp at h; omega⟩
    have hshift : List.range' 2 n = (List.range' 1 n).map (1 + ·) := (List.map_add_range' 1 n 1).symm
    rw [List.range'_succ, List.countP_cons, List.countP_cons, hshift, List.countP_map, ← ih (by simpa using h)]
    congr 1
    apply List.countP_congr
    intro i hi
    have hpos : 1 ≤ i := (List.mem_range'_1.mp hi).1
    obtain ⟨j, rfl⟩ := Nat.exists_eq_add_of_le hpos
    simp [Nat.add_comm 1]

/-- The groups that take part are not more than the number of the last of them. -/
private theorem countP_le_highest (groups : List (Option (ℕ × ℕ))) :
    groups.countP Option.isSome ≤ (groups.rdropWhile Option.isNone).length := by
  induction groups using List.reverseRecOn with
  | nil => exact Nat.zero_le _
  | append_singleton groups g ih =>
    cases g with
    | none => simpa using ih
    | some span =>
      rw [List.rdropWhile_concat_neg _ _ _ (by simp)]
      exact List.countP_le_length

section
variable {regexec : Regexec} {q : Pcre2Match} {m : Match} {message : Text}

/-- The POSIX build counts the groups that take part. -/
theorem posix_value (hp : regexec.Reports (some m)) (hgroups : m.groups.length < maxMsgFields) :
    (posix regexec).nb_match = m.groups.countP Option.isSome := by
  have hret : (regexec unset).1 = 0 := hp.ret
  have hset (i : ℕ) (hi : i ∈ List.range' 1 (maxMsgFields - 1)) :
      ((regexec unset).2 i).rm_so ≠ -1 ↔ (m.groups.getD (i - 1) none).isSome = true := by
    obtain ⟨hlow, hhigh⟩ := List.mem_range'_1.mp hi
    obtain ⟨j, rfl⟩ := Nat.exists_eq_add_of_le' hlow
    rw [hp.spans m rfl _ (by omega), Match.span, Nat.add_sub_cancel]
    cases m.groups.getD j none with
    | none => simp [regMatch]
    | some span => simp [regMatch]
  show (if (regexec unset).1 = regNomatch then 0 else _) = _
  rw [hret, if_neg (by decide), foldl_count hset, countP_range' _ (by omega), Int.zero_add]

/-- The PCRE2 build counts the whole and the groups up to the last one that takes part. -/
theorem pcre2_value (hq : q.Reports (some m)) : (pcre2 q).nb_match = m.highest + 1 := by
  have hret : q.ret = m.highest + 1 := hq.ret
  show (if q.ret < 1 then 0 else q.ret) = _
  rw [if_neg (by omega), hret]

theorem posix_nomatch (hp : regexec.Reports none) : (posix regexec).nb_match = 0 := if_pos hp.ret

theorem pcre2_nomatch (hq : q.Reports none) : (pcre2 q).nb_match = 0 := by
  have hret : q.ret = -1 := hq.ret
  exact if_pos (by omega)

theorem ivyBindingMatch_eq (hp : regexec.Reports (some m)) (hq : q.Reports (some m))
    (hgroups : m.groups.length < maxMsgFields) {i : ℕ} (hi : i ≤ m.groups.length)
    (hspan : ∀ s ∈ m.span i, s.1 ≤ s.2 ∧ s.2 < 2 ^ 31) :
    (posix regexec).ivyBindingMatch i = (pcre2 q).ivyBindingMatch i := by
  have hvector := hq.spans m rfl i hi
  have hcount : q.ovector_count = m.groups.length + 1 := hq.count m rfl
  have hinside : ¬ ((pcre2 q).nb_match < 1 ∨ q.ovector_count ≤ i) := by
    rw [pcre2_value hq]
    omega
  have hposix : (posix regexec).ivyBindingMatch i =
      if (regMatch (m.span i)).rm_so ≠ -1 then
        ((regMatch (m.span i)).rm_eo - (regMatch (m.span i)).rm_so, some (regMatch (m.span i)).rm_so.toNat)
      else (0, none) := by
    rw [← hp.spans m rfl i (by omega)]
    rfl
  rw [hposix]
  refine Eq.trans ?_ (if_neg hinside).symm
  cases hs : m.span i with
  | none =>
    rw [hs, Option.getD_none, Prod.mk.injEq] at hvector
    rw [hvector.1, if_neg (by simp [regMatch]), if_pos (.inl rfl)]
  | some s =>
    obtain ⟨hle, hlt⟩ := hspan s hs
    rw [hs, Option.getD_some, Prod.mk.injEq] at hvector
    rw [hvector.1, hvector.2, if_pos (by simp [regMatch]), if_neg (by simp only [pcre2Unset]; omega)]
    simp only [regMatch, Int.toNat_natCast, Prod.mk.injEq, and_true]
    omega

/-- A match with a group that takes part: the POSIX build leaves out the last arguments, at least
one. -/
theorem captures_posix (hp : regexec.Reports (some m)) (hq : q.Reports (some m))
    (hgroups : m.groups.length < maxMsgFields) (hspans : ∀ i, ∀ s ∈ m.span i, s.1 ≤ s.2 ∧ s.2 < 2 ^ 31) :
    captures message (posix regexec) =
      (captures message (pcre2 q)).take (m.groups.countP Option.isSome - 1) := by
  have hle : m.groups.countP Option.isSome ≤ m.highest := countP_le_highest m.groups
  have hlength : m.highest ≤ m.groups.length := (List.rdropWhile_prefix Option.isNone m.groups).length_le
  unfold captures
  rw [posix_value hp hgroups, pcre2_value hq, ← List.map_take, Int.toNat_natCast,
    List.take_range'_of_length_ge (by omega)]
  apply List.map_congr_left
  intro i hi
  obtain ⟨-, hhigh⟩ := List.mem_range'_1.mp hi
  rw [ivyBindingMatch_eq hp hq hgroups (by omega) (hspans i)]

/-- The builds agree exactly where there is no match. -/
theorem engines_agree_iff {found : Option Match} (hp : regexec.Reports found) (hq : q.Reports found)
    (hgroups : ∀ m ∈ found, m.groups.length < maxMsgFields) (bufferArg : IvyBuffer) (message : Text) :
    Agree bufferArg message (posix regexec) (pcre2 q) ↔ found = none := by
  constructor
  · intro h
    cases found with
    | none => rfl
    | some m =>
      have hvalue := h.value
      have hle := countP_le_highest m.groups
      rw [posix_value hp (hgroups m rfl), pcre2_value hq, Match.highest] at hvalue
      omega
  · rintro rfl
    have hposix := posix_nomatch hp
    have hpcre2 := pcre2_nomatch hq
    constructor
    · rw [hposix, hpcre2]
    · intro argnum hlow hhigh
      omega
    · unfold encoded
      rw [hposix, hpcre2]
      rfl

end

/-- A message that an expression does not match. -/
theorem engines_agree_nomatch :
    Agree emptyBuffer (ascii "HELLO") (posix fun pmatch => (regNomatch, pmatch))
      (pcre2 ⟨pcre2ErrorNomatch, fun _ => 0, 1⟩) := by
  have hp : Regexec.Reports (fun pmatch => (regNomatch, pmatch)) none :=
    ⟨rfl, fun m hm => absurd hm (by simp)⟩
  have hq : Pcre2Match.Reports ⟨pcre2ErrorNomatch, fun _ => 0, 1⟩ none :=
    ⟨rfl, fun m hm => absurd hm (by simp), fun m hm => absurd hm (by simp)⟩
  exact (engines_agree_iff hp hq (fun m hm => absurd hm (by simp)) emptyBuffer (ascii "HELLO")).mpr rfl

/-- `^(.+) ([0-9]+)$` on `plane 123`: the POSIX build gives 2 and leaves out the number. -/
theorem posix_drops_group :
    let found : Match := ⟨(0, 9), [some (0, 5), some (6, 9)]⟩
    let regexec : Regexec := fun _ => (0, fun i => regMatch (found.span i))
    let q : Pcre2Match := ⟨3, fun i => [0, 9, 0, 5, 6, 9].getD i 0, 3⟩
    regexec.Reports (some found) ∧ q.Reports (some found) ∧
      captures (ascii "plane 123") (posix regexec) = [some (ascii "plane")] ∧
      captures (ascii "plane 123") (pcre2 q) = [some (ascii "plane"), some (ascii "123")] ∧
      ¬ Agree emptyBuffer (ascii "plane 123") (posix regexec) (pcre2 q) := by
  intro found regexec q
  have hp : regexec.Reports (some found) := by
    refine ⟨rfl, ?_⟩
    rintro m ⟨⟩ i -
    rfl
  have hq : q.Reports (some found) := by
    refine ⟨rfl, ?_, ?_⟩
    · rintro m ⟨⟩
      rfl
    · rintro m ⟨⟩
      decide
  have hposix : (posix regexec).nb_match = 2 := posix_value hp (by decide)
  have hpcre2 : (pcre2 q).nb_match = 3 := pcre2_value hq
  refine ⟨hp, hq, ?_, ?_, fun h => ?_⟩
  · unfold captures
    rw [hposix]
    decide
  · unfold captures
    rw [hpcre2]
    decide
  · have hvalue := h.value
    rw [hposix, hpcre2] at hvalue
    exact absurd hvalue (by decide)

end Ivy.Binding
