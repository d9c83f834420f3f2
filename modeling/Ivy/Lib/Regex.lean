import Mathlib.Data.List.Basic
import Mathlib.Data.Nat.Notation
import Mathlib.Tactic.SplitIfs

/-! Regular expressions with repetition, negative lookahead and a start anchor, and the places
where a match of one can end. -/
namespace Ivy

inductive Regex (α : Type*)
  | empty
  | set (p : α → Bool)
  | seq (r r' : Regex α)
  | alt (r r' : Regex α)
  | rep (r : Regex α) (least : ℕ) (most : Option ℕ)
  | notAhead (r : Regex α)
  | start

namespace Regex

/-- A place in a string: what stands before it, backwards, and what stands after it. -/
structure Place (α : Type*) where
  before : List α
  rest : List α
  deriving DecidableEq

section Times
variable {β : Type*}

def Times (P : β → β → Prop) : ℕ → β → β → Prop
  | 0, t, u => u = t
  | k + 1, t, u => ∃ v, P t v ∧ Times P k v u

def times (f : β → List β) : ℕ → β → List β
  | 0, t => [t]
  | k + 1, t => (f t).flatMap (times f k)

theorem mem_times {P : β → β → Prop} {f : β → List β} (h : ∀ t u, u ∈ f t ↔ P t u) {k : ℕ}
    {t u : β} : u ∈ times f k t ↔ Times P k t u := by
  induction k generalizing t with
  | zero => exact List.mem_singleton
  | succ k ih => simp only [times, Times, List.mem_flatMap, h, ih]

/-- Steps that stay in place can be left out: from `n` of them on, at most as many are needed as
the measure allows. -/
theorem Times.shorten {P : β → β → Prop} {size : β → ℕ}
    (hP : ∀ t u, P t u → u = t ∨ size u < size t) {k : ℕ} {t u : β} (h : Times P k t u) {n : ℕ}
    (hn : n ≤ k) : ∃ j, n ≤ j ∧ j ≤ k ∧ j ≤ n + size t ∧ Times P j t u := by
  induction k generalizing t n with
  | zero => exact ⟨0, hn, Nat.le_refl 0, Nat.zero_le _, h⟩
  | succ k ih =>
    obtain ⟨v, htv, hvu⟩ := h
    cases n with
    | zero =>
      obtain ⟨j, -, hjk, hj, hju⟩ := ih hvu (Nat.zero_le k)
      rcases hP t v htv with rfl | hlt
      · exact ⟨j, Nat.zero_le j, by omega, hj, hju⟩
      · exact ⟨j + 1, Nat.zero_le _, by omega, by omega, v, htv, hju⟩
    | succ n =>
      obtain ⟨j, hnj, hjk, hj, hju⟩ := ih hvu (Nat.le_of_succ_le_succ hn)
      have hsize : size v ≤ size t := by
        rcases hP t v htv with rfl | hlt
        · exact Nat.le_refl _
        · exact Nat.le_of_lt hlt
      exact ⟨j + 1, by omega, by omega, by omega, v, htv, hju⟩

end Times

variable {α : Type*}

/-- `r.Reads t u`: a match of `r` that begins at `t` can end at `u`. -/
def Reads : Regex α → Place α → Place α → Prop
  | empty, t, u => u = t
  | set p, t, u => ∃ a rest, t.rest = a :: rest ∧ p a = true ∧ u = ⟨a :: t.before, rest⟩
  | seq r r', t, u => ∃ v, r.Reads t v ∧ r'.Reads v u
  | alt r r', t, u => r.Reads t u ∨ r'.Reads t u
  | rep r least most, t, u =>
    ∃ k, least ≤ k ∧ (∀ m ∈ most, k ≤ m) ∧ Times r.Reads k t u
  | notAhead r, t, u => u = t ∧ ¬ ∃ v, r.Reads t v
  | start, t, u => u = t ∧ t.before = []

/-- The places where a match can end. -/
def places : Regex α → Place α → List (Place α)
  | empty, t => [t]
  | set p, t =>
    match t.rest with
    | [] => []
    | a :: rest => if p a then [⟨a :: t.before, rest⟩] else []
  | seq r r', t => (r.places t).flatMap r'.places
  | alt r r', t => r.places t ++ r'.places t
  | rep r least most, t =>
    ((List.range (least + t.rest.length + 1)).filter fun k =>
      least ≤ k ∧ ∀ m ∈ most, k ≤ m).flatMap fun k => times r.places k t
  | notAhead r, t => if r.places t = [] then [t] else []
  | start, t => if t.before = [] then [t] else []

/-- A match reads a part of the input, and only forwards. -/
theorem Reads.eq_or_shorter {r : Regex α} {t u : Place α} (h : r.Reads t u) :
    u = t ∨ u.rest.length < t.rest.length := by
  induction r generalizing t u with
  | empty => exact .inl h
  | set p =>
    obtain ⟨a, rest, hrest, -, rfl⟩ := h
    exact .inr (by simp [hrest])
  | seq r r' ihr ihr' =>
    obtain ⟨v, htv, hvu⟩ := h
    rcases ihr htv with rfl | htv
    · exact ihr' hvu
    · rcases ihr' hvu with rfl | hvu
      · exact .inr htv
      · exact .inr (Nat.lt_trans hvu htv)
  | alt r r' ihr ihr' => exact h.elim ihr ihr'
  | rep r least most ih =>
    obtain ⟨k, -, -, hk⟩ := h
    clear least most
    induction k generalizing t with
    | zero => exact .inl hk
    | succ k ihk =>
      obtain ⟨v, htv, hvu⟩ := hk
      rcases ih htv with rfl | htv
      · exact ihk hvu
      · rcases ihk hvu with rfl | hvu
        · exact .inr htv
        · exact .inr (Nat.lt_trans hvu htv)
  | notAhead r => exact .inl h.1
  | start => exact .inl h.1

/-- The list of places holds exactly the ends of matches. -/
theorem mem_places {r : Regex α} {t u : Place α} : u ∈ r.places t ↔ r.Reads t u := by
  induction r generalizing t u with
  | empty => exact List.mem_singleton
  | set p =>
    cases hrest : t.rest with
    | nil => simp [places, Reads, hrest]
    | cons a rest =>
      simp only [places, Reads, hrest, List.cons.injEq]
      split_ifs with hp
      · constructor
        · intro hu
          exact ⟨a, rest, ⟨rfl, rfl⟩, hp, List.mem_singleton.mp hu⟩
        · rintro ⟨_, _, ⟨rfl, rfl⟩, -, rfl⟩
          exact List.mem_singleton_self _
      · constructor
        · intro hu
          exact absurd hu List.not_mem_nil
        · rintro ⟨_, _, ⟨rfl, rfl⟩, hp', -⟩
          exact absurd hp' hp
  | seq r r' ihr ihr' => simp only [places, Reads, List.mem_flatMap, ihr, ihr']
  | alt r r' ihr ihr' => simp only [places, Reads, List.mem_append, ihr, ihr']
  | rep r least most ih =>
    have hmem : ∀ k, u ∈ times r.places k t ↔ Times r.Reads k t u :=
      fun k => mem_times fun _ _ => ih
    simp only [places, Reads, List.mem_flatMap, List.mem_filter, List.mem_range, decide_eq_true_eq,
      hmem]
    constructor
    · rintro ⟨k, ⟨-, hleast, hmost⟩, hk⟩
      exact ⟨k, hleast, hmost, hk⟩
    · rintro ⟨k, hleast, hmost, hk⟩
      -- Any longer repetition has idle turns.
      have hprogress : ∀ t u, r.Reads t u → u = t ∨ u.rest.length < t.rest.length :=
        fun _ _ => Reads.eq_or_shorter
      obtain ⟨j, hj, hjk, hbound, hju⟩ := hk.shorten hprogress hleast
      have hbelow : ∀ m ∈ most, j ≤ m := fun m hm => Nat.le_trans hjk (hmost m hm)
      exact ⟨j, ⟨by omega, hj, hbelow⟩, hju⟩
  | notAhead r ih =>
    have hnil : r.places t = [] ↔ ¬ ∃ v, r.Reads t v := by
      simp only [List.eq_nil_iff_forall_not_mem, ih, not_exists]
    simp only [places, Reads, ← hnil]
    split_ifs with hr
    · simp [hr]
    · simp [hr]
  | start =>
    simp only [places, Reads]
    split_ifs with ht
    · simp [ht]
    · simp [ht]

def Whole (r : Regex α) (s : List α) : Prop := ∃ before, r.Reads ⟨[], s⟩ ⟨before, []⟩

def Found (r : Regex α) (s : List α) : Prop :=
  ∃ n ≤ s.length, ∃ u, r.Reads ⟨(s.take n).reverse, s.drop n⟩ u

theorem whole_iff {r : Regex α} {s : List α} :
    r.Whole s ↔ ∃ u ∈ r.places ⟨[], s⟩, u.rest = [] := by
  simp only [Whole, mem_places]
  constructor
  · rintro ⟨before, h⟩
    exact ⟨_, h, rfl⟩
  · rintro ⟨⟨before, rest⟩, h, hrest⟩
    exact ⟨before, by rwa [show rest = [] from hrest] at h⟩

instance (r : Regex α) (s : List α) : Decidable (r.Whole s) :=
  decidable_of_iff _ whole_iff.symm

theorem found_iff {r : Regex α} {s : List α} :
    r.Found s ↔ ∃ n ∈ List.range (s.length + 1),
      r.places ⟨(s.take n).reverse, s.drop n⟩ ≠ [] := by
  simp only [Found, ← mem_places, List.mem_range, Nat.lt_succ_iff, ne_eq,
    List.eq_nil_iff_forall_not_mem, not_forall, not_not]

instance (r : Regex α) (s : List α) : Decidable (r.Found s) :=
  decidable_of_iff _ found_iff.symm

/-! ### Sequences -/

def seqs (rs : List (Regex α)) : Regex α := rs.foldr seq empty

def alts (rs : List (Regex α)) (last : Regex α) : Regex α := rs.foldr alt last

theorem reads_seqs_append {rs rs' : List (Regex α)} {t u : Place α} :
    (seqs (rs ++ rs')).Reads t u ↔ ∃ v, (seqs rs).Reads t v ∧ (seqs rs').Reads v u := by
  induction rs generalizing t with
  | nil => simp [seqs, Reads]
  | cons r rs ih =>
    have ih' : ∀ v, (List.foldr seq empty (rs ++ rs')).Reads v u ↔
        ∃ w, (List.foldr seq empty rs).Reads v w ∧ (List.foldr seq empty rs').Reads w u :=
      fun v => ih
    simp only [seqs, List.cons_append, List.foldr_cons, Reads, ih']
    constructor
    · rintro ⟨v, hr, w, hrs, hrs'⟩
      exact ⟨w, ⟨v, hr, hrs⟩, hrs'⟩
    · rintro ⟨w, ⟨v, hr, hrs⟩, hrs'⟩
      exact ⟨v, hr, w, hrs, hrs'⟩

theorem found_start {r : Regex α} {s : List α} :
    (seq start r).Found s ↔ ∃ u, r.Reads ⟨[], s⟩ u := by
  constructor
  · rintro ⟨n, -, u, _, ⟨rfl, hbegin⟩, hr⟩
    have hnil : s.take n = [] := List.reverse_eq_nil_iff.mp hbegin
    have hdrop : s.drop n = s := by
      have hsplit := List.take_append_drop n s
      rwa [hnil, List.nil_append] at hsplit
    rw [hnil, hdrop] at hr
    exact ⟨u, hr⟩
  · rintro ⟨u, hr⟩
    exact ⟨0, Nat.zero_le _, u, _, ⟨rfl, rfl⟩, hr⟩

theorem whole_guarded {r r' : Regex α} (hend : ∀ before u, ¬ r'.Reads ⟨before, []⟩ u)
    {s : List α} : (seqs [r, notAhead r']).Whole s ↔ r.Whole s := by
  constructor
  · rintro ⟨before, v, hr, _, ⟨rfl, -⟩, rfl⟩
    exact ⟨before, hr⟩
  · rintro ⟨before, hr⟩
    have hnone : ¬ ∃ u, r'.Reads ⟨before, []⟩ u := fun ⟨u, hu⟩ => hend before u hu
    exact ⟨before, _, hr, _, ⟨rfl, hnone⟩, rfl⟩

variable [DecidableEq α]

def lit (a : α) : Regex α := set fun b => b = a

theorem reads_lit {a : α} {t u : Place α} :
    (lit a).Reads t u ↔ t.rest = a :: u.rest ∧ u.before = a :: t.before := by
  simp only [lit, Reads, decide_eq_true_eq]
  constructor
  · rintro ⟨b, rest, hrest, rfl, rfl⟩
    exact ⟨hrest, rfl⟩
  · rintro ⟨hrest, hbefore⟩
    exact ⟨a, u.rest, hrest, rfl, by rw [← hbefore]⟩

theorem reads_word {w : List α} {t u : Place α} :
    (seqs (w.map lit)).Reads t u ↔ t.rest = w ++ u.rest ∧ u.before = w.reverse ++ t.before := by
  induction w generalizing t with
  | nil =>
    simp only [List.map_nil, seqs, List.foldr_nil, Reads, List.nil_append, List.reverse_nil]
    constructor
    · rintro rfl
      exact ⟨rfl, rfl⟩
    · rintro ⟨hrest, hbefore⟩
      cases t; cases u
      exact congrArg₂ Place.mk hbefore hrest.symm
  | cons a w ih =>
    have hsplit : (seqs ((a :: w).map lit)).Reads t u ↔
        ∃ v, (lit a).Reads t v ∧ (seqs (w.map lit)).Reads v u := Iff.rfl
    simp only [hsplit, reads_lit, ih]
    constructor
    · rintro ⟨v, ⟨hrest, hbefore⟩, hv, hu⟩
      constructor
      · rw [hrest, hv, List.cons_append]
      · rw [hu, hbefore, List.reverse_cons, List.append_assoc, List.singleton_append]
    · rintro ⟨hrest, hbefore⟩
      have hfirst : t.rest = a :: (w ++ u.rest) := hrest
      have hlast : u.before = w.reverse ++ a :: t.before := by
        rw [hbefore, List.reverse_cons, List.append_assoc, List.singleton_append]
      exact ⟨⟨a :: t.before, w ++ u.rest⟩, ⟨hfirst, rfl⟩, rfl, hlast⟩

/-- What an anchored word is followed by does not matter: the string begins with the word. -/
theorem prefix_of_found {w s : List α} {rs : List (Regex α)}
    (h : (seqs (start :: (w.map lit ++ rs))).Found s) : w <+: s := by
  obtain ⟨u, hu⟩ := found_start.mp h
  obtain ⟨v, hword, -⟩ := reads_seqs_append.mp hu
  exact ⟨v.rest, (reads_word.mp hword).1.symm⟩

theorem whole_word {w s : List α} : (seqs (w.map lit)).Whole s ↔ s = w := by
  simp only [Whole, reads_word, List.append_nil]
  constructor
  · rintro ⟨_, rfl, -⟩
    rfl
  · rintro rfl
    exact ⟨s.reverse, rfl, rfl⟩

end Regex
end Ivy
