import Ivy.Lib.Regex
import Mathlib.Computability.Language

/-! The languages of the regular expressions that do not look around. -/
namespace Ivy.Regex
variable {α : Type*}

/-- The word stands between two places. -/
def Between (w : List α) (t u : Place α) : Prop :=
  t.rest = w ++ u.rest ∧ u.before = w.reverse ++ t.before

theorem between_nil {t u : Place α} : Between [] t u ↔ u = t := by
  constructor
  · rintro ⟨hrest, hbefore⟩
    cases t; cases u
    exact congrArg₂ Place.mk hbefore hrest.symm
  · rintro rfl
    exact ⟨rfl, rfl⟩

theorem between_append {w w' : List α} {t u : Place α} :
    Between (w ++ w') t u ↔ ∃ v, Between w t v ∧ Between w' v u := by
  constructor
  · rintro ⟨hrest, hbefore⟩
    refine ⟨⟨w.reverse ++ t.before, w' ++ u.rest⟩, ⟨?_, rfl⟩, rfl, ?_⟩
    · rw [hrest, List.append_assoc]
    · rw [hbefore, List.reverse_append, List.append_assoc]
  · rintro ⟨v, ⟨hrest, hbefore⟩, hrest', hbefore'⟩
    constructor
    · rw [hrest, hrest', List.append_assoc]
    · rw [hbefore', hbefore, List.reverse_append, List.append_assoc]

/-- `r` reads exactly the words of the language. -/
def Denotes (r : Regex α) (l : Language α) : Prop :=
  ∀ t u, r.Reads t u ↔ ∃ w ∈ l, Between w t u

/-- The words of one letter. -/
def letters (p : α → Bool) : Language α := {w | ∃ a, p a = true ∧ w = [a]}

theorem denotes_empty : (empty : Regex α).Denotes 1 := by
  intro t u
  show u = t ↔ _
  constructor
  · intro h
    exact ⟨[], Language.nil_mem_one, between_nil.mpr h⟩
  · rintro ⟨w, rfl, h⟩
    exact between_nil.mp h

theorem denotes_set (p : α → Bool) : (set p).Denotes (letters p) := by
  intro t u
  constructor
  · rintro ⟨a, rest, hrest, ha, rfl⟩
    exact ⟨[a], ⟨a, ha, rfl⟩, hrest, rfl⟩
  · rintro ⟨w, ⟨a, ha, rfl⟩, hrest, hbefore⟩
    exact ⟨a, u.rest, hrest, ha, by rw [← List.singleton_append, ← List.reverse_singleton, ← hbefore]⟩

theorem reads_mul {P P' : Place α → Place α → Prop} {l l' : Language α}
    (h : ∀ t u, P t u ↔ ∃ w ∈ l, Between w t u) (h' : ∀ t u, P' t u ↔ ∃ w ∈ l', Between w t u)
    (t u : Place α) : (∃ v, P t v ∧ P' v u) ↔ ∃ w ∈ l * l', Between w t u := by
  simp only [h, h', Language.mem_mul]
  constructor
  · rintro ⟨v, ⟨w, hw, htv⟩, w', hw', hvu⟩
    exact ⟨w ++ w', ⟨w, hw, w', hw', rfl⟩, between_append.mpr ⟨v, htv, hvu⟩⟩
  · rintro ⟨_, ⟨w, hw, w', hw', rfl⟩, htu⟩
    obtain ⟨v, htv, hvu⟩ := between_append.mp htu
    exact ⟨v, ⟨w, hw, htv⟩, w', hw', hvu⟩

variable {r : Regex α} {rs rs' : List (Regex α)} {l l' : Language α}

theorem Denotes.append (h : (seqs rs).Denotes l) (h' : (seqs rs').Denotes l') :
    (seqs (rs ++ rs')).Denotes (l * l') := by
  intro t u
  rw [reads_seqs_append, reads_mul h h']

theorem Denotes.singleton (h : r.Denotes l) : (seqs [r]).Denotes l := by
  intro t u
  have hmul := reads_mul h denotes_empty t u
  rwa [mul_one] at hmul

theorem Denotes.times (h : r.Denotes l) (k : ℕ) (t u : Place α) :
    Times r.Reads k t u ↔ ∃ w ∈ l ^ k, Between w t u := by
  induction k generalizing t u with
  | zero => exact denotes_empty t u
  | succ k ih =>
    rw [pow_succ']
    exact reads_mul h ih t u

theorem Denotes.rep (h : r.Denotes l) (k : ℕ) : (rep r k (some k)).Denotes (l ^ k) := by
  intro t u
  rw [← h.times]
  constructor
  · rintro ⟨j, hleast, hmost, hj⟩
    rwa [← Nat.le_antisymm hleast (hmost k rfl)] at hj
  · intro hk
    refine ⟨k, Nat.le_refl k, ?_, hk⟩
    intro m hm
    exact Nat.le_of_eq (Option.some.inj hm)

theorem Denotes.whole (h : r.Denotes l) {s : List α} : r.Whole s ↔ s ∈ l := by
  constructor
  · rintro ⟨before, hr⟩
    obtain ⟨w, hw, hrest, -⟩ := (h _ _).mp hr
    rw [List.append_nil] at hrest
    rwa [show s = w from hrest]
  · intro hs
    exact ⟨s.reverse, (h _ _).mpr ⟨s, hs, (List.append_nil s).symm, (List.append_nil _).symm⟩⟩

theorem mem_letters_pow {p : α → Bool} {k : ℕ} {w : List α} :
    w ∈ letters p ^ k ↔ w.length = k ∧ ∀ a ∈ w, p a = true := by
  induction k generalizing w with
  | zero =>
    rw [pow_zero, Language.mem_one, List.length_eq_zero_iff]
    constructor
    · rintro rfl
      exact ⟨rfl, fun a ha => absurd ha List.not_mem_nil⟩
    · exact And.left
  | succ k ih =>
    rw [pow_succ', Language.mem_mul]
    constructor
    · rintro ⟨_, ⟨a, ha, rfl⟩, w, hw, rfl⟩
      obtain ⟨hlen, hall⟩ := ih.mp hw
      exact ⟨congrArg Nat.succ hlen, List.forall_mem_cons.mpr ⟨ha, hall⟩⟩
    · rintro ⟨hlen, hall⟩
      obtain ⟨a, w, rfl⟩ := List.exists_cons_of_length_eq_add_one hlen
      obtain ⟨ha, hw⟩ := List.forall_mem_cons.mp hall
      exact ⟨[a], ⟨a, ha, rfl⟩, w, ih.mpr ⟨Nat.succ.inj hlen, hw⟩, rfl⟩

theorem denotes_word [DecidableEq α] (w : List α) : (seqs (w.map lit)).Denotes {w} := by
  intro t u
  rw [reads_word]
  constructor
  · intro h
    exact ⟨w, rfl, h⟩
  · rintro ⟨_, rfl, h⟩
    exact h

end Ivy.Regex
