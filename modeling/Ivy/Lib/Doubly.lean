import Mathlib.Data.List.Nodup

/-! Doubly linked lists in a heap. A list is a segment of links that lead forward and back; its
nodes are linked and unlinked by assignments to the links of their neighbours. -/
namespace Ivy.Doubly

structure Links (α : Type*) where
  prev : Option α
  next : Option α

variable {α : Type*}

/-- The links lead from `p`, which comes after `b`, through the nodes to `q`, which comes after `l`. -/
def Seg (link : α → Option (Links α)) : Option α → Option α → List α → Option α → Option α → Prop
  | b, p, [], l, q => b = l ∧ p = q
  | b, p, a :: as, l, q => p = some a ∧ ∃ next, link a = some ⟨b, next⟩ ∧ Seg link (some a) next as l q

variable {link link' : α → Option (Links α)} {b p l q : Option α} {as bs : List α} {a : α}

namespace Seg

theorem append : Seg link b p (as ++ bs) l q ↔ ∃ m r, Seg link b p as m r ∧ Seg link m r bs l q := by
  induction as generalizing b p with
  | nil => simp [Seg]
  | cons a as ih =>
    simp only [List.cons_append, Seg, ih]
    constructor
    · intro h
      obtain ⟨hp, next, ha, m, r, has, hbs⟩ := h
      exact ⟨m, r, ⟨hp, next, ha, has⟩, hbs⟩
    · intro h
      obtain ⟨m, r, ⟨hp, next, ha, has⟩, hbs⟩ := h
      exact ⟨hp, next, ha, m, r, has, hbs⟩

theorem congr (h : Seg link b p as l q) (hsame : ∀ a ∈ as, link' a = link a) : Seg link' b p as l q := by
  induction as generalizing b p with
  | nil => exact h
  | cons a as ih =>
    obtain ⟨hp, next, ha, has⟩ := h
    have hrest := ih has fun c hc => hsame c (List.mem_cons_of_mem a hc)
    exact ⟨hp, next, (hsame a List.mem_cons_self).trans ha, hrest⟩

theorem first_eq (h : Seg link b p as l q) : p = as.head?.or q := by
  cases as with
  | nil => exact h.2
  | cons a as => exact h.1

theorem last_eq (h : Seg link b p as l q) : l = as.getLast?.or b := by
  induction as generalizing b p with
  | nil => exact h.1.symm
  | cons a as ih =>
    obtain ⟨-, next, -, has⟩ := h
    rw [ih has, List.getLast?_cons]
    cases as.getLast? <;> simp

theorem last_mem (h : Seg link b p (a :: as) l q) : ∃ c ∈ a :: as, l = some c := by
  have hl := h.last_eq
  rw [List.getLast?_eq_some_getLast (List.cons_ne_nil a as), Option.some_or] at hl
  exact ⟨_, List.getLast_mem _, hl⟩

theorem link_eq (h : Seg link b p as l q) (ha : a ∈ as) : ∃ links, link a = some links := by
  obtain ⟨pre, post, rfl⟩ := List.append_of_mem ha
  obtain ⟨m, r, -, -, next, hlink, -⟩ := append.mp h
  exact ⟨_, hlink⟩

theorem neighbours (h : Seg link none p (as ++ a :: bs) l none) : link a = some ⟨as.getLast?, bs.head?⟩ := by
  obtain ⟨m, r, has, -, next, ha, hbs⟩ := append.mp h
  have hprev := has.last_eq
  have hnext := hbs.first_eq
  rw [Option.or_none] at hprev hnext
  rw [ha, hprev, hnext]

theorem unique (h : Seg link b p as l none) {l' : Option α} (h' : Seg link b p bs l' none) : as = bs := by
  induction as generalizing b p bs with
  | nil =>
    cases bs with
    | nil => rfl
    | cons c bs => exact absurd (h.2.symm.trans h'.1) (Option.some_ne_none c).symm
  | cons a as ih =>
    cases bs with
    | nil => exact absurd (h'.2.symm.trans h.1) (Option.some_ne_none a).symm
    | cons c bs =>
      obtain ⟨hp, next, ha, has⟩ := h
      obtain ⟨hp', next', hc, hbs⟩ := h'
      obtain rfl : a = c := Option.some.inj (hp.symm.trans hp')
      have hnext : next = next' := by simpa using ha.symm.trans hc
      subst hnext
      rw [ih has hbs]

end Seg

variable [DecidableEq α]

/-- An assignment to the links of a node, where there is one. -/
def assign (link : α → Option (Links α)) (c : Option α) (f : Links α → Links α) (a : α) : Option (Links α) :=
  if c = some a then (link a).map f else link a

def setNext (link : α → Option (Links α)) (c next : Option α) : α → Option (Links α) :=
  assign link c fun links => { links with next := next }

def setPrev (link : α → Option (Links α)) (c prev : Option α) : α → Option (Links α) :=
  assign link c fun links => { links with prev := prev }

theorem assign_of_ne {c : Option α} {f : Links α → Links α} (h : c ≠ some a) : assign link c f a = link a :=
  if_neg h

@[simp] theorem assign_none {f : Links α → Links α} : assign link none f a = link a :=
  assign_of_ne (Option.some_ne_none a).symm

theorem assign_self {f : Links α → Links α} : assign link (some a) f a = (link a).map f := if_pos rfl

theorem Seg.setNext (h : Seg link b p as l q) (hnodup : as.Nodup) (q' : Option α) :
    Seg (setNext link l q') b (as.head?.or q') as l q' := by
  induction as generalizing b p with
  | nil => exact ⟨h.1, rfl⟩
  | cons a as ih =>
    obtain ⟨hp, next, ha, has⟩ := h
    obtain ⟨hnot, has'⟩ := List.nodup_cons.mp hnodup
    refine ⟨rfl, as.head?.or q', ?_, ih has has'⟩
    cases as with
    | nil =>
      have hl : l = some a := has.1.symm
      rw [hl, Doubly.setNext, assign_self, ha]
      rfl
    | cons c as =>
      obtain ⟨d, hd, hl⟩ := has.last_mem
      have hne : l ≠ some a := by
        rw [hl]
        exact fun hda => hnot (Option.some.inj hda ▸ hd)
      rw [Doubly.setNext, assign_of_ne hne, ha, has.1]
      rfl

theorem Seg.setPrev (h : Seg link b p as l none) (hnodup : as.Nodup) (b' : Option α) :
    Seg (setPrev link p b') b' p as (as.getLast?.or b') none := by
  cases as with
  | nil => exact ⟨rfl, h.2⟩
  | cons a as =>
    obtain ⟨hp, next, ha, has⟩ := h
    obtain ⟨hnot, -⟩ := List.nodup_cons.mp hnodup
    have hlast : l = (a :: as).getLast?.or b' := by
      rw [has.last_eq, List.getLast?_cons]
      cases as.getLast? <;> simp
    refine ⟨hp, next, ?_, hlast ▸ has.congr fun c hc => ?_⟩
    · rw [hp, Doubly.setPrev, assign_self, ha]
      rfl
    · have hne : p ≠ some c := by
        rw [hp]
        exact fun hac => hnot (Option.some.inj hac ▸ hc)
      exact assign_of_ne hne

theorem Seg.push (h : Seg link none p as l none) (hnodup : as.Nodup) (ha : link' a = some ⟨none, p⟩)
    (hrest : ∀ c ∈ as, link' c = Doubly.setPrev link p (some a) c) :
    Seg link' none (some a) (a :: as) (as.getLast?.or (some a)) none :=
  ⟨rfl, p, ha, (h.setPrev hnodup (some a)).congr hrest⟩

theorem Seg.concat (h : Seg link none p as l none) (hnodup : as.Nodup) (ha : link' a = some ⟨l, none⟩)
    (hrest : ∀ c ∈ as, link' c = Doubly.setNext link l (some a) c) :
    Seg link' none (as.head?.or (some a)) (as ++ [a]) (some a) none := by
  have has := (h.setNext hnodup (some a)).congr hrest
  exact append.mpr ⟨l, some a, has, rfl, none, ha, rfl, rfl⟩

theorem Seg.unlink (h : Seg link none p (as ++ a :: bs) l none) (hnodup : (as ++ a :: bs).Nodup)
    {prev next : Option α} (ha : link a = some ⟨prev, next⟩)
    (hrest : ∀ c ∈ as ++ bs, link' c = Doubly.setPrev (Doubly.setNext link prev next) next prev c) :
    Seg link' none (as.head?.or next) (as ++ bs) (bs.getLast?.or prev) none := by
  obtain ⟨m, r, has, -, next', ha', hbs⟩ := append.mp h
  obtain ⟨rfl, rfl⟩ : m = prev ∧ next' = next := by simpa using ha'.symm.trans ha
  obtain ⟨hdisjoint, has'⟩ : (∀ c ∈ as, c ∉ a :: bs) ∧ as.Nodup := by
    have hparts := List.nodup_append.mp hnodup
    exact ⟨fun c hc hmem => hparts.2.2 c hc c hmem rfl, hparts.1⟩
  have hbs' : bs.Nodup := ((List.nodup_append.mp hnodup).2.1).of_cons
  -- the assignments to the two neighbours do not meet the other part of the list
  have hfirst : ∀ c ∈ as, link' c = Doubly.setNext link m next' c := by
    intro c hc
    have hne : next' ≠ some c := by
      intro hnext
      rw [hnext] at hbs
      cases bs with
      | nil => exact Option.some_ne_none c hbs.2
      | cons d bs =>
        have hcd := Option.some.inj hbs.1
        exact hdisjoint c hc (by simp [hcd])
    rw [hrest c (by simp [hc]), Doubly.setPrev, assign_of_ne hne]
  have hsecond : ∀ c ∈ bs, link' c = Doubly.setPrev link next' m c := by
    intro c hc
    have hne : m ≠ some c := by
      intro hm
      rw [hm] at has
      cases as with
      | nil => exact Option.some_ne_none c has.1.symm
      | cons d as =>
        obtain ⟨e, he, hce⟩ := has.last_mem
        exact hdisjoint e he (by simp [← Option.some.inj hce, hc])
    rw [hrest c (by simp [hc])]
    unfold Doubly.setPrev Doubly.assign
    rw [Doubly.setNext, assign_of_ne hne]
  exact append.mpr ⟨m, next', (has.setNext has' next').congr hfirst, (hbs.setPrev hbs' m).congr hsecond⟩

end Ivy.Doubly
