import Mathlib.Data.List.Induction

/-! Growing lists: what stands before an element, and the last element of a kind. -/
namespace Ivy.History

variable {α : Type*} {l extra : List α} {x y : α}

/-- Each element stands behind elements that allow it. -/
def Placed (P : List α → α → Prop) (l : List α) : Prop :=
  ∀ before x after, l = before ++ x :: after → P before x

/-- The element is in the list, and no element after it is of the kind. -/
def Last (Q : α → Prop) (x : α) (l : List α) : Prop :=
  ∃ before after, l = before ++ x :: after ∧ ∀ y ∈ after, ¬ Q y

theorem concat_eq_iff {before after : List α} : l ++ [y] = before ++ x :: after ↔
    (before = l ∧ x = y ∧ after = []) ∨ ∃ rest, after = rest ++ [y] ∧ l = before ++ x :: rest := by
  constructor
  · intro h
    induction after using List.reverseRecOn with
    | nil =>
      obtain ⟨hbefore, hx⟩ := List.append_inj' h rfl
      exact .inl ⟨hbefore.symm, (List.singleton_inj.mp hx).symm, rfl⟩
    | append_singleton rest z =>
      rw [← List.cons_append, ← List.append_assoc] at h
      obtain ⟨hl, hz⟩ := List.append_inj' h rfl
      exact .inr ⟨rest, by rw [List.singleton_inj.mp hz], hl⟩
  · rintro (⟨rfl, rfl, rfl⟩ | ⟨rest, rfl, rfl⟩)
    · rfl
    · rw [List.append_assoc, List.cons_append]

section
variable {P : List α → α → Prop}

theorem placed_nil : Placed P [] := by
  intro before x after h
  simp at h

theorem placed_concat : Placed P (l ++ [y]) ↔ Placed P l ∧ P l y := by
  constructor
  · intro h
    refine ⟨fun before x after heq => ?_, h l y [] rfl⟩
    exact h before x (after ++ [y]) (concat_eq_iff.mpr (.inr ⟨after, rfl, heq⟩))
  · rintro ⟨hl, hy⟩ before x after heq
    rcases concat_eq_iff.mp heq with ⟨rfl, rfl, -⟩ | ⟨rest, -, hrest⟩
    · exact hy
    · exact hl before x rest hrest

theorem Placed.append (h : Placed P l) (hextra : ∀ y ∈ extra, ∀ before, P before y) :
    Placed P (l ++ extra) := by
  induction extra using List.reverseRecOn with
  | nil => rwa [List.append_nil]
  | append_singleton extra y ih =>
    rw [← List.append_assoc, placed_concat]
    refine ⟨ih fun z hz => hextra z (List.mem_append_left _ hz), hextra y (by simp) _⟩

end

/-- Where a property of the growing list is lost, there is an element with which it is. -/
theorem exists_lost {P : List α → Prop} (h : P l) (hlost : ¬ P (l ++ extra)) :
    ∃ pre x post, extra = pre ++ x :: post ∧ P (l ++ pre) ∧ ¬ P (l ++ pre ++ [x]) := by
  induction extra using List.reverseRecOn with
  | nil => exact absurd (by rwa [List.append_nil]) hlost
  | append_singleton extra y ih =>
    by_cases hkept : P (l ++ extra)
    · exact ⟨extra, y, [], rfl, hkept, by rwa [List.append_assoc]⟩
    · obtain ⟨pre, x, post, rfl, hpre, hx⟩ := ih hkept
      exact ⟨pre, x, post ++ [y], by simp, hpre, hx⟩

section
variable {Q : α → Prop}

theorem last_concat : Last Q x (l ++ [y]) ↔ y = x ∨ (Last Q x l ∧ ¬ Q y) := by
  constructor
  · rintro ⟨before, after, heq, hafter⟩
    rcases concat_eq_iff.mp heq with ⟨-, rfl, -⟩ | ⟨rest, rfl, hrest⟩
    · exact .inl rfl
    · refine .inr ⟨⟨before, rest, hrest, fun z hz => hafter z (List.mem_append_left _ hz)⟩, ?_⟩
      exact hafter y (by simp)
  · rintro (rfl | ⟨⟨before, after, rfl, hafter⟩, hy⟩)
    · exact ⟨l, [], rfl, by simp⟩
    · refine ⟨before, after ++ [y], by simp, fun z hz => ?_⟩
      rcases List.mem_append.mp hz with hz | hz
      · exact hafter z hz
      · rwa [List.mem_singleton.mp hz]

theorem Last.of_append (h : Last Q x (l ++ extra)) (hextra : x ∉ extra) : Last Q x l := by
  induction extra using List.reverseRecOn with
  | nil => rwa [List.append_nil] at h
  | append_singleton extra y ih =>
    rw [← List.append_assoc] at h
    rw [List.mem_append, not_or] at hextra
    rcases last_concat.mp h with rfl | ⟨h, -⟩
    · exact absurd (List.mem_singleton_self y) hextra.2
    · exact ih h hextra.1

theorem Last.mem (h : Last Q x l) : x ∈ l := by
  obtain ⟨before, after, rfl, -⟩ := h
  simp

end
end Ivy.History
