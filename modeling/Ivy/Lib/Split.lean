import Mathlib.Data.List.Basic
import Mathlib.Tactic.SplitIfs

/-! Lists cut at a separator. -/
namespace Ivy.Split

variable {α β : Type*}

theorem intercalate_concat (x : List α) (parts : List (List α)) (last : List α) (a : α) :
    x.intercalate (parts ++ [last ++ [a]]) = x.intercalate (parts ++ [last]) ++ [a] := by
  induction parts with
  | nil => simp
  | cons part parts ih =>
    rw [List.cons_append, List.cons_append, List.intercalate_cons_of_ne_nil (by simp),
      List.intercalate_cons_of_ne_nil (by simp), ih]
    simp

section
variable [BEq α] {x a : α} {xs part last : List α} {parts : List (List α)}

theorem mem_of_mem_splitOn (h : part ∈ xs.splitOn x) (ha : a ∈ part) : a ∈ xs := by
  induction xs generalizing part with
  | nil =>
    rw [List.splitOn_nil, List.mem_singleton] at h
    exact absurd (h ▸ ha) List.not_mem_nil
  | cons b xs ih =>
    obtain ⟨head, parts, hparts⟩ := List.exists_cons_of_ne_nil (List.splitOn_ne_nil x xs)
    rw [List.splitOn_cons_eq_if_modifyHead] at h
    rw [hparts] at h ih
    split_ifs at h with hb
    · rcases List.mem_cons.mp h with h | h
      · exact absurd (h ▸ ha) List.not_mem_nil
      · exact List.mem_cons_of_mem _ (ih h ha)
    · rw [List.modifyHead_cons] at h
      rcases List.mem_cons.mp h with h | h
      · rw [h] at ha
        rcases List.mem_cons.mp ha with ha | ha
        · exact ha ▸ List.mem_cons_self
        · exact List.mem_cons_of_mem _ (ih List.mem_cons_self ha)
      · exact List.mem_cons_of_mem _ (ih (List.mem_cons_of_mem _ h) ha)

variable [LawfulBEq α]

theorem not_mem_of_mem_splitOn (h : part ∈ xs.splitOn x) : x ∉ part := by
  induction xs generalizing part with
  | nil =>
    rw [List.splitOn_nil, List.mem_singleton] at h
    simp [h]
  | cons b xs ih =>
    obtain ⟨head, parts, hparts⟩ := List.exists_cons_of_ne_nil (List.splitOn_ne_nil x xs)
    rw [List.splitOn_cons_eq_if_modifyHead] at h
    rw [hparts] at h ih
    split_ifs at h with hb
    · rcases List.mem_cons.mp h with h | h
      · simp [h]
      · exact ih h
    · rw [List.modifyHead_cons] at h
      rcases List.mem_cons.mp h with h | h
      · have hhead : x ∉ head := ih List.mem_cons_self
        have hne : x ≠ b := fun hxb => hb (by simp [hxb])
        rw [h, List.mem_cons, not_or]
        exact ⟨hne, hhead⟩
      · exact ih (List.mem_cons_of_mem _ h)

theorem eq_or_exists_mem_splitOn (h : a ∈ xs) : a = x ∨ ∃ part ∈ xs.splitOn x, a ∈ part := by
  induction xs with
  | nil => exact absurd h List.not_mem_nil
  | cons b xs ih =>
    obtain ⟨head, parts, hparts⟩ := List.exists_cons_of_ne_nil (List.splitOn_ne_nil x xs)
    rw [List.splitOn_cons_eq_if_modifyHead]
    rw [hparts] at ih ⊢
    split_ifs with hb
    · rcases List.mem_cons.mp h with h | h
      · exact .inl (h.trans (eq_of_beq hb))
      · refine (ih h).imp id fun hpart => ?_
        simpa using hpart
    · rw [List.modifyHead_cons]
      rcases List.mem_cons.mp h with h | h
      · exact .inr ⟨b :: head, List.mem_cons_self, by simp [h]⟩
      · refine (ih h).imp id fun hpart => ?_
        simp only [List.mem_cons, exists_eq_or_imp] at hpart ⊢
        exact hpart.imp .inr id

theorem length_splitOn (x : α) (xs : List α) : (xs.splitOn x).length = xs.count x + 1 := by
  induction xs with
  | nil => simp
  | cons a xs ih =>
    rw [List.splitOn_cons_eq_if_modifyHead]
    split_ifs with ha
    · rw [List.length_cons, ih, eq_of_beq ha, List.count_cons_self]
    · rw [List.length_modifyHead, ih, List.count_cons_of_ne (by simpa using ha)]

theorem splitOn_concat_self (x : α) (xs : List α) :
    (xs ++ [x]).splitOn x = xs.splitOn x ++ [[]] := by
  rw [List.splitOn_append_cons_self, List.splitOn_nil]

theorem splitOn_concat_of_ne (ha : a ≠ x) (h : xs.splitOn x = parts ++ [last]) :
    (xs ++ [a]).splitOn x = parts ++ [last ++ [a]] := by
  have hmem (part : List α) (hpart : part ∈ parts ++ [last ++ [a]]) : x ∉ part := by
    rcases List.mem_append.mp hpart with hpart | hpart
    · have hold : part ∈ xs.splitOn x := h ▸ List.mem_append_left _ hpart
      exact not_mem_of_mem_splitOn hold
    · have hmem : last ∈ xs.splitOn x := by simp [h]
      have hlast : x ∉ last := not_mem_of_mem_splitOn hmem
      rw [List.mem_singleton.mp hpart]
      simp [hlast, ha.symm]
  calc (xs ++ [a]).splitOn x = ([x].intercalate (parts ++ [last]) ++ [a]).splitOn x := by
        rw [← h, List.intercalate_splitOn]
    _ = ([x].intercalate (parts ++ [last ++ [a]])).splitOn x := by rw [intercalate_concat]
    _ = parts ++ [last ++ [a]] := List.splitOn_intercalate x hmem (by simp)

end

/-- Two selections, of which the second takes what the first takes. -/
theorem filterMap_eq_iff {f g : α → Option β} {l : List α} (h : ∀ a ∈ l, g a = none → f a = none) :
    l.filterMap f = l.filterMap g ↔ ∀ a ∈ l, f a = g a := by
  have hle (l : List α) (h : ∀ a ∈ l, g a = none → f a = none) :
      (l.filterMap f).length ≤ (l.filterMap g).length := by
    induction l with
    | nil => simp
    | cons a l ih =>
      have htail := ih fun b hb => h b (List.mem_cons_of_mem _ hb)
      have hhead := h a List.mem_cons_self
      grind
  refine ⟨fun heq => ?_, List.filterMap_congr⟩
  induction l with
  | nil => simp
  | cons a l ih =>
    have htail := ih fun b hb => h b (List.mem_cons_of_mem _ hb)
    have hlength := hle l fun b hb => h b (List.mem_cons_of_mem _ hb)
    have hhead := h a List.mem_cons_self
    grind

end Ivy.Split
