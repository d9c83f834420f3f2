import Mathlib.Data.List.Nodup

/-! Lists of records with distinct keys, updated in place. -/
namespace Ivy.Keyed

variable {α κ : Type*} {key : α → κ}

/-- The update may drop a record, but never renames one. -/
def KeepsKey (key : α → κ) (f : α → Option α) : Prop := ∀ a, ∀ b ∈ f a, key b = key a

theorem map_filterMap_sublist {f : α → Option α} (hf : KeepsKey key f) (l : List α) :
    ((l.filterMap f).map key).Sublist (l.map key) := by
  induction l with
  | nil => exact .slnil
  | cons a l ih =>
    cases hfa : f a with
    | none => simpa [List.filterMap_cons, hfa] using ih.cons (key a)
    | some b =>
      have hkey := hf a b hfa
      simpa [List.filterMap_cons, hfa, hkey] using ih

theorem nodup_filterMap {f : α → Option α} (hf : KeepsKey key f) {l : List α} (h : (l.map key).Nodup) :
    ((l.filterMap f).map key).Nodup := h.sublist (map_filterMap_sublist hf l)

theorem nodup_map {f : α → α} (hf : ∀ a, key (f a) = key a) {l : List α} (h : (l.map key).Nodup) :
    ((l.map f).map key).Nodup := by
  have hcomp : key ∘ f = key := funext hf
  rw [List.map_map, hcomp]
  exact h

variable [DecidableEq κ] {l : List α} {k : κ}

def find (key : α → κ) (l : List α) (k : κ) : Option α := l.find? (key · = k)

theorem find_eq_none : find key l k = none ↔ k ∉ l.map key := by simp [find]

theorem find_eq_some (h : (l.map key).Nodup) {a : α} : find key l k = some a ↔ a ∈ l ∧ key a = k := by
  induction l with
  | nil => simp [find]
  | cons b l ih =>
    obtain ⟨hb, hl⟩ := List.nodup_cons.mp (List.map_cons ▸ h)
    have ih := ih hl
    simp only [find, List.find?_cons, List.mem_cons] at ih ⊢
    by_cases hk : key b = k
    · simp only [hk, decide_true]
      constructor
      · rintro ⟨⟩
        exact ⟨.inl rfl, hk⟩
      · rintro ⟨rfl | ha, hak⟩
        · rfl
        · exact absurd (List.mem_map.mpr ⟨a, ha, hak.trans hk.symm⟩) hb
    · simp only [hk, decide_false, ih]
      constructor
      · exact fun h => ⟨.inr h.1, h.2⟩
      · rintro ⟨rfl | ha, hak⟩
        · exact absurd hak hk
        · exact ⟨ha, hak⟩

theorem find_mem {a : α} (h : find key l k = some a) : a ∈ l := List.mem_of_find?_eq_some h

theorem find_key {a : α} (h : find key l k = some a) : key a = k := by
  simpa using List.find?_some h

theorem find_cons (a : α) : find key (a :: l) k = if key a = k then some a else find key l k := by
  simp only [find, List.find?_cons]
  split_ifs with h <;> simp [h]

theorem find_concat (a : α) (h : find key l (key a) = none) :
    find key (l ++ [a]) k = if key a = k then some a else find key l k := by
  rw [find, List.find?_append]
  split_ifs with hk
  · subst hk
    have h : l.find? (key · = key a) = none := h
    simp [h]
  · simp [find, hk]

theorem find_filterMap {f : α → Option α} (hf : KeepsKey key f) (h : (l.map key).Nodup) :
    find key (l.filterMap f) k = (find key l k).bind f := by
  refine Option.ext fun b => ?_
  rw [find_eq_some (nodup_filterMap hf h), Option.bind_eq_some_iff, List.mem_filterMap]
  constructor
  · rintro ⟨⟨a, ha, hfa⟩, hb⟩
    exact ⟨a, (find_eq_some h).mpr ⟨ha, (hf a b hfa).symm.trans hb⟩, hfa⟩
  · rintro ⟨a, ha, hfa⟩
    exact ⟨⟨a, find_mem ha, hfa⟩, (hf a b hfa).trans (find_key ha)⟩

theorem find_filter (p : α → Bool) (h : (l.map key).Nodup) :
    find key (l.filter p) k = (find key l k).filter p := by
  have hf : KeepsKey key (Option.guard p) := by
    intro a b hb
    rw [(Option.guard_eq_some_iff.mp hb).1]
  rw [← List.filterMap_eq_filter, find_filterMap hf h]
  cases find key l k with
  | none => rfl
  | some a => rw [Option.bind_some, Option.guard, Option.filter_some]

theorem find_map {f : α → α} (hf : ∀ a, key (f a) = key a) :
    find key (l.map f) k = (find key l k).map f := by
  have hcomp : (fun a => decide (key a = k)) ∘ f = fun a => decide (key a = k) := by
    funext a
    rw [Function.comp_apply, hf]
  rw [find, List.find?_map, hcomp, find]

end Ivy.Keyed
