import Mathlib.Data.List.Basic
import Mathlib.Tactic.SplitIfs

/-! Streams cut into terminated lines. -/
namespace Ivy

variable {α : Type*}

/-- The stream is the lines, each followed by `sep`, then an unterminated tail. -/
structure Lines (sep : α) (stream : List α) (lines : List (List α)) (tail : List α) : Prop where
  eq : stream = (lines.map (· ++ [sep])).flatten ++ tail
  lines : ∀ l ∈ lines, sep ∉ l
  tail : sep ∉ tail

namespace Lines
variable {sep : α} {stream stream' tail tail' : List α} {ls ls' : List (List α)}

theorem of_not_mem (h : sep ∉ tail) : Lines sep tail [] tail := ⟨rfl, by simp, h⟩

theorem cons {l : List α} (hl : sep ∉ l) (h : Lines sep stream ls tail) :
    Lines sep (l ++ sep :: stream) (l :: ls) tail where
  eq := by simp [h.eq]
  lines := by simpa using ⟨hl, h.lines⟩
  tail := h.tail

/-- Reading on from the tail continues the cut. -/
theorem append (h : Lines sep stream ls tail) (h' : Lines sep (tail ++ stream') ls' tail') :
    Lines sep (stream ++ stream') (ls ++ ls') tail' where
  eq := by
    rw [h.eq, List.append_assoc, h'.eq]
    simp
  lines l hl := (List.mem_append.mp hl).elim (h.lines l) (h'.lines l)
  tail := h'.tail

theorem cut_unique {l l' xs ys : List α} (hl : sep ∉ l) (hl' : sep ∉ l')
    (h : l ++ sep :: xs = l' ++ sep :: ys) : l = l' ∧ xs = ys := by
  induction l generalizing l' with
  | nil =>
    cases l' with
    | nil => exact ⟨rfl, (List.cons.inj h).2⟩
    | cons b l' => exact absurd ((List.cons.inj h).1 ▸ List.mem_cons_self) hl'
  | cons a l ih =>
    cases l' with
    | nil => exact absurd ((List.cons.inj h).1 ▸ List.mem_cons_self) hl
    | cons b l' =>
      obtain ⟨hab, htl⟩ := List.cons.inj h
      obtain ⟨rfl, rfl⟩ := ih (mt (List.mem_cons_of_mem a) hl) (mt (List.mem_cons_of_mem b) hl') htl
      exact ⟨by rw [hab], rfl⟩

/-- The cut is determined by the stream. -/
theorem unique (h : Lines sep stream ls tail) (h' : Lines sep stream ls' tail') :
    ls = ls' ∧ tail = tail' := by
  induction ls generalizing stream ls' with
  | nil =>
    have heq : stream = tail := h.eq
    cases ls' with
    | nil => exact ⟨rfl, heq.symm.trans h'.eq⟩
    | cons l' ls' =>
      have hm : sep ∈ stream := by simp [h'.eq]
      exact absurd (heq ▸ hm) h.tail
  | cons l ls ih =>
    cases ls' with
    | nil =>
      have heq : stream = tail' := h'.eq
      have hm : sep ∈ stream := by simp [h.eq]
      exact absurd (heq ▸ hm) h'.tail
    | cons l' ls' =>
      have heq := h.eq.symm.trans h'.eq
      simp only [List.map_cons, List.flatten_cons, List.append_assoc, List.singleton_append] at heq
      obtain ⟨rfl, hrest⟩ := cut_unique (h.lines l (by simp)) (h'.lines l' (by simp)) heq
      obtain ⟨rfl, rfl⟩ := ih
        ⟨rfl, fun m hm => h.lines m (by simp [hm]), h.tail⟩
        ⟨hrest, fun m hm => h'.lines m (by simp [hm]), h'.tail⟩
      exact ⟨rfl, rfl⟩

theorem count [DecidableEq α] (h : Lines sep stream ls tail) : stream.count sep = ls.length := by
  have htail : tail.count sep = 0 := List.count_eq_zero.mpr h.tail
  rw [h.eq, List.count_append, htail, Nat.add_zero]
  have hlines := h.lines
  clear h
  induction ls with
  | nil => rfl
  | cons l ls ih =>
    have hl : l.count sep = 0 := List.count_eq_zero.mpr (hlines l (by simp))
    have hls := ih fun m hm => hlines m (by simp [hm])
    simp only [List.map_cons, List.flatten_cons, List.count_append, hl, hls, List.length_cons]
    simp [Nat.add_comm]

end Lines

/-- The cut of a stream. -/
def cut [DecidableEq α] (sep : α) : List α → List (List α) × List α
  | [] => ([], [])
  | a :: stream =>
    let r := cut sep stream
    if a = sep then ([] :: r.1, r.2)
    else
      match r.1 with
      | [] => ([], a :: r.2)
      | l :: ls => ((a :: l) :: ls, r.2)

theorem lines_cut [DecidableEq α] (sep : α) (stream : List α) :
    Lines sep stream (cut sep stream).1 (cut sep stream).2 := by
  induction stream with
  | nil => exact .of_not_mem (by simp)
  | cons a stream ih =>
    unfold cut
    generalize cut sep stream = r at ih
    obtain ⟨ls, tail⟩ := r
    dsimp only at ih ⊢
    split_ifs with ha
    · have hnil : sep ∉ ([] : List α) := by simp
      exact ha ▸ ih.cons hnil
    · have hne : sep ≠ a := Ne.symm ha
      cases ls with
      | nil =>
        have htail : sep ∉ a :: tail := by simpa [hne] using ih.tail
        exact ⟨congrArg (a :: ·) ih.eq, by simp, htail⟩
      | cons l ls =>
        refine ⟨congrArg (a :: ·) ih.eq, fun m hm => ?_, ih.tail⟩
        rcases List.mem_cons.mp hm with rfl | hm
        · simpa [hne] using ih.lines l List.mem_cons_self
        · exact ih.lines m (List.mem_cons_of_mem _ hm)

theorem Lines.isPrefix [DecidableEq α] {sep : α} {stream rest tail tail' : List α} {ls ls' : List (List α)}
    (h : Lines sep stream ls tail) (h' : Lines sep (stream ++ rest) ls' tail') : ls <+: ls' := by
  obtain ⟨rfl, -⟩ := h'.unique (h.append (lines_cut sep (tail ++ rest)))
  exact List.prefix_append _ _

end Ivy
