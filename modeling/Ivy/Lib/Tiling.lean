import Mathlib.Data.Int.Notation
import Mathlib.Data.List.Basic
import Mathlib.Data.List.Chain

/-! Lists of intervals that follow each other without a gap. -/
namespace Ivy

section
variable {ι : Type*} (lo hi : ι → ℤ)

/-- The intervals of the list, one after the other, hold the numbers from `a` to `z`. -/
def Tiles : ℤ → ℤ → List ι → Prop
  | a, z, [] => a = z + 1
  | a, z, x :: xs => lo x = a ∧ a ≤ hi x ∧ Tiles (hi x + 1) z xs

end

namespace Tiles
variable {ι : Type*} {lo hi : ι → ℤ} {a z : ℤ} {xs : List ι}

theorem le (h : Tiles lo hi a z xs) : a ≤ z + 1 := by
  induction xs generalizing a with
  | nil => exact Int.le_of_eq h
  | cons x xs ih =>
    have hrest := ih h.2.2
    have hx := h.2.1
    omega

theorem le_lo (h : Tiles lo hi a z xs) : ∀ x ∈ xs, a ≤ lo x := by
  induction xs generalizing a with
  | nil => exact fun x hx => absurd hx List.not_mem_nil
  | cons y xs ih =>
    obtain ⟨hlo, hle, hrest⟩ := h
    intro x hx
    rcases List.mem_cons.mp hx with rfl | hx
    · omega
    · have hafter := ih hrest x hx
      omega

theorem isChain (h : Tiles lo hi a z xs) : xs.IsChain fun x y => lo y = hi x + 1 := by
  induction xs generalizing a with
  | nil => exact .nil
  | cons x xs ih =>
    have hrest := ih h.2.2
    cases xs with
    | nil => exact .singleton x
    | cons y ys => exact List.isChain_cons_cons.mpr ⟨h.2.2.1, hrest⟩

theorem pairwise (h : Tiles lo hi a z xs) : xs.Pairwise fun x y => hi x < lo y := by
  induction xs generalizing a with
  | nil => exact .nil
  | cons x xs ih =>
    refine .cons ?_ (ih h.2.2)
    intro y hy
    have hafter := le_lo h.2.2 y hy
    omega

theorem mem_iff (h : Tiles lo hi a z xs) {k : ℤ} :
    a ≤ k ∧ k ≤ z ↔ ∃ x ∈ xs, lo x ≤ k ∧ k ≤ hi x := by
  induction xs generalizing a with
  | nil =>
    have ha : a = z + 1 := h
    constructor
    · rintro ⟨hak, hkz⟩
      omega
    · rintro ⟨x, hx, -⟩
      exact absurd hx List.not_mem_nil
  | cons x xs ih =>
    obtain ⟨hlo, hle, hrest⟩ := h
    have hend := hrest.le
    rw [List.exists_mem_cons_iff, ← ih hrest]
    omega

end Tiles
end Ivy
