import Ivy.Lib.Block

/-! Circular runs of cells in a block of `cap` cells. -/
namespace Ivy.Ring
open Block

variable {α : Type*}

/-- The offset `n` cells after `r`, wrapping once at `cap`. -/
def advance (cap r n : ℕ) : ℕ := if r + n < cap then r + n else r + n - cap

/-- The `n` cells from offset `r` on, continuing at the start of the block. -/
def read (m : ℕ → α) (cap r n : ℕ) : List α :=
  if r + n ≤ cap then Block.read m r n
  else Block.read m r (cap - r) ++ Block.read m 0 (r + n - cap)

@[simp] theorem length_read {cap r n : ℕ} (m : ℕ → α) (hr : r ≤ cap) :
    (read m cap r n).length = n := by
  unfold read
  split_ifs
  · exact Block.length_read m r n
  · rw [List.length_append, Block.length_read, Block.length_read]
    omega

/-- A run that ends before the block does is a plain run. -/
theorem read_of_le (m : ℕ → α) {cap r n : ℕ} (h : r + n ≤ cap) :
    read m cap r n = Block.read m r n := if_pos h

@[simp] theorem read_zero {cap r : ℕ} (m : ℕ → α) (hr : r ≤ cap) : read m cap r 0 = [] :=
  read_of_le m hr

theorem read_add {cap r : ℕ} (m : ℕ → α) (a b : ℕ) (hr : r < cap) (h : a + b ≤ cap) :
    read m cap r (a + b) = read m cap r a ++ read m cap (advance cap r a) b := by
  unfold read advance
  by_cases hall : r + (a + b) ≤ cap
  · rw [if_pos hall, if_pos (by omega), Block.read_add]
    by_cases ha : r + a < cap
    · rw [if_pos ha, if_pos (by omega)]
    · obtain rfl : b = 0 := by omega
      rw [if_neg ha, if_pos (by omega)]
      rfl
  by_cases ha : r + a < cap
  · have hsplit : cap - r = a + (cap - (r + a)) := by omega
    rw [if_neg hall, if_pos (by omega), if_pos ha, if_neg (by omega), hsplit, Block.read_add,
      List.append_assoc, Nat.add_assoc]
  · rw [if_neg hall, if_neg ha, if_pos (by omega : r + a - cap + b ≤ cap)]
    have hsplit : r + (a + b) - cap = (r + a - cap) + b := by omega
    by_cases hle : r + a ≤ cap
    · have he : a = cap - r := by omega
      rw [if_pos hle, hsplit, Block.read_add, ← he, show r + a - cap = 0 by omega]
      rfl
    · rw [if_neg hle, hsplit, Block.read_add, List.append_assoc, Nat.zero_add]

/-- Storing beyond the run, inside the free part of the block, leaves the run alone. -/
theorem read_write_free {cap r n : ℕ} (m : ℕ → α) (xs : List α) (hn : n + xs.length ≤ cap) :
    read (write m (advance cap r n) xs) cap r n = read m cap r n := by
  unfold read advance at *
  by_cases hw : r + n < cap
  · rw [if_pos hw, if_pos hw.le, if_pos hw.le, read_write_disjoint m _ xs (Or.inl le_rfl)]
  rw [if_neg hw]
  by_cases hrun : r + n ≤ cap
  · rw [if_pos hrun, if_pos hrun, read_write_disjoint m _ xs (Or.inr (by omega))]
  · rw [if_neg hrun, if_neg hrun, read_write_disjoint m _ xs (Or.inr (by omega)),
      read_write_disjoint m _ xs (Or.inl (by omega))]

/-- Storing a run that fits before the block's end right after the present run appends it. -/
theorem read_push {cap r n : ℕ} (m : ℕ → α) (xs : List α) (hr : r < cap)
    (hn : n + xs.length ≤ cap) (hfit : advance cap r n + xs.length ≤ cap) :
    read (write m (advance cap r n) xs) cap r (n + xs.length) = read m cap r n ++ xs := by
  rw [read_add _ _ _ hr hn, read_write_free m xs hn, read_of_le _ hfit, read_write_self]

end Ivy.Ring
