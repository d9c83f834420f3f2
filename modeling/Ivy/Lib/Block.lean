import Mathlib.Data.List.GetD
import Mathlib.Data.List.Range
import Mathlib.Tactic.SplitIfs

/-! Flat memory blocks. A block is the map from an offset to the cell held there;
the functions here read and write runs of cells, as `memcpy` and `memmove` do. -/
namespace Ivy.Block

variable {α : Type*}

def read (m : ℕ → α) (off n : ℕ) : List α := (List.range' off n).map m

def write (m : ℕ → α) (off : ℕ) (xs : List α) : ℕ → α := fun i =>
  if off ≤ i then xs.getD (i - off) (m i) else m i

@[simp] theorem length_read (m : ℕ → α) (off n : ℕ) : (read m off n).length = n := by
  simp [read]

@[simp] theorem read_zero (m : ℕ → α) (off : ℕ) : read m off 0 = [] := rfl

theorem read_succ (m : ℕ → α) (off n : ℕ) : read m off (n + 1) = m off :: read m (off + 1) n := by
  simp [read, List.range'_succ]

theorem read_add (m : ℕ → α) (off a b : ℕ) :
    read m off (a + b) = read m off a ++ read m (off + a) b := by
  rw [read, read, read, ← List.map_append, List.range'_append_1]

theorem read_congr {m m' : ℕ → α} {off n : ℕ}
    (h : ∀ i, off ≤ i → i < off + n → m i = m' i) : read m off n = read m' off n := by
  refine List.map_congr_left fun i hi => ?_
  rw [List.mem_range'_1] at hi
  exact h i hi.1 hi.2

@[simp] theorem getElem_read (m : ℕ → α) (off n i : ℕ) (h : i < (read m off n).length) :
    (read m off n)[i] = m (off + i) := by
  simp [read]

theorem write_of_lt (m : ℕ → α) {off i : ℕ} (xs : List α) (h : i < off) :
    write m off xs i = m i := if_neg (by omega)

theorem write_of_ge (m : ℕ → α) {off i : ℕ} (xs : List α) (h : off + xs.length ≤ i) :
    write m off xs i = m i := by
  rw [write, if_pos (by omega), List.getD_eq_default _ _ (by omega)]

theorem write_of_mem (m : ℕ → α) {off i : ℕ} (xs : List α) (hi : i < xs.length) :
    write m off xs (off + i) = xs[i] := by
  rw [write, if_pos (by omega), Nat.add_sub_cancel_left, List.getD_eq_getElem _ _ hi]

@[simp] theorem read_write_self (m : ℕ → α) (off : ℕ) (xs : List α) :
    read (write m off xs) off xs.length = xs := by
  refine List.ext_getElem (length_read _ _ _) fun i h _ => ?_
  rw [getElem_read, write_of_mem]

theorem read_write_length (m : ℕ → α) (off : ℕ) {xs : List α} {n : ℕ} (h : xs.length = n) :
    read (write m off xs) off n = xs := h ▸ read_write_self m off xs

theorem read_write_disjoint (m : ℕ → α) (off : ℕ) (xs : List α) {a n : ℕ}
    (h : a + n ≤ off ∨ off + xs.length ≤ a) : read (write m off xs) a n = read m a n := by
  refine read_congr fun i hlo hhi => ?_
  rcases h with h | h
  · exact write_of_lt m xs (by omega)
  · exact write_of_ge m xs (by omega)

end Ivy.Block
