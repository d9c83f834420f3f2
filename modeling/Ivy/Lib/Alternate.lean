import Mathlib.Tactic.SplitIfs
import Mathlib.Data.Nat.Notation

/-! Lists in which two values take turns. -/
namespace Ivy

variable {α : Type*}

def Alternates : α → α → List α → Prop
  | _, _, [] => True
  | a, b, x :: xs => x = a ∧ Alternates b a xs

/-- Whose turn it is after the list. -/
def turn (a b : α) (xs : List α) : α := if xs.length % 2 = 0 then a else b

theorem turn_cons (a b x : α) (xs : List α) : turn a b (x :: xs) = turn b a xs := by
  unfold turn
  rw [List.length_cons]
  split_ifs
  · omega
  · rfl
  · rfl
  · omega

theorem alternates_concat {a b x : α} {xs : List α} :
    Alternates a b (xs ++ [x]) ↔ Alternates a b xs ∧ x = turn a b xs := by
  induction xs generalizing a b with
  | nil => simp [Alternates, turn]
  | cons y xs ih => rw [List.cons_append, Alternates, ih, Alternates, turn_cons, and_assoc]

theorem turn_concat {a b x : α} {xs : List α} : turn a b (xs ++ [x]) = turn b a xs := by
  unfold turn
  rw [List.length_append, List.length_singleton]
  split_ifs
  · omega
  · rfl
  · rfl
  · omega

theorem turn_swap {a b : α} (hne : a ≠ b) (xs : List α) :
    (turn a b xs = a → turn b a xs = b) ∧ (turn a b xs = b → turn b a xs = a) := by
  unfold turn
  split_ifs
  · exact ⟨fun _ => rfl, fun h => absurd h hne⟩
  · exact ⟨fun h => absurd h.symm hne, fun _ => rfl⟩

end Ivy
