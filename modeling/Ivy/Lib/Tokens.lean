import Mathlib.Data.List.Basic
import Mathlib.Data.List.TakeWhile
import Mathlib.Data.Nat.Notation

/-! Lists read token by token. -/
namespace Ivy.Tokens

variable {α : Type*} (sep : α → Bool)

/-- The separators before a token are skipped, and the one that ends it is taken away. -/
def token (l : List α) : Option (List α × List α) :=
  match l.dropWhile sep with
  | [] => none
  | a :: l => some (a :: l.takeWhile (!sep ·), (l.dropWhile (!sep ·)).tail)

def tokensAux : ℕ → List α → List (List α)
  | 0, _ => []
  | fuel + 1, l =>
    match token sep l with
    | none => []
    | some r => r.1 :: tokensAux fuel r.2

/-- All tokens; each of them takes an element at least. -/
def tokens (l : List α) : List (List α) := tokensAux sep l.length l

def Blank (l : List α) : Prop := ∀ a ∈ l, sep a = true

def IsToken (l : List α) : Prop := l ≠ [] ∧ ∀ a ∈ l, sep a = false

instance (l : List α) : Decidable (Blank sep l) := List.decidableBAll _ l

instance [DecidableEq α] (l : List α) : Decidable (IsToken sep l) :=
  haveI : Decidable (∀ a ∈ l, sep a = false) := List.decidableBAll _ l
  inferInstanceAs (Decidable (_ ∧ _))

inductive Reads (l t rest : List α) : Prop
  | last (skip : List α) (hskip : Blank sep skip) (ht : IsToken sep t) (hl : l = skip ++ t)
      (hrest : rest = [])
  | next (skip : List α) (stop : α) (hskip : Blank sep skip) (ht : IsToken sep t) (hstop : sep stop = true)
      (hl : l = skip ++ (t ++ stop :: rest))

section
variable {sep} {l t rest : List α}

theorem token_blank (h : Blank sep l) : token sep l = none := by
  have hnil : l.dropWhile sep = [] := List.dropWhile_eq_nil_iff.mpr h
  rw [token, hnil]

theorem token_reads (h : Reads sep l t rest) : token sep l = some (t, rest) := by
  cases h with
  | last skip hskip ht hl hrest =>
    obtain ⟨a, t', rfl⟩ := List.exists_cons_of_ne_nil ht.1
    have ha := ht.2 a List.mem_cons_self
    have hdrop : l.dropWhile sep = a :: t' := by
      rw [hl, List.dropWhile_append_of_pos hskip, List.dropWhile_cons_of_neg (by simp [ha])]
    have hall : ∀ b ∈ t', (!sep b) = true := fun b hb => by simp [ht.2 b (List.mem_cons_of_mem a hb)]
    simp only [token, hdrop, hrest]
    rw [List.takeWhile_eq_self_iff.mpr hall, List.dropWhile_eq_nil_iff.mpr hall, List.tail_nil]
  | next skip stop hskip ht hstop hl =>
    obtain ⟨a, t', rfl⟩ := List.exists_cons_of_ne_nil ht.1
    have ha := ht.2 a List.mem_cons_self
    have hdrop : l.dropWhile sep = a :: (t' ++ stop :: rest) := by
      rw [hl, List.dropWhile_append_of_pos hskip, List.cons_append, List.dropWhile_cons_of_neg (by simp [ha])]
    have hall : ∀ b ∈ t', (!sep b) = true := fun b hb => by simp [ht.2 b (List.mem_cons_of_mem a hb)]
    simp only [token, hdrop]
    rw [List.takeWhile_append_of_pos hall, List.takeWhile_cons_of_neg (by simp [hstop]), List.append_nil,
      List.dropWhile_append_of_pos hall, List.dropWhile_cons_of_neg (by simp [hstop]), List.tail_cons]

variable (sep) in
/-- A list has no token, or one that is read first. -/
theorem blank_or_reads (l : List α) : Blank sep l ∨ ∃ t rest, Reads sep l t rest := by
  have hl := (List.takeWhile_append_dropWhile (p := sep) (l := l)).symm
  have hskip : Blank sep (l.takeWhile sep) := fun a ha => List.mem_takeWhile_imp ha
  cases hdrop : l.dropWhile sep with
  | nil => exact .inl (List.dropWhile_eq_nil_iff.mp hdrop)
  | cons a m =>
    right
    rw [hdrop] at hl
    have ha : sep a = false := by
      have hhead := List.head_dropWhile_not sep (l := l) (by simp [hdrop])
      simpa [hdrop] using hhead
    have hm := (List.takeWhile_append_dropWhile (p := fun b => !sep b) (l := m)).symm
    have ht : IsToken sep (a :: m.takeWhile (!sep ·)) := by
      refine ⟨by simp, fun b hb => ?_⟩
      rcases List.mem_cons.mp hb with rfl | hb
      · exact ha
      · simpa using List.mem_takeWhile_imp hb
    cases hrest : m.dropWhile (!sep ·) with
    | nil =>
      refine ⟨_, _, .last _ hskip ht ?_ rfl⟩
      rw [hrest, List.append_nil] at hm
      rw [← hm]
      exact hl
    | cons stop rest =>
      have hstop : sep stop = true := by
        have hhead := List.head_dropWhile_not (!sep ·) (l := m) (by simp [hrest])
        simpa [hrest] using hhead
      refine ⟨_, rest, .next _ stop hskip ht hstop ?_⟩
      rw [hrest] at hm
      rw [List.cons_append, ← hm]
      exact hl

theorem Reads.isToken (h : Reads sep l t rest) : IsToken sep t := by
  cases h with
  | last _ _ ht => exact ht
  | next _ _ _ ht => exact ht

theorem isToken_of_token (h : token sep l = some (t, rest)) : IsToken sep t := by
  rcases blank_or_reads sep l with hblank | ⟨t', rest', hreads⟩
  · rw [token_blank hblank] at h
    exact absurd h (by simp)
  · rw [token_reads hreads] at h
    obtain ⟨rfl, -⟩ := Prod.mk.inj (Option.some.inj h)
    exact hreads.isToken

theorem Reads.length_lt (h : Reads sep l t rest) : rest.length < l.length := by
  cases h with
  | last skip hskip ht hl hrest =>
    have hpos := List.length_pos_iff.mpr ht.1
    rw [hrest, hl, List.length_append]
    simp only [List.length_nil]
    omega
  | next skip stop hskip ht hstop hl =>
    rw [hl]
    simp only [List.length_append, List.length_cons]
    omega

theorem tokensAux_of_le {fuel : ℕ} (h : l.length ≤ fuel) : tokensAux sep fuel l = tokens sep l := by
  suffices hall : ∀ fuel fuel' l, l.length ≤ fuel → l.length ≤ fuel' →
      tokensAux sep fuel l = tokensAux sep fuel' l from hall fuel l.length l h (Nat.le_refl _)
  intro fuel
  induction fuel with
  | zero =>
    intro fuel' l hl _
    obtain rfl : l = [] := List.length_eq_zero_iff.mp (Nat.le_zero.mp hl)
    cases fuel' <;> rfl
  | succ fuel ih =>
    intro fuel' l hl hl'
    cases fuel' with
    | zero =>
      obtain rfl : l = [] := List.length_eq_zero_iff.mp (Nat.le_zero.mp hl')
      rfl
    | succ fuel' =>
      rcases blank_or_reads sep l with hblank | ⟨t, rest, hreads⟩
      · simp [tokensAux, token_blank hblank]
      · have hlt := hreads.length_lt
        simp only [tokensAux, token_reads hreads]
        rw [ih fuel' rest (by omega) (by omega)]

theorem tokens_blank (h : Blank sep l) : tokens sep l = [] := by
  rw [← tokensAux_of_le (Nat.le_succ l.length), tokensAux, token_blank h]

theorem tokens_reads (h : Reads sep l t rest) : tokens sep l = t :: tokens sep rest := by
  have hlt := h.length_lt
  rw [← tokensAux_of_le (Nat.le_succ l.length), tokensAux, token_reads h]
  simp only
  rw [tokensAux_of_le hlt.le]

theorem tokens_skip {skip : List α} (h : Blank sep skip) (l : List α) :
    tokens sep (skip ++ l) = tokens sep l := by
  have hblank {m : List α} (hm : Blank sep m) : Blank sep (skip ++ m) :=
    fun a ha => (List.mem_append.mp ha).elim (h a) (hm a)
  rcases blank_or_reads sep l with hl | ⟨t, rest, hreads⟩
  · rw [tokens_blank hl, tokens_blank (hblank hl)]
  · rw [tokens_reads hreads]
    cases hreads with
    | last skip' hskip ht hl hrest =>
      exact tokens_reads (.last (skip ++ skip') (hblank hskip) ht (by rw [hl, List.append_assoc]) hrest)
    | next skip' stop hskip ht hstop hl =>
      exact tokens_reads (.next (skip ++ skip') stop (hblank hskip) ht hstop (by rw [hl, List.append_assoc]))

theorem tokens_append_sep {x : α} (hx : sep x = true) (l l' : List α) :
    tokens sep (l ++ x :: l') = tokens sep l ++ tokens sep l' := by
  induction hn : l.length using Nat.strong_induction_on generalizing l with
  | _ n ih =>
    rcases blank_or_reads sep l with hl | ⟨t, rest, hreads⟩
    · have hblank : Blank sep (l ++ [x]) := by
        intro a ha
        rcases List.mem_append.mp ha with ha | ha
        · exact hl a ha
        · exact List.mem_singleton.mp ha ▸ hx
      rw [List.append_cons, tokens_skip hblank, tokens_blank hl, List.nil_append]
    · rw [tokens_reads hreads, List.cons_append]
      cases hreads with
      | last skip hskip ht hl hrest =>
        subst hrest
        rw [tokens_blank (fun a ha => absurd ha List.not_mem_nil), List.nil_append]
        exact tokens_reads (.next skip x hskip ht hx (by rw [hl, List.append_assoc]))
      | next skip stop hskip ht hstop hl =>
        have hlt : rest.length < n := by
          rw [← hn, hl]
          simp only [List.length_append, List.length_cons]
          omega
        rw [← ih rest.length hlt rest rfl]
        exact tokens_reads (.next skip stop hskip ht hstop (by rw [hl]; simp))

theorem tokens_flatMap {x : α} (hx : sep x = true) (ls : List (List α)) :
    tokens sep (ls.flatMap (· ++ [x])) = ls.flatMap (tokens sep) := by
  induction ls with
  | nil => rfl
  | cons l ls ih =>
    rw [List.flatMap_cons, List.flatMap_cons, List.append_assoc, List.singleton_append]
    rw [tokens_append_sep hx, ih]

theorem tokens_self (h : IsToken sep l) : tokens sep l = [l] := by
  have hreads : Reads sep l l [] := .last [] (fun a ha => absurd ha List.not_mem_nil) h rfl rfl
  rw [tokens_reads hreads]
  rfl

theorem isToken_of_mem (h : t ∈ tokens sep l) : IsToken sep t := by
  induction hn : l.length using Nat.strong_induction_on generalizing l with
  | _ n ih =>
    rcases blank_or_reads sep l with hl | ⟨t', rest, hreads⟩
    · rw [tokens_blank hl] at h
      exact absurd h List.not_mem_nil
    · rw [tokens_reads hreads] at h
      rcases List.mem_cons.mp h with rfl | h
      · exact hreads.isToken
      · exact ih rest.length (hn ▸ hreads.length_lt) h rfl

end
end Ivy.Tokens
