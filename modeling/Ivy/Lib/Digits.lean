import Mathlib.Algebra.Group.Nat.Defs
import Mathlib.Data.List.Basic
import Mathlib.Data.Nat.Find
import Mathlib.Data.Nat.Notation
import Mathlib.Tactic.SplitIfs

/-! Numbers in a base, and intervals cut into spans of numbers that begin with the same digits. -/
namespace Ivy.Digits

def digitAt (b n i : ℕ) : ℕ := n / b ^ i % b

/-- The numbers that begin with the digits of `front`, go on with a digit from `first` to `last`
and end with `rank` more. -/
structure Span where
  front : ℕ
  first : ℕ
  last : ℕ
  rank : ℕ

def Span.lo (b : ℕ) (s : Span) : ℕ := (s.front * b + s.first) * b ^ s.rank

def Span.hi (b : ℕ) (s : Span) : ℕ := (s.front * b + s.last) * b ^ s.rank + (b ^ s.rank - 1)

section
variable {b : ℕ} {m n : ℕ}

theorem digitAt_lt (hb : 0 < b) (n i : ℕ) : digitAt b n i < b := Nat.mod_lt _ hb

theorem div_pow_succ (n i : ℕ) : n / b ^ i = n / b ^ (i + 1) * b + digitAt b n i := by
  have hdiv : n / b ^ (i + 1) = n / b ^ i / b := by
    rw [Nat.pow_succ, Nat.div_div_eq_div_mul]
  rw [hdiv, digitAt, Nat.div_add_mod']

theorem div_of_le {i k : ℕ} (h : k ≤ i) : n / b ^ i = n / b ^ k / b ^ (i - k) := by
  rw [Nat.div_div_eq_div_mul, ← Nat.pow_add, Nat.add_sub_cancel' h]

/-- The digits before a place are those of the quotient. -/
theorem div_eq_of_le {i k : ℕ} (h : m / b ^ k = n / b ^ k) (hi : k ≤ i) :
    m / b ^ i = n / b ^ i := by
  rw [div_of_le hi, h, ← div_of_le hi]

theorem digitAt_eq_of_le {i k : ℕ} (h : m / b ^ k = n / b ^ k) (hi : k ≤ i) :
    digitAt b m i = digitAt b n i := by
  rw [digitAt, digitAt, div_eq_of_le h hi]

theorem digitAt_eq_zero {i k : ℕ} (hb : 0 < b) (h : b ^ k ∣ n) (hi : i < k) :
    digitAt b n i = 0 := by
  obtain ⟨q, rfl⟩ := h
  have hsplit : b ^ k * q = b ^ i * (b * (b ^ (k - i - 1) * q)) := by
    rw [← Nat.mul_assoc, ← Nat.mul_assoc, ← Nat.pow_succ, Nat.mul_assoc, ← Nat.mul_assoc,
      ← Nat.pow_add]
    congr 2
    omega
  rw [digitAt, hsplit, Nat.mul_div_cancel_left _ (Nat.pow_pos hb), Nat.mul_mod_right]

/-- The digits of a number before one that ends with zeros. -/
theorem digitAt_pred {i q : ℕ} (hb : 0 < b) (h : n + 1 = b ^ i * (b * q)) :
    digitAt b n i = b - 1 := by
  have hpos : 0 < b ^ i := Nat.pow_pos hb
  cases q with
  | zero => simp at h
  | succ q =>
    have hmul : b * (q + 1) = b * q + (b - 1) + 1 := by
      rw [Nat.mul_succ]
      omega
    have hn : n = b ^ i * (b * q + (b - 1)) + (b ^ i - 1) := by
      rw [hmul, Nat.mul_succ] at h
      omega
    rw [digitAt, hn, Nat.mul_add_div hpos, Nat.div_eq_of_lt (Nat.sub_lt hpos Nat.one_pos),
      Nat.add_zero, Nat.mul_add_mod, Nat.mod_eq_of_lt (Nat.sub_lt hb Nat.one_pos)]

/-- `r` is the place of the last digit that is not zero. -/
def Lowest (b m r : ℕ) : Prop := b ^ r ∣ m ∧ digitAt b m r ≠ 0

/-- `f` is the first place where the digits differ, or the last of all. -/
def Highest (b m n f : ℕ) : Prop :=
  m / b ^ (f + 1) = n / b ^ (f + 1) ∧ (f = 0 ∨ digitAt b m f ≠ digitAt b n f)

theorem exists_lowest (hb : 1 < b) (hm : 0 < m) : ∃ r, Lowest b m r := by
  induction m using Nat.strongRecOn with
  | ind m ih =>
    by_cases hdvd : b ∣ m
    · obtain ⟨k, rfl⟩ := hdvd
      have hk : 0 < k := Nat.pos_of_mul_pos_left hm
      have hlt : k < b * k := by
        have hle := Nat.mul_le_mul_right k hb
        omega
      obtain ⟨r, hr, hdigit⟩ := ih k hlt hk
      refine ⟨r + 1, ?_, ?_⟩
      · rw [Nat.pow_succ']
        exact Nat.mul_dvd_mul_left b hr
      · rwa [digitAt, Nat.pow_succ', Nat.mul_div_mul_left _ _ (by omega)]
    · refine ⟨0, Nat.one_dvd m, ?_⟩
      rw [digitAt, Nat.pow_zero, Nat.div_one]
      intro hmod
      exact hdvd (Nat.dvd_of_mod_eq_zero hmod)

theorem exists_highest {d : ℕ} (hm : m < b ^ d) (hn : n < b ^ d) :
    ∃ f, Highest b m n f := by
  have hex : ∃ k, m / b ^ k = n / b ^ k :=
    ⟨d, by rw [Nat.div_eq_of_lt hm, Nat.div_eq_of_lt hn]⟩
  obtain ⟨k, hk, hmin⟩ : ∃ k, m / b ^ k = n / b ^ k ∧ ∀ j < k, m / b ^ j ≠ n / b ^ j := by
    classical
    exact ⟨Nat.find hex, Nat.find_spec hex, fun j hj => Nat.find_min hex hj⟩
  cases k with
  | zero => exact ⟨0, div_eq_of_le hk (Nat.zero_le 1), .inl rfl⟩
  | succ f =>
    refine ⟨f, hk, .inr ?_⟩
    intro hdigit
    have heq : m / b ^ f = n / b ^ f := by
      rw [div_pow_succ m, div_pow_succ n, hk, hdigit]
    exact hmin f (Nat.lt_succ_self f) heq

theorem Lowest.le {r k : ℕ} (h : Lowest b m r) (hb : 0 < b) (hk : b ^ k ∣ m) : k ≤ r := by
  by_contra hlt
  exact h.2 (digitAt_eq_zero hb hk (by omega))

theorem Highest.lt {f k : ℕ} (h : Highest b m n f) (hf : f ≠ 0) (hk : m / b ^ k = n / b ^ k) :
    f < k := by
  by_contra hle
  exact h.2.resolve_left hf (digitAt_eq_of_le hk (by omega))

theorem Lowest.rank_lt {r d : ℕ} (h : Lowest b m r) (hb : 1 < b) (hm : 0 < m) (hd : m < b ^ d) :
    r < d :=
  (Nat.pow_lt_pow_iff_right hb).mp (Nat.lt_of_le_of_lt (Nat.le_of_dvd hm h.1) hd)

theorem Highest.rank_lt {f d : ℕ} (h : Highest b m n f) (hd : 0 < d) (hm : m < b ^ d)
    (hn : n < b ^ d) : f < d := by
  by_cases hf : f = 0
  · omega
  · exact h.lt hf (by rw [Nat.div_eq_of_lt hm, Nat.div_eq_of_lt hn])

/-- Above a place where they differ, the larger number has the larger digit. -/
theorem Highest.div_lt {f : ℕ} (h : Highest b m n f) (hf : f ≠ 0) (hle : m ≤ n) :
    m / b ^ f < n / b ^ f := by
  have hdiv : m / b ^ f ≤ n / b ^ f := Nat.div_le_div_right hle
  apply Nat.lt_of_le_of_ne hdiv
  intro heq
  exact h.2.resolve_left hf (digitAt_eq_of_le heq (Nat.le_refl f))

theorem Highest.digit_lt {f : ℕ} (h : Highest b m n f) (hf : f ≠ 0) (hle : m ≤ n) :
    digitAt b m f < digitAt b n f := by
  have hlt := h.div_lt hf hle
  rw [div_pow_succ m, div_pow_succ n, h.1] at hlt
  omega

/-! ### Spans -/

namespace Span
variable (s : Span)

theorem hi_succ (hb : 0 < b) : s.hi b + 1 = (s.front * b + s.last + 1) * b ^ s.rank := by
  have hpos : 0 < b ^ s.rank := Nat.pow_pos hb
  rw [hi, Nat.add_mul _ 1, Nat.one_mul]
  omega

/-- A number of the span has one of its digits at the place before the free ones. -/
theorem mem_iff (hb : 0 < b) {z : ℕ} :
    s.lo b ≤ z ∧ z ≤ s.hi b ↔
      s.front * b + s.first ≤ z / b ^ s.rank ∧ z / b ^ s.rank ≤ s.front * b + s.last := by
  have hpos : 0 < b ^ s.rank := Nat.pow_pos hb
  rw [lo, hi, Nat.le_div_iff_mul_le hpos, Nat.div_le_iff_le_mul_add_pred hpos,
    Nat.mul_comm (b ^ s.rank)]

theorem hi_div (hb : 0 < b) : s.hi b / b ^ s.rank = s.front * b + s.last := by
  have hpos : 0 < b ^ s.rank := Nat.pow_pos hb
  rw [hi, Nat.mul_comm, Nat.mul_add_div hpos, Nat.div_eq_of_lt (by omega), Nat.add_zero]

theorem lo_div (hb : 0 < b) : s.lo b / b ^ s.rank = s.front * b + s.first :=
  Nat.mul_div_cancel _ (Nat.pow_pos hb)

theorem hi_div_succ (hlast : s.last < b) : s.hi b / b ^ (s.rank + 1) = s.front := by
  have hb : 0 < b := by omega
  rw [Nat.pow_succ, ← Nat.div_div_eq_div_mul, s.hi_div hb, Nat.mul_comm, Nat.mul_add_div hb,
    Nat.div_eq_of_lt hlast, Nat.add_zero]

/-- The end of a span has the last digit, and nines after it. -/
theorem digitAt_hi (hlast : s.last < b) {i : ℕ} (hi : i ≤ s.rank) :
    digitAt b (s.hi b) i = if i = s.rank then s.last else b - 1 := by
  have hb : 0 < b := by omega
  split_ifs with heq
  · rw [heq, digitAt, s.hi_div hb, Nat.mul_comm, Nat.mul_add_mod, Nat.mod_eq_of_lt hlast]
  · obtain ⟨j, hj⟩ : ∃ j, s.rank = i + j + 1 := ⟨s.rank - i - 1, by omega⟩
    apply digitAt_pred hb
    show _ = b ^ i * (b * ((s.front * b + s.last + 1) * b ^ j))
    rw [s.hi_succ hb, hj, Nat.pow_succ, Nat.pow_add]
    ac_rfl

end Span

/-- The next span of the numbers from `m` to `n`. If the last digit of `m` that is not zero comes
after the first one that differs from `n`, the span goes up to the nines. Else it goes up to the
digit of `n` at the place where the numbers differ, and without this digit unless it is the last
one. -/
inductive Next (b n m : ℕ) : Span → Prop
  | nines {r f : ℕ} (hr : Lowest b m r) (hf : Highest b m n f) (h : r < f) :
    Next b n m ⟨m / b ^ (r + 1), digitAt b m r, b - 1, r⟩
  | upTo {r f : ℕ} (hr : Lowest b m r) (hf : Highest b m n f) (h : f ≤ r) :
    Next b n m ⟨n / b ^ (f + 1), digitAt b m f, digitAt b n f - if f = 0 then 0 else 1, f⟩

namespace Next
variable {s : Span}

theorem front_eq (h : Next b n m s) : s.front = m / b ^ (s.rank + 1) := by
  cases h with
  | nines hr hf h => rfl
  | upTo hr hf h => exact hf.1.symm

theorem first_eq (h : Next b n m s) : s.first = digitAt b m s.rank := by
  cases h with
  | nines hr hf h => rfl
  | upTo hr hf h => rfl

theorem lo_eq (h : Next b n m s) : s.lo b = m := by
  have hdvd : b ^ s.rank ∣ m := by
    cases h with
    | nines hr hf h => exact hr.1
    | upTo hr hf h => exact Nat.dvd_trans (Nat.pow_dvd_pow b h) hr.1
  rw [Span.lo, h.front_eq, h.first_eq, ← div_pow_succ, Nat.div_mul_cancel hdvd]

theorem last_lt (h : Next b n m s) (hb : 0 < b) : s.last < b := by
  cases h with
  | nines hr hf h => exact Nat.sub_lt hb Nat.one_pos
  | @upTo r f hr hf h =>
    have hdigit := digitAt_lt hb n f
    exact Nat.lt_of_le_of_lt (Nat.sub_le _ _) hdigit

theorem first_le_last (h : Next b n m s) (hb : 0 < b) (hmn : m ≤ n) : s.first ≤ s.last := by
  cases h with
  | @nines r f hr hf h => exact Nat.le_pred_of_lt (digitAt_lt hb m r)
  | @upTo r f hr hf h =>
    show digitAt b m f ≤ digitAt b n f - if f = 0 then 0 else 1
    split_ifs with hzero
    · subst hzero
      have hm := div_pow_succ (b := b) m 0
      have hn := div_pow_succ (b := b) n 0
      rw [hf.1] at hm
      rw [Nat.pow_zero, Nat.div_one] at hm hn
      omega
    · exact Nat.le_pred_of_lt (hf.digit_lt hzero hmn)

theorem front_pos (h : Next b n m s) (hm : 0 < m) : 0 < s.front * b + s.first := by
  have hlo := h.lo_eq
  apply Nat.pos_of_ne_zero
  intro hzero
  rw [Span.lo, hzero, Nat.zero_mul] at hlo
  omega

theorem lo_le_hi (h : Next b n m s) (hb : 0 < b) (hmn : m ≤ n) : m ≤ s.hi b := by
  have hle := h.first_le_last hb hmn
  rw [← h.lo_eq, Span.lo, Span.hi]
  apply Nat.le_add_right_of_le
  exact Nat.mul_le_mul_right _ (Nat.add_le_add_left hle _)

theorem rank_lt {d : ℕ} (h : Next b n m s) (hb : 1 < b) (hm : 0 < m) (hd : m < b ^ d) :
    s.rank < d := by
  cases h with
  | nines hr hf h => exact hr.rank_lt hb hm hd
  | upTo hr hf h => exact Nat.lt_of_le_of_lt h (hr.rank_lt hb hm hd)

/-- What follows a span up to the nines has more zeros at its end. -/
theorem nines_succ (hb : 0 < b) (r : ℕ) :
    Span.hi b ⟨m / b ^ (r + 1), digitAt b m r, b - 1, r⟩ + 1 =
      (m / b ^ (r + 1) + 1) * b ^ (r + 1) := by
  have hnext : m / b ^ (r + 1) * b + (b - 1) + 1 = (m / b ^ (r + 1) + 1) * b := by
    rw [Nat.succ_mul]
    omega
  rw [Span.hi_succ _ hb, hnext, Nat.mul_assoc, ← Nat.pow_succ']

theorem nines_lt {r f : ℕ} (hb : 0 < b) (hf : Highest b m n f) (h : r < f) (hmn : m ≤ n) :
    Span.hi b ⟨m / b ^ (r + 1), digitAt b m r, b - 1, r⟩ < n := by
  have hlt : m / b ^ (r + 1) < n / b ^ (r + 1) := by
    have hdiv : m / b ^ (r + 1) ≤ n / b ^ (r + 1) := Nat.div_le_div_right hmn
    apply Nat.lt_of_le_of_ne hdiv
    intro heq
    have hbelow := hf.lt (by omega) heq
    omega
  have hmul : (m / b ^ (r + 1) + 1) * b ^ (r + 1) ≤ n :=
    Nat.le_trans (Nat.mul_le_mul_right _ hlt) (Nat.div_mul_le_self n _)
  rw [← nines_succ hb r] at hmul
  exact hmul

/-- What follows a span up to the larger number begins with all of its digits up to there. -/
theorem upTo_succ {f : ℕ} (hb : 0 < b) (hf : Highest b m n f) (hzero : f ≠ 0) (hmn : m ≤ n) :
    Span.hi b ⟨n / b ^ (f + 1), digitAt b m f, digitAt b n f - if f = 0 then 0 else 1, f⟩ + 1 =
      n / b ^ f * b ^ f := by
  have hdigit := hf.digit_lt hzero hmn
  have hnext : n / b ^ (f + 1) * b + (digitAt b n f - 1) + 1 = n / b ^ f := by
    rw [div_pow_succ n f]
    omega
  rw [if_neg hzero, Span.hi_succ _ hb, hnext]

theorem upTo_zero (c : ℕ) :
    Span.hi b ⟨n / b ^ (0 + 1), c, digitAt b n 0 - if 0 = 0 then 0 else 1, 0⟩ = n := by
  have hn := div_pow_succ (b := b) n 0
  rw [Nat.pow_zero, Nat.div_one] at hn
  rw [Span.hi, if_pos rfl, Nat.pow_zero, Nat.mul_one, Nat.sub_self, Nat.add_zero]
  exact hn.symm

theorem hi_le {s : Span} (h : Next b n m s) (hb : 0 < b) (hmn : m ≤ n) : s.hi b ≤ n := by
  cases h with
  | @nines r f hr hf h => exact Nat.le_of_lt (nines_lt hb hf h hmn)
  | @upTo r f hr hf h =>
    by_cases hzero : f = 0
    · subst hzero
      exact Nat.le_of_eq (upTo_zero _)
    · have hnext := upTo_succ hb hf hzero hmn
      have hend := Nat.div_mul_le_self n (b ^ f)
      omega

end Next

inductive Chain (b n : ℕ) : ℕ → List Span → Prop
  | last {m : ℕ} {s : Span} (hs : Next b n m s) (h : s.hi b = n) : Chain b n m [s]
  | cons {m : ℕ} {s : Span} {spans : List Span} (hs : Next b n m s) (h : s.hi b < n)
    (rest : Chain b n (s.hi b + 1) spans) : Chain b n m (s :: spans)

/-- Each span of a chain is the next one of a number in between. -/
theorem Chain.exists_next {spans : List Span} (h : Chain b n m spans) (hb : 0 < b) (hmn : m ≤ n) :
    ∀ s ∈ spans, ∃ k, m ≤ k ∧ k ≤ n ∧ Next b n k s := by
  induction h with
  | @last m s hs h =>
    intro s' hs'
    rw [List.mem_singleton.mp hs']
    exact ⟨m, Nat.le_refl m, hmn, hs⟩
  | @cons m s spans hs h rest ih =>
    intro s' hs'
    rcases List.mem_cons.mp hs' with rfl | hs'
    · exact ⟨m, Nat.le_refl m, hmn, hs⟩
    · obtain ⟨k, hk, hkn, hnext⟩ := ih h s' hs'
      have hle := hs.lo_le_hi hb hmn
      exact ⟨k, by omega, hkn, hnext⟩

/-- A span up to the larger number, before a chain from its first digits on. -/
theorem exists_chain_cons {r f : ℕ} (hb : 0 < b) (hmn : m ≤ n) (hr : Lowest b m r)
    (hf : Highest b m n f) (hfr : f ≤ r) (hzero : f ≠ 0)
    (hrest : 0 < n / b ^ f * b ^ f →
      ∃ spans, Chain b n (n / b ^ f * b ^ f) spans ∧ spans.length ≤ f + 1) :
    ∃ spans, Chain b n m spans ∧ spans.length ≤ f + 2 := by
  have hnext := Next.upTo_succ hb hf hzero hmn
  have hend := Nat.div_mul_le_self n (b ^ f)
  obtain ⟨spans, hspans, hlen⟩ := hrest (by omega)
  rw [← hnext] at hspans
  exact ⟨_, .cons (.upTo hr hf hfr) (by omega) hspans, Nat.succ_le_succ hlen⟩

/-- From a number with the first digits of `n` and zeros after them. -/
theorem exists_chain_upTo {k d : ℕ} (hb : 1 < b) (hm : 0 < m) (hmn : m ≤ n) (hn : n < b ^ d)
    (hk : m / b ^ k = n / b ^ k) (hdvd : b ^ k ∣ m) :
    ∃ spans, Chain b n m spans ∧ spans.length ≤ k + 1 := by
  have hpos : 0 < b := by omega
  induction k using Nat.strongRecOn generalizing m with
  | ind k ih =>
    obtain ⟨r, hr⟩ := exists_lowest hb hm
    obtain ⟨f, hf⟩ := exists_highest (Nat.lt_of_le_of_lt hmn hn) hn
    have hkr := hr.le hpos hdvd
    by_cases hzero : f = 0
    · subst hzero
      exact ⟨_, .last (.upTo hr hf (Nat.zero_le r)) (Next.upTo_zero _), Nat.le_add_left 1 k⟩
    · have hfk := hf.lt hzero hk
      have hdiv : (n / b ^ f * b ^ f) / b ^ f = n / b ^ f :=
        Nat.mul_div_cancel _ (Nat.pow_pos hpos)
      obtain ⟨spans, hspans, hlen⟩ := exists_chain_cons hpos hmn hr hf (by omega) hzero fun hpositive =>
        ih f hfk hpositive (Nat.div_mul_le_self n _) hdiv (Nat.dvd_mul_left _ _)
      exact ⟨spans, hspans, by omega⟩

/-- The spans go up to the nines while the zeros get more, and then they go down along the digits
of `n`. -/
theorem exists_chain {k d : ℕ} (hb : 1 < b) (hm : 0 < m) (hmn : m ≤ n) (hn : n < b ^ d)
    (hdvd : b ^ k ∣ m) :
    ∃ spans, Chain b n m spans ∧ spans.length ≤ (d - k) + d + 1 := by
  have hpos : 0 < b := by omega
  induction hj : d - k using Nat.strongRecOn generalizing m k with
  | ind j ih =>
    have hmpow := Nat.lt_of_le_of_lt hmn hn
    obtain ⟨r, hr⟩ := exists_lowest hb hm
    obtain ⟨f, hf⟩ := exists_highest hmpow hn
    have hkr := hr.le hpos hdvd
    by_cases hzero : f = 0
    · subst hzero
      exact ⟨_, .last (.upTo hr hf (Nat.zero_le r)) (Next.upTo_zero _), Nat.le_add_left 1 _⟩
    · have hrd := hr.rank_lt hb hm hmpow
      have hfd := hf.rank_lt (by omega) hmpow hn
      rcases Nat.lt_or_ge r f with hrf | hfr
      · have hnext := Next.nines_succ (m := m) hpos r
        have hlt := Next.nines_lt hpos hf hrf hmn
        have hzeros : b ^ (r + 1) ∣ (m / b ^ (r + 1) + 1) * b ^ (r + 1) := Nat.dvd_mul_left _ _
        obtain ⟨spans, hspans, hlen⟩ := ih (d - (r + 1)) (by omega) (by omega) (by omega) hzeros rfl
        rw [← hnext] at hspans
        exact ⟨_, .cons (.nines hr hf hrf) hlt hspans,
          Nat.le_trans (Nat.succ_le_succ hlen) (by omega)⟩
      · have hdiv : (n / b ^ f * b ^ f) / b ^ f = n / b ^ f :=
          Nat.mul_div_cancel _ (Nat.pow_pos hpos)
        obtain ⟨spans, hspans, hlen⟩ := exists_chain_cons hpos hmn hr hf hfr hzero fun hpositive =>
          exists_chain_upTo hb hpositive (Nat.div_mul_le_self n _) hn hdiv (Nat.dvd_mul_left _ _)
        exact ⟨spans, hspans, by omega⟩

end
end Ivy.Digits
