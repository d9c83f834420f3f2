import Ivy.Interval.Spans

/-! `nextMax`, if its arrays hold the digits that its copy loops set out to write. -/
namespace Ivy.Interval
open Outcome Digits

/-- `nextMax` after its copy loops. -/
def nextMaxFrom (fuel : ℕ) (revMin revMax : Vector UInt8 32) (max : Text) : Outcome NextMax := do
  let nbDigitsMax := UInt64.ofNat max.length
  let revMin ← store revMin nbDigitsMax.toNat 0
  let revMax ← store revMax nbDigitsMax.toNat 0
  let rankRev ← whileLoop (fun rankRev => do
    return (← load revMin rankRev) = 48 ∧ rankRev < nbDigitsMax.toNat)
    (fun rankRev => .returns (rankRev + 1)) fuel 0
  let rankForw ← whileLoop (fun rankForw => do
    return (← load revMin rankForw) = (← load revMax rankForw) ∧ 0 < rankForw)
    (fun rankForw => .returns (rankForw - 1)) fuel (nbDigitsMax - 1).toNat
  let nines (n : ℕ) (revMin : Vector UInt8 32) : Outcome (Vector UInt8 32) :=
    (List.range n).foldlM (fun revMin i => store revMin i 57) revMin
  let (rank, revMin) ←
    if rankForw ≤ rankRev then do
      let b ← load revMax rankForw
      let revMin ← store revMin rankForw (b - if rankForw = 0 then 0 else 1)
      pure (rankForw, ← nines rankForw revMin)
    else do
      pure (rankRev, ← nines (rankRev + 1) revMin)
  let nextMaxi := atoi (reverse (← string revMin))
  let currMax := atoi max
  return ⟨if nextMaxi > currMax then currMax else nextMaxi, rank + 1⟩

theorem nextMax_eq (fuel : ℕ) (revMin revMax : Vector UInt8 32) (min max : Text) :
    nextMax fuel revMin revMax min max = (do
      let nbDigitsMin := UInt64.ofNat min.length
      let nbDigitsMax := UInt64.ofNat max.length
      let revMin ← forDown (fun i revMin => do
        store revMin (nbDigitsMin - i - 1).toNat (← charAt min i.toNat))
        fuel (nbDigitsMin - 1) revMin
      let revMin ← forDown (fun i revMin =>
        store revMin (nbDigitsMax - i).toNat 48) fuel (nbDigitsMax - nbDigitsMin) revMin
      let revMax ← forDown (fun i revMax => do
        store revMax (nbDigitsMax - i - 1).toNat (← charAt max i.toNat))
        fuel (nbDigitsMax - 1) revMax
      nextMaxFrom fuel revMin revMax max) := rfl

/-- The digits of `s` from the last one, zeros up to the length `nb` and a terminator. The rest of
the array is what it was. -/
def revDigits (uninit : Vector UInt8 32) (nb : ℕ) (s : Text) : Vector UInt8 32 :=
  .ofFn fun i => (s.reverse ++ List.replicate (nb - s.length) 48 ++ [0]).getD i uninit[i]

/-- `nextMax` with copy loops that write what they should. -/
def nextMaxIntended (fuel : ℕ) (revMin revMax : Vector UInt8 32) (min max : Text) :
    Outcome NextMax :=
  nextMaxFrom fuel (revDigits revMin max.length min) (revDigits revMax max.length max) max

/-! ### The arrays -/

def lowDigits (d n : ℕ) : Text := (List.range d).map fun i => digit (digitAt 10 n i)

@[simp] theorem length_lowDigits (d n : ℕ) : (lowDigits d n).length = d := by
  rw [lowDigits, List.length_map, List.length_range]

theorem getElem_lowDigits {d n i : ℕ} (h : i < (lowDigits d n).length) :
    (lowDigits d n)[i] = digit (digitAt 10 n i) := by
  simp only [lowDigits, List.getElem_map, List.getElem_range]

theorem lowDigits_succ (d n : ℕ) :
    lowDigits (d + 1) n = digit (n % 10) :: lowDigits d (n / 10) := by
  have hfirst : digitAt 10 n 0 = n % 10 := by
    rw [digitAt, Nat.pow_zero, Nat.div_one]
  have hrest : ∀ i, digitAt 10 n (i + 1) = digitAt 10 (n / 10) i := by
    intro i
    rw [digitAt, digitAt, Nat.div_div_eq_div_mul, ← Nat.pow_succ']
  rw [lowDigits, List.range_succ_eq_map, List.map_cons, List.map_map, hfirst]
  congr 1
  exact List.map_congr_left fun i _ => congrArg digit (hrest i)

theorem lowDigits_zero (d : ℕ) : lowDigits d 0 = List.replicate d 48 := by
  induction d with
  | zero => rfl
  | succ d ih =>
    rw [lowDigits_succ, Nat.zero_div, ih, List.replicate_succ]
    rfl

/-- A numeral backwards, with zeros up to the length. -/
theorem reverse_decimalNat {d n : ℕ} (hd : 0 < d) (hn : n < 10 ^ d) :
    (decimalNat n).reverse ++ List.replicate (d - (decimalNat n).length) 48 = lowDigits d n := by
  induction d generalizing n with
  | zero => exact absurd hd (Nat.lt_irrefl 0)
  | succ d ih =>
    rw [lowDigits_succ]
    rcases Nat.lt_or_ge n 10 with hlt | hge
    · rw [decimalNat_of_lt hlt, Nat.mod_eq_of_lt hlt, Nat.div_eq_of_lt hlt, lowDigits_zero,
        List.reverse_singleton, List.length_singleton, Nat.add_sub_cancel, List.singleton_append]
    · have hdiv : n / 10 < 10 ^ d := by
        rw [Nat.pow_succ] at hn
        omega
      have hd' : 0 < d := by
        apply Nat.pos_of_ne_zero
        rintro rfl
        omega
      rw [decimalNat_of_le hge, List.reverse_append, List.reverse_singleton, List.length_append,
        List.length_singleton, Nat.add_sub_add_right, List.singleton_append, List.cons_append,
        ih hd' hdiv]

theorem digitsValue_lowDigits {d n : ℕ} (hn : n < 10 ^ d) :
    digitsValue (lowDigits d n).reverse = n := by
  induction d generalizing n with
  | zero =>
    rw [Nat.pow_zero] at hn
    rw [Nat.lt_one_iff.mp hn]
    rfl
  | succ d ih =>
    have hdiv : n / 10 < 10 ^ d := by
      rw [Nat.pow_succ] at hn
      omega
    rw [lowDigits_succ, List.reverse_cons, digitsValue_concat, ih hdiv,
      digit_toNat (Nat.mod_lt n (by omega))]
    omega

theorem lowDigits_digits (d n : ℕ) : ∀ b ∈ lowDigits d n, IsDigit b := by
  intro b hb
  obtain ⟨i, -, rfl⟩ := List.mem_map.mp hb
  exact isDigit_digit (digitAt_lt (by omega) n i)

/-- `atoi` of digits alone. -/
theorem atoi_digits {ds : Text} (hne : ds ≠ []) (hds : ∀ b ∈ ds, IsDigit b)
    (hvalue : digitsValue ds < 2 ^ 31) : atoi ds = digitsValue ds := by
  obtain ⟨b, bs, rfl⟩ := List.exists_cons_of_ne_nil hne
  have hb := hds b List.mem_cons_self
  have hspace : (b :: bs).dropWhile isSpace = b :: bs :=
    List.dropWhile_cons_of_neg (by simp [not_isSpace_of_isDigit hb])
  have htake : (b :: bs).takeWhile (IsDigit ·) = b :: bs := by
    rw [List.takeWhile_eq_self_iff]
    simpa using hds
  have hminus : b ≠ minus := by
    rintro rfl
    exact absurd hb (by decide)
  have hplus : b ≠ plus := by
    rintro rfl
    exact absurd hb (by decide)
  rw [atoi, scanInt, hspace]
  simp only [if_neg hminus, if_neg hplus, scanDigits, htake, if_neg (List.cons_ne_nil b bs),
    Option.map_some, Option.elim_some]
  exact toInt_of_mem (by omega) (by omega)

theorem atoi_lowDigits {d n : ℕ} (hd : 0 < d) (hn : n < 10 ^ d) (hint : n < 2 ^ 31) :
    atoi (reverse (lowDigits d n)) = n := by
  have hvalue := digitsValue_lowDigits hn
  have hne : (lowDigits d n).reverse ≠ [] := by
    apply List.ne_nil_of_length_pos
    rwa [List.length_reverse, length_lowDigits]
  have hdigits : ∀ b ∈ (lowDigits d n).reverse, IsDigit b := fun b hb =>
    lowDigits_digits d n b (List.mem_reverse.mp hb)
  rw [reverse, atoi_digits hne hdigits (by omega), hvalue]

theorem atoi_decimalNat {n : ℕ} (hint : n < 2 ^ 31) : atoi (decimalNat n) = n := by
  have hvalue := digitsValue_decimalNat n
  rw [atoi_digits (decimalNat_ne_nil n) (decimalNat_digits n) (by omega), hvalue]

def Holds (buf : Vector UInt8 32) (l : Text) : Prop := ∃ rest, buf.toList = l ++ 0 :: rest

namespace Holds
variable {buf : Vector UInt8 32} {l : Text}

theorem length_lt (h : Holds buf l) : l.length < 32 := by
  obtain ⟨rest, hrest⟩ := h
  have hlen := congrArg List.length hrest
  rw [Vector.length_toList, List.length_append, List.length_cons] at hlen
  omega

theorem load (h : Holds buf l) {i : ℕ} (hi : i < l.length) : load buf i = .returns l[i] := by
  have hlt := h.length_lt
  obtain ⟨rest, hrest⟩ := h
  have hget : buf.toList[i]? = some l[i] := by
    rw [hrest, List.getElem?_append_left hi, List.getElem?_eq_getElem hi]
  rw [Vector.getElem?_toList, Vector.getElem?_eq_getElem (by omega), Option.some.injEq] at hget
  rw [Interval.load, dif_pos (by omega), hget]

theorem store (h : Holds buf l) {i : ℕ} (hi : i < l.length) (b : UInt8) :
    ∃ buf', store buf i b = .returns buf' ∧ Holds buf' (l.set i b) := by
  have hlt := h.length_lt
  obtain ⟨rest, hrest⟩ := h
  refine ⟨_, dif_pos (by omega), rest, ?_⟩
  rw [Vector.toList_set, hrest, List.set_append_left _ _ hi]

theorem terminate (h : Holds buf l) :
    ∃ buf', Interval.store buf l.length 0 = .returns buf' ∧ Holds buf' l := by
  have hlt := h.length_lt
  obtain ⟨rest, hrest⟩ := h
  refine ⟨_, dif_pos hlt, rest, ?_⟩
  rw [Vector.toList_set, hrest, List.set_append_right _ _ (Nat.le_refl _), Nat.sub_self,
    List.set_cons_zero]

theorem string (h : Holds buf l) (h0 : 0 ∉ l) : string buf = .returns l := by
  obtain ⟨rest, hrest⟩ := h
  have hall : ∀ b ∈ l, decide (b ≠ 0) = true := by
    intro b hb
    have hne : b ≠ 0 := fun h => h0 (h ▸ hb)
    simpa using hne
  rw [Interval.string, hrest, if_pos (by simp), List.takeWhile_append_of_pos hall,
    List.takeWhile_cons_of_neg (by simp), List.append_nil]

theorem nines (h : Holds buf l) {n : ℕ} (hn : n ≤ l.length) :
    ∃ buf', (List.range n).foldlM (fun buf i => Interval.store buf i 57) buf = .returns buf' ∧
      Holds buf' (List.replicate n 57 ++ l.drop n) := by
  induction n with
  | zero => exact ⟨buf, rfl, h⟩
  | succ n ih =>
    obtain ⟨buf', hfold, hbuf'⟩ := ih (by omega)
    have hlt : n < (List.replicate n 57 ++ l.drop n).length := by
      rw [List.length_append, List.length_replicate, List.length_drop]
      omega
    obtain ⟨buf'', hstore, hbuf''⟩ := hbuf'.store hlt 57
    have hset : (List.replicate n 57 ++ l.drop n).set n 57 =
        List.replicate (n + 1) 57 ++ l.drop (n + 1) := by
      rw [List.set_append_right _ _ (by rw [List.length_replicate]), List.length_replicate,
        Nat.sub_self, List.drop_eq_getElem_cons hn, List.set_cons_zero, List.replicate_succ',
        List.append_assoc, List.singleton_append]
    refine ⟨buf'', ?_, hset ▸ hbuf''⟩
    rw [List.range_succ, List.foldlM_append, hfold, returns_bind, List.foldlM_cons, hstore]
    rfl

theorem load_digit {d n : ℕ} (h : Holds buf (lowDigits d n)) {k : ℕ} (hk : k < d) :
    Interval.load buf k = .returns (digit (digitAt 10 n k)) := by
  rw [h.load (by rwa [length_lowDigits]), getElem_lowDigits]

theorem string_digits {d n : ℕ} (h : Holds buf (lowDigits d n)) :
    Interval.string buf = .returns (lowDigits d n) := by
  apply h.string
  intro h0
  exact absurd (lowDigits_digits d n 0 h0) (by decide)

end Holds

theorem revDigits_holds (uninit : Vector UInt8 32) {nb : ℕ} (hnb : nb < 32) {s : Text}
    (hs : s.length ≤ nb) : Holds (revDigits uninit nb s)
      (s.reverse ++ List.replicate (nb - s.length) 48) := by
  have hlen : (s.reverse ++ List.replicate (nb - s.length) 48 ++ [0]).length = nb + 1 := by
    rw [List.length_append, List.length_append, List.length_reverse, List.length_replicate,
      List.length_singleton]
    omega
  have htake : (revDigits uninit nb s).toList.take (nb + 1) =
      s.reverse ++ List.replicate (nb - s.length) 48 ++ [0] := by
    apply List.ext_getElem
    · rw [List.length_take, Vector.length_toList, hlen]
      omega
    · intro i hi hi'
      simp only [revDigits, List.getElem_take, Vector.getElem_toList, Vector.getElem_ofFn]
      rw [List.getD_eq_getElem?_getD, List.getElem?_eq_getElem hi', Option.getD_some]
  refine ⟨(revDigits uninit nb s).toList.drop (nb + 1), ?_⟩
  have hsplit := List.take_append_drop (nb + 1) (revDigits uninit nb s).toList
  rw [htake, List.append_assoc, List.singleton_append] at hsplit
  exact hsplit.symm

/-- A loop that passes through the states `x 0`, `x 1` and so on up to `x n`. -/
theorem whileLoop_count {σ : Type} {test : σ → Outcome Bool} {body : σ → Outcome σ} {x : ℕ → σ}
    {n fuel : ℕ} (hfuel : n < fuel) (htrue : ∀ k < n, test (x k) = .returns true)
    (hbody : ∀ k < n, body (x k) = .returns (x (k + 1))) (hfalse : test (x n) = .returns false) :
    whileLoop test body fuel (x 0) = .returns (x n) := by
  induction n generalizing x fuel with
  | zero =>
    obtain ⟨fuel, rfl⟩ := Nat.exists_eq_add_one_of_ne_zero (by omega : fuel ≠ 0)
    rw [whileLoop, hfalse, returns_bind]
    rfl
  | succ n ih =>
    obtain ⟨fuel, rfl⟩ := Nat.exists_eq_add_one_of_ne_zero (by omega : fuel ≠ 0)
    have hrest : whileLoop test body fuel (x 1) = .returns (x (n + 1)) :=
      ih (x := fun k => x (k + 1)) (by omega) (fun k hk => htrue (k + 1) (by omega))
        (fun k hk => hbody (k + 1) (by omega)) hfalse
    rw [whileLoop, htrue 0 (by omega), returns_bind, if_pos rfl, hbody 0 (by omega), returns_bind,
      hrest]

/-! ### The two ranks -/

section
variable {bufMin bufMax : Vector UInt8 32} {d m n fuel : ℕ}

theorem digit_eq_zero {k : ℕ} (hk : k < 10) : digit k = 48 ↔ k = 0 := by
  constructor
  · intro h
    have hvalue := digit_toNat hk
    rw [h] at hvalue
    exact (Nat.add_left_cancel (hvalue : 48 + 0 = 48 + k)).symm
  · rintro rfl
    rfl

theorem digit_inj {j k : ℕ} (hj : j < 10) (hk : k < 10) : digit j = digit k ↔ j = k := by
  constructor
  · intro h
    have hvalue := digit_toNat hj
    rw [h, digit_toNat hk] at hvalue
    omega
  · rintro rfl
    rfl

/-- `rankRev` counts the zeros at the end of `min`. -/
theorem rankRev_eq (hmin : Holds bufMin (lowDigits d m)) {r : ℕ} (hr : Lowest 10 m r) (hrd : r < d)
    (hfuel : r < fuel) :
    whileLoop (fun rankRev => do return (← load bufMin rankRev) = 48 ∧ rankRev < d)
      (fun rankRev => .returns (rankRev + 1)) fuel 0 = .returns r := by
  have hlt : ∀ k, digitAt 10 m k < 10 := digitAt_lt (by omega) m
  apply whileLoop_count (x := fun k => k) hfuel
  · intro k hk
    have hkd : k < d := by omega
    have hzero := (digit_eq_zero (hlt k)).mpr (digitAt_eq_zero (by omega) hr.1 hk)
    simp only [hmin.load_digit hkd, returns_bind, hzero, hkd, and_self, decide_true, pure_eq]
  · exact fun k hk => rfl
  · simp only [hmin.load_digit hrd, returns_bind, digit_eq_zero (hlt r), hr.2, false_and,
      decide_false, pure_eq]

/-- `rankForw` looks for the first digit that differs. -/
theorem rankForw_eq (hmin : Holds bufMin (lowDigits d m)) (hmax : Holds bufMax (lowDigits d n))
    {f : ℕ} (hf : Highest 10 m n f) (hfd : f < d) (hfuel : d ≤ fuel) :
    whileLoop (fun rankForw => do
      return (← load bufMin rankForw) = (← load bufMax rankForw) ∧ 0 < rankForw)
      (fun rankForw => .returns (rankForw - 1)) fuel (d - 1) = .returns f := by
  have hlt : ∀ k, digitAt 10 m k < 10 := digitAt_lt (by omega) m
  have hlt' : ∀ k, digitAt 10 n k < 10 := digitAt_lt (by omega) n
  obtain ⟨c, hc⟩ : ∃ c, d - 1 = f + c := ⟨d - 1 - f, by omega⟩
  have hlast : f + c - c = f := Nat.add_sub_cancel f c
  rw [hc]
  nth_rewrite 2 [← hlast]
  apply whileLoop_count (x := fun k => f + c - k) (by omega)
  · intro k hk
    have hkd : f + c - k < d := by omega
    have hpos : 0 < f + c - k := by omega
    have heq := digitAt_eq_of_le hf.1 (i := f + c - k) (by omega)
    simp only [hmin.load_digit hkd, hmax.load_digit hkd, returns_bind, heq, hpos, and_self,
      decide_true, pure_eq]
  · exact fun k hk => rfl
  · have hstop : ¬ (digitAt 10 m f = digitAt 10 n f ∧ 0 < f) := by
      rintro ⟨heq, hpos⟩
      exact hf.2.elim (Nat.ne_of_gt hpos) fun hne => hne heq
    simp only [hlast, hmin.load_digit hfd, hmax.load_digit hfd, returns_bind,
      digit_inj (hlt f) (hlt' f), hstop, decide_false, pure_eq]

end

/-! ### The next bound -/

/-- The end of a span: nines, its last digit and the digits of the front. -/
theorem lowDigits_hi {s : Span} {d m : ℕ} (hlast : s.last < 10)
    (hfront : s.front = m / 10 ^ (s.rank + 1)) (hrank : s.rank < d) :
    lowDigits d (s.hi 10) =
      List.replicate s.rank 57 ++ digit s.last :: (lowDigits d m).drop (s.rank + 1) := by
  apply List.ext_getElem
  · rw [length_lowDigits, List.length_append, List.length_replicate, List.length_cons,
      List.length_drop, length_lowDigits]
    omega
  · intro i hi hi'
    rw [getElem_lowDigits]
    rcases Nat.lt_trichotomy i s.rank with hlt | rfl | hgt
    · rw [s.digitAt_hi hlast (by omega), if_neg (by omega), List.getElem_append_left
        (by rwa [List.length_replicate]), List.getElem_replicate]
      rfl
    · rw [s.digitAt_hi hlast (Nat.le_refl _), if_pos rfl]
      simp
    · have heq : s.hi 10 / 10 ^ (s.rank + 1) = m / 10 ^ (s.rank + 1) := by
        rw [s.hi_div_succ hlast, hfront]
      obtain ⟨j, rfl⟩ : ∃ j, i = s.rank + 1 + j := ⟨i - (s.rank + 1), by omega⟩
      have hindex : s.rank + 1 + j - (List.replicate s.rank (57 : UInt8)).length = j + 1 := by
        rw [List.length_replicate]
        omega
      rw [digitAt_eq_of_le heq hgt, List.getElem_append_right (by simp; omega)]
      simp only [hindex, List.getElem_cons_succ, List.getElem_drop, getElem_lowDigits]

theorem lt_pow_length (n : ℕ) : n < 10 ^ (decimalNat n).length := by
  induction n using Nat.strongRecOn with
  | ind n ih =>
    rcases Nat.lt_or_ge n 10 with hlt | hge
    · rw [decimalNat_of_lt hlt]
      exact hlt
    · have hdiv := ih (n / 10) (by omega)
      rw [decimalNat_of_le hge, List.length_append, List.length_singleton, Nat.pow_succ]
      omega

theorem revDigits_lowDigits (uninit : Vector UInt8 32) {d m : ℕ} (hpos : 0 < d) (hd : d < 32)
    (hm : m < 10 ^ d) : Holds (revDigits uninit d (decimalNat m)) (lowDigits d m) := by
  have hlen : (decimalNat m).length ≤ d := length_decimalAux_le hpos hm
  rw [← reverse_decimalNat hpos hm]
  exact revDigits_holds uninit hd hlen

theorem digit_sub_one {k : ℕ} (hk : k < 10) (hpos : 0 < k) : digit k - 1 = digit (k - 1) := by
  have hvalue : (digit k).toNat = 48 + k := digit_toNat hk
  have hone : (1 : UInt8) ≤ digit k := by
    rw [UInt8.le_iff_toNat_le, hvalue]
    show 1 ≤ _
    omega
  apply UInt8.toNat_inj.mp
  rw [UInt8.toNat_sub_of_le _ _ hone, hvalue, digit_toNat (by omega)]
  show 48 + k - 1 = _
  omega

section
variable {buf : Vector UInt8 32} {d m : ℕ} {s : Span} (hbuf : Holds buf (lowDigits d m))
  (hlast : s.last < 10) (hfront : s.front = m / 10 ^ (s.rank + 1)) (hrank : s.rank < d)
include hbuf hlast hfront hrank

/-- Nines up to the rank, with the rank itself. -/
theorem write_nines (hnine : s.last = 9) :
    ∃ buf', (List.range (s.rank + 1)).foldlM (fun buf i => store buf i 57) buf = .returns buf' ∧
      Holds buf' (lowDigits d (s.hi 10)) := by
  obtain ⟨buf', hnines, hbuf'⟩ := hbuf.nines (n := s.rank + 1) (by rwa [length_lowDigits])
  rw [List.replicate_succ', List.append_assoc, List.singleton_append] at hbuf'
  refine ⟨buf', hnines, ?_⟩
  rw [lowDigits_hi hlast hfront hrank, hnine]
  exact hbuf'

theorem write_rank :
    ∃ buf' buf'', store buf s.rank (digit s.last) = .returns buf' ∧
      (List.range s.rank).foldlM (fun buf i => store buf i 57) buf' = .returns buf'' ∧
      Holds buf'' (lowDigits d (s.hi 10)) := by
  have hlt : s.rank < (lowDigits d m).length := by rwa [length_lowDigits]
  have hlt' : s.rank < ((lowDigits d m).set s.rank (digit s.last)).length := by
    rwa [List.length_set]
  obtain ⟨buf', hstore, hbuf'⟩ := hbuf.store hlt (digit s.last)
  obtain ⟨buf'', hnines, hbuf''⟩ := hbuf'.nines (Nat.le_of_lt hlt')
  refine ⟨buf', buf'', hstore, hnines, ?_⟩
  rw [List.drop_eq_getElem_cons hlt', List.getElem_set_self,
    List.drop_set_of_lt (Nat.lt_succ_self _)] at hbuf''
  rw [lowDigits_hi hlast hfront hrank]
  exact hbuf''

end

/-- The digit of `max` that ends the next span, as the code computes it. -/
theorem digit_sub_ite {k f : ℕ} (hk : k < 10) (hpos : f ≠ 0 → 0 < k) :
    digit k - (if f = 0 then 0 else 1) = digit (k - if f = 0 then 0 else 1) := by
  split_ifs with hzero
  · exact UInt8.sub_zero _
  · exact digit_sub_one hk (hpos hzero)

theorem toNat_digits {d : ℕ} (hpos : 0 < d) (hle : d ≤ 10) :
    (UInt64.ofNat d).toNat = d ∧ (UInt64.ofNat d - 1).toNat = d - 1 := by
  have hnb : (UInt64.ofNat d).toNat = d := by
    rw [UInt64.toNat_ofNat']
    omega
  have hone : (1 : UInt64) ≤ UInt64.ofNat d := by
    rw [UInt64.le_iff_toNat_le, hnb]
    exact hpos
  constructor
  · exact hnb
  · rw [UInt64.toNat_sub_of_le _ _ hone, hnb]
    rfl

section
variable {m n : ℕ} {s : Span} {fuel : ℕ}

/-- With the digits in its arrays, `nextMax` finds the next span. -/
theorem nextMaxIntended_next (h : Next 10 n m s) (hm : 0 < m) (hmn : m ≤ n) (hn : n < 2 ^ 31)
    (hfuel : 10 < fuel) (uninitMin uninitMax : Vector UInt8 32) :
    nextMaxIntended fuel uninitMin uninitMax (decimalNat m) (decimalNat n) =
      .returns ⟨s.hi 10, (s.rank + 1 : ℕ)⟩ := by
  obtain ⟨d, hd⟩ : ∃ d, (decimalNat n).length = d := ⟨_, rfl⟩
  have hpow : n < 10 ^ d := hd ▸ lt_pow_length n
  have hmpow : m < 10 ^ d := Nat.lt_of_le_of_lt hmn hpow
  have hpos : 0 < d := hd ▸ List.length_pos_of_ne_nil (decimalNat_ne_nil n)
  have hle : d ≤ 10 := hd ▸ length_decimalAux_le (by omega) (Nat.lt_trans hn (by omega))
  obtain ⟨hnb, hdigits⟩ := toNat_digits hpos hle
  obtain ⟨bufMin, hstoreMin, hbufMin⟩ :=
    (revDigits_lowDigits uninitMin hpos (by omega) hmpow).terminate
  obtain ⟨bufMax, hstoreMax, hbufMax⟩ :=
    (revDigits_lowDigits uninitMax hpos (by omega) hpow).terminate
  rw [length_lowDigits] at hstoreMin hstoreMax
  have hhi := h.hi_le (by omega) hmn
  have hlast := h.last_lt (by omega)
  have hfront := h.front_eq
  have hrank := h.rank_lt (by omega) hm hmpow
  have hatoi := atoi_lowDigits hpos (Nat.lt_of_le_of_lt hhi hpow) (Nat.lt_of_le_of_lt hhi hn)
  have hclamp : ¬ ((s.hi 10 : ℕ) : ℤ) > n := by omega
  rw [nextMaxIntended, nextMaxFrom, hd]
  simp only [hnb, hdigits]
  rw [hstoreMin, returns_bind, hstoreMax, returns_bind]
  cases h with
  | @nines r f hr hf h =>
    have hrd := hr.rank_lt (by omega) hm hmpow
    have hfd := hf.rank_lt hpos hmpow hpow
    obtain ⟨buf, hnines, hbuf⟩ := write_nines hbufMin hlast hfront hrank rfl
    rw [rankRev_eq hbufMin hr hrd (by omega), returns_bind,
      rankForw_eq hbufMin hbufMax hf hfd (by omega), returns_bind, if_neg (by omega), hnines]
    simp only [returns_bind, pure_eq]
    rw [hbuf.string_digits, returns_bind, hatoi, atoi_decimalNat hn, if_neg hclamp]
    rfl
  | @upTo r f hr hf h =>
    have hrd := hr.rank_lt (by omega) hm hmpow
    have hfd := hf.rank_lt hpos hmpow hpow
    have hsub := digit_sub_ite (digitAt_lt (by omega) n f)
      fun hzero => Nat.zero_lt_of_lt (hf.digit_lt hzero hmn)
    obtain ⟨buf, buf', hstore, hnines, hbuf'⟩ := write_rank hbufMin hlast hfront hrank
    rw [rankRev_eq hbufMin hr hrd (by omega), returns_bind,
      rankForw_eq hbufMin hbufMax hf hfd (by omega), returns_bind, if_pos h,
      hbufMax.load_digit hfd, returns_bind, hsub, hstore, returns_bind, hnines]
    simp only [returns_bind, pure_eq]
    rw [hbuf'.string_digits, returns_bind, hatoi, atoi_decimalNat hn, if_neg hclamp]
    rfl

end
end Ivy.Interval
