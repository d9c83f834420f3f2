import Ivy.Interval.Rank
import Ivy.Lib.Tiling

/-! The sub-ranges of `strictPosRegexpGen`, if the arrays of `nextMax` hold the digits that its copy
loops set out to write. -/
namespace Ivy.Interval
open Outcome Digits

/-- One round of the loop: its sub-range, the rank and the text that `genAtRank` writes. -/
structure Block where
  min : ℤ
  max : ℤ
  rank : ℤ
  reg : Text
  deriving DecidableEq, Repr

/-- The loop over the sub-ranges, with what its rounds compute. -/
def subRegBlocks (next : ℕ → Text → Text → Outcome NextMax) (max : ℤ) :
    ℕ → List Block → ℤ → Outcome (List Block)
  | 0, _, _ => .undefined
  | turns + 1, blocks, min => do
    let nMax ← next blocks.length (longtoa min) (longtoa max)
    let reg ← genAtRank 128 (longtoa min) (longtoa nMax.max) nMax.rank
    let blocks := blocks ++ [⟨min, nMax.max, nMax.rank, reg⟩]
    if blocks.length = 64 then .fails ⟨ascii "regIndex == maxSubReg", ascii "strictPosRegexpGen"⟩
    else if nMax.max = 2 ^ 31 - 1 then .undefined
    else if nMax.max ≠ max then subRegBlocks next max turns blocks (nMax.max + 1)
    else .returns blocks

theorem subRegs_eq (fuel : ℕ) (uninit : Uninit) (max : ℤ) (turns : ℕ) (blocks : List Block)
    (min : ℤ) : subRegs fuel uninit max turns (blocks.map Block.reg) min =
      (subRegBlocks (fun k => nextMax fuel (uninit.revMin k) (uninit.revMax k)) max turns blocks min
        >>= fun blocks => .returns (blocks.map Block.reg)) := by
  induction turns generalizing blocks min with
  | zero => rfl
  | succ turns ih =>
    rw [subRegs, subRegBlocks, List.length_map]
    cases nextMax fuel (uninit.revMin blocks.length) (uninit.revMax blocks.length) (longtoa min)
      (longtoa max) with
    | fails e => rfl
    | undefined => rfl
    | returns nMax =>
      rw [returns_bind, returns_bind]
      cases genAtRank 128 (longtoa min) (longtoa nMax.max) nMax.rank with
      | fails e => rfl
      | undefined => rfl
      | returns reg =>
        have hmap : blocks.map Block.reg ++ [reg] =
            (blocks ++ [Block.mk min nMax.max nMax.rank reg]).map Block.reg := by
          rw [List.map_append]
          rfl
        rw [returns_bind, returns_bind, hmap]
        dsimp only
        rw [List.length_map]
        split_ifs
        · rfl
        · rfl
        · exact ih _ _
        · rfl

/-! ### The rounds -/

def blockOf (s : Span) : Block := ⟨s.lo 10, s.hi 10, (s.rank + 1 : ℕ), spanText s⟩

section
variable {m n : ℕ} {s : Span}

theorem length_frontText_le {p : ℕ} (hp : p < 10 ^ 10) : (frontText p).length ≤ 10 := by
  unfold frontText
  split_ifs
  · exact Nat.zero_le 10
  · exact length_decimalAux_le (by omega) hp

theorem genAtRank_next (h : Next 10 n m s) (hm : 0 < m) (hmn : m ≤ n) (hn : n < 2 ^ 31) :
    genAtRank 128 (decimalNat m) (decimalNat (s.hi 10)) ((s.rank + 1 : ℕ) : ℤ) =
        .returns (spanText s) ∧
      (spanText s).length < 128 := by
  have hfront : s.front ≤ m := h.front_eq ▸ Nat.div_le_self m _
  have hlo := s.lo_div (b := 10) (by omega)
  rw [h.lo_eq] at hlo
  exact genAtRank_span (h.first_le_last (by omega) hmn) (h.last_lt (by omega))
    (h.rank_lt (by omega) hm (by omega)) (length_frontText_le (by omega)) (h.front_pos hm) hlo
    (s.hi_div (by omega))

section
variable {fuel : ℕ} (hfuel : 10 < fuel) (uninit : Uninit)
include hfuel

theorem subRegBlocks_next (h : Next 10 n m s) (hm : 0 < m) (hmn : m ≤ n) (hn : n < 2 ^ 31 - 1)
    (turns : ℕ) {blocks : List Block} (hlen : blocks.length + 1 < 64) :
    subRegBlocks (fun k => nextMaxIntended fuel (uninit.revMin k) (uninit.revMax k)) n (turns + 1)
        blocks m =
      if s.hi 10 = n then .returns (blocks ++ [blockOf s])
      else subRegBlocks (fun k => nextMaxIntended fuel (uninit.revMin k) (uninit.revMax k)) n turns
        (blocks ++ [blockOf s]) (s.hi 10 + 1 : ℕ) := by
  have hnext := nextMaxIntended_next h hm hmn (by omega) hfuel (uninit.revMin blocks.length)
    (uninit.revMax blocks.length)
  have hreg := (genAtRank_next h hm hmn (by omega)).1
  have hhi := h.hi_le (by omega) hmn
  have hblock : (⟨(m : ℕ), (s.hi 10 : ℕ), (s.rank + 1 : ℕ), spanText s⟩ : Block) = blockOf s := by
    rw [blockOf, h.lo_eq]
  have hlength : ¬ (blocks ++ [blockOf s]).length = 64 := by
    rw [List.length_append, List.length_singleton]
    omega
  have hbound : ¬ ((s.hi 10 : ℕ) : ℤ) = 2 ^ 31 - 1 := by omega
  rw [subRegBlocks]
  show (nextMaxIntended _ _ _ (decimalNat m) (decimalNat n) >>= _) = _
  rw [hnext, returns_bind]
  show (genAtRank 128 (decimalNat m) (decimalNat (s.hi 10)) _ >>= _) = _
  rw [hreg, returns_bind]
  simp only [hblock, if_neg hlength, if_neg hbound]
  by_cases hend : s.hi 10 = n
  · have hcast : ¬ ((s.hi 10 : ℕ) : ℤ) ≠ n := by omega
    rw [if_neg hcast, if_pos hend]
  · have hcast : ((s.hi 10 : ℕ) : ℤ) ≠ n := by omega
    rw [if_pos hcast, if_neg hend]
    rfl

/-- The loop goes along a chain of spans. -/
theorem subRegBlocks_chain {spans : List Span} (hchain : Chain 10 n m spans) (hm : 0 < m)
    (hmn : m ≤ n) (hn : n < 2 ^ 31 - 1) {turns : ℕ} {blocks : List Block}
    (hturns : spans.length ≤ turns) (hlen : blocks.length + spans.length < 64) :
    subRegBlocks (fun k => nextMaxIntended fuel (uninit.revMin k) (uninit.revMax k)) n turns blocks
        m = .returns (blocks ++ spans.map blockOf) := by
  induction hchain generalizing turns blocks with
  | @last m s hs h =>
    obtain ⟨turns, rfl⟩ := Nat.exists_eq_add_of_le' hturns
    rw [List.length_singleton] at hlen ⊢
    rw [subRegBlocks_next hfuel uninit hs hm hmn hn turns hlen, if_pos h]
    rfl
  | @cons m s spans hs h rest ih =>
    rw [List.length_cons] at hturns hlen
    obtain ⟨turns, rfl⟩ := Nat.exists_eq_add_one_of_ne_zero (by omega : turns ≠ 0)
    have hroom : (blocks ++ [blockOf s]).length + spans.length < 64 := by
      rw [List.length_append, List.length_singleton]
      omega
    have hrest := ih (by omega) h (Nat.le_of_succ_le_succ hturns) hroom
    rw [subRegBlocks_next hfuel uninit hs hm hmn hn turns (by omega), if_neg (by omega), hrest,
      List.append_assoc]
    rfl

end

theorem tiles_chain {spans : List Span} (h : Chain 10 n m spans) (hmn : m ≤ n) :
    Tiles Block.min Block.max m n (spans.map blockOf) := by
  induction h with
  | @last m s hs h =>
    refine ⟨congrArg _ hs.lo_eq, ?_, ?_⟩
    · show (m : ℤ) ≤ (s.hi 10 : ℕ)
      omega
    · show ((s.hi 10 : ℕ) : ℤ) + 1 = n + 1
      rw [h]
  | @cons m s spans hs h rest ih =>
    have hle := hs.lo_le_hi (by omega) hmn
    refine ⟨congrArg _ hs.lo_eq, ?_, ih h⟩
    show (m : ℤ) ≤ (s.hi 10 : ℕ)
    omega

/-- `genAtRank` accepts the round, its text fits in 128 bytes with its terminator, and as a pattern
the text matches the numerals without leading zeros of the sub-range. -/
def Block.Exact (b : Block) : Prop :=
  genAtRank 128 (longtoa b.min) (longtoa b.max) b.rank = .returns b.reg ∧ b.reg.length < 128 ∧
    ∃ r, Perl.parse b.reg = some r ∧
      ∀ t, r.Whole t ↔ IsNatural t ∧ b.min ≤ digitsValue t ∧ digitsValue t ≤ b.max

theorem blockOf_exact (h : Next 10 n m s) (hm : 0 < m) (hmn : m ≤ n) (hn : n < 2 ^ 31) :
    (blockOf s).Exact := by
  have hgen := genAtRank_next h hm hmn hn
  rw [← h.lo_eq] at hgen
  obtain ⟨r, hr, hwhole⟩ := spanText_whole (h.first_le_last (by omega) hmn) (h.last_lt (by omega))
    (h.rank_lt (d := 10) (by omega) hm (by omega)) (h.front_pos hm)
  refine ⟨hgen.1, hgen.2, r, hr, ?_⟩
  intro t
  rw [hwhole]
  constructor
  · rintro ⟨z, hlo, hhi, rfl⟩
    rw [digitsValue_decimalNat]
    exact ⟨isNatural_decimalNat z, Int.ofNat_le.mpr hlo, Int.ofNat_le.mpr hhi⟩
  · rintro ⟨hnat, hlo, hhi⟩
    exact ⟨digitsValue t, Int.ofNat_le.mp hlo, Int.ofNat_le.mp hhi, hnat.eq_decimalNat.symm⟩

end

/-- The loop ends before it has 64 sub-ranges. They follow each other, do not meet and hold the
numbers from `min` to `max - 1`, and their texts are exact. -/
theorem subRegBlocks_exact {min max : ℤ} (hmin : 1 ≤ min) (hlt : min < max)
    (hmax : max ≤ 2147483647) (uninit : Uninit) {fuel : ℕ} (hfuel : 10 < fuel) :
    ∃ blocks,
      subRegBlocks (fun k => nextMaxIntended fuel (uninit.revMin k) (uninit.revMax k)) (max - 1) 64
        [] min = .returns blocks ∧
      blocks.length < 64 ∧
      blocks.IsChain (fun b c => c.min = b.max + 1) ∧
      blocks.Pairwise (fun b c => b.max < c.min) ∧
      (∀ z, min ≤ z ∧ z ≤ max - 1 ↔ ∃ b ∈ blocks, b.min ≤ z ∧ z ≤ b.max) ∧
      ∀ b ∈ blocks, b.Exact := by
  obtain ⟨m, rfl⟩ := Int.eq_ofNat_of_zero_le (by omega : 0 ≤ min)
  obtain ⟨n, hn⟩ := Int.eq_ofNat_of_zero_le (by omega : 0 ≤ max - 1)
  have hmn : m ≤ n := by omega
  have hm : 0 < m := by omega
  have hpow : n < 10 ^ 10 := by omega
  obtain ⟨spans, hchain, hlen⟩ := exists_chain (k := 0) (by omega) hm hmn hpow (Nat.one_dvd m)
  have hfew : ([] : List Block).length + spans.length < 64 := by
    rw [List.length_nil]
    omega
  have hturns : spans.length ≤ 64 := by omega
  have hrun := subRegBlocks_chain hfuel uninit hchain hm hmn (by omega) hturns hfew
  have htiles := tiles_chain hchain hmn
  rw [hn]
  refine ⟨spans.map blockOf, hrun, ?_, htiles.isChain, htiles.pairwise, ?_, ?_⟩
  · rw [List.length_map]
    omega
  · exact fun z => htiles.mem_iff
  · intro b hb
    obtain ⟨s, hs, rfl⟩ := List.mem_map.mp hb
    obtain ⟨k, hk, hkn, hnext⟩ := hchain.exists_next (by omega) hmn s hs
    exact blockOf_exact hnext (by omega) hkn (by omega)

/-- From `97` to `130`, with arrays full of letters before the call. -/
theorem subRegBlocks_exact_example : ∃ blocks,
    subRegBlocks (fun _ => nextMaxIntended 11 (.replicate 32 120) (.replicate 32 120)) 130 64 [] 97 =
      .returns blocks ∧
    blocks.length < 64 ∧
    blocks.IsChain (fun b c => c.min = b.max + 1) ∧
    blocks.Pairwise (fun b c => b.max < c.min) ∧
    (∀ z, 97 ≤ z ∧ z ≤ 130 ↔ ∃ b ∈ blocks, b.min ≤ z ∧ z ≤ b.max) ∧
    ∀ b ∈ blocks, b.Exact := by
  have hlt : (97 : ℤ) < 131 := by decide
  exact subRegBlocks_exact (by decide) hlt (by decide)
    ⟨.replicate 8192 0, fun _ => .replicate 32 120, fun _ => .replicate 32 120⟩ (by decide)

example : subRegBlocks (fun _ => nextMaxIntended 11 (.replicate 32 120) (.replicate 32 120)) 130 64
    [] 97 = .returns [⟨97, 99, 1, ascii "9[7-9]"⟩, ⟨100, 129, 2, ascii "1[0-2]\\d"⟩,
      ⟨130, 130, 1, ascii "130"⟩] := by decide

end Ivy.Interval
