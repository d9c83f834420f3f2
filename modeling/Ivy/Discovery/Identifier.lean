import Ivy.Discovery.Grammar
import Ivy.Discovery.Start
import Ivy.Interval.Numeral
import Ivy.Lib.Lines

/-! `GenApplicationUniqueIdentifier`: a pseudo-random number, the time in milliseconds and the port of
the server. -/
namespace Ivy.Discovery

/-- `rand` is what the first `rand ()` after `srand` returns; `snprintf` keeps 127 bytes. -/
def genApplicationUniqueIdentifier (rand : UInt32 → Int32) (curtime : UInt64) (applicationPort : UInt16) : Text :=
  (decimal (rand curtime.toUInt32).toInt ++ colon :: (decimal curtime.toNat ++ colon ::
    decimal applicationPort.toNat)).take 127

theorem length_decimal_uint64 (curtime : UInt64) : (decimal curtime.toNat).length ≤ 20 := by
  have hlt : curtime.toNat < 10 ^ 20 := Nat.lt_trans curtime.toNat_lt (by decide)
  exact length_decimalAux_le (by decide) hlt

theorem length_decimal_uint16 (port : UInt16) : (decimal port.toNat).length ≤ 5 := by
  have hlt : port.toNat < 10 ^ 5 := Nat.lt_trans port.toNat_lt (by decide)
  exact length_decimalAux_le (by decide) hlt

section
variable (rand : UInt32 → Int32) (curtime : UInt64) (applicationPort : UInt16)

theorem genApplicationUniqueIdentifier_whole : genApplicationUniqueIdentifier rand curtime applicationPort =
    decimal (rand curtime.toUInt32).toInt ++ colon :: (decimal curtime.toNat ++ colon ::
      decimal applicationPort.toNat) := by
  have hrand := length_decimal_le (rand curtime.toUInt32).le_toInt (rand curtime.toUInt32).toInt_lt
  have hcurtime := length_decimal_uint64 curtime
  have hport := length_decimal_uint16 applicationPort
  apply List.take_of_length_le
  simp only [List.length_append, List.length_cons]
  omega

theorem length_genApplicationUniqueIdentifier :
    (genApplicationUniqueIdentifier rand curtime applicationPort).length < 128 := by
  unfold genApplicationUniqueIdentifier
  rw [List.length_take]
  omega

theorem mem_genApplicationUniqueIdentifier {b : UInt8}
    (hb : b ∈ genApplicationUniqueIdentifier rand curtime applicationPort) : b = minus ∨ b = colon ∨ IsDigit b := by
  rw [genApplicationUniqueIdentifier_whole] at hb
  simp only [List.mem_append, List.mem_cons] at hb
  rcases hb with hb | hb | hb | hb | hb
  · exact (mem_decimal hb).imp_right Or.inr
  · exact Or.inr (Or.inl hb)
  · exact (mem_decimal hb).imp_right Or.inr
  · exact Or.inr (Or.inl hb)
  · exact (mem_decimal hb).imp_right Or.inr

theorem field_genApplicationUniqueIdentifier :
    Field endsId 128 (genApplicationUniqueIdentifier rand curtime applicationPort) where
  nonempty h := by
    rw [genApplicationUniqueIdentifier_whole] at h
    simp at h
  fits := length_genApplicationUniqueIdentifier rand curtime applicationPort
  bytes b hb := by
    rcases mem_genApplicationUniqueIdentifier rand curtime applicationPort hb with rfl | rfl | hdigit
    · rfl
    · rfl
    · by_contra hends
      simp only [endsId, Bool.not_eq_false, Bool.or_eq_true, beq_iff_eq] at hends
      rcases hends with ((rfl | rfl) | rfl) | rfl <;> exact absurd hdigit (by decide)

end

theorem decimal_injective : Function.Injective decimal :=
  Function.LeftInverse.injective Interval.intValue_decimal

theorem colon_not_mem_decimal (z : ℤ) : colon ∉ decimal z := by
  intro h
  rcases mem_decimal h with hminus | hdigit
  · exact absurd hminus (by decide)
  · exact absurd hdigit (by decide)

/-- Two identifiers are the same exactly if the agents started in the same millisecond, got the same
port, and drew the same number. -/
theorem genApplicationUniqueIdentifier_eq_iff {rand rand' : UInt32 → Int32} {curtime curtime' : UInt64}
    {port port' : UInt16} : genApplicationUniqueIdentifier rand curtime port =
      genApplicationUniqueIdentifier rand' curtime' port' ↔
    curtime = curtime' ∧ port = port' ∧ rand curtime.toUInt32 = rand' curtime.toUInt32 := by
  constructor
  · intro h
    rw [genApplicationUniqueIdentifier_whole, genApplicationUniqueIdentifier_whole] at h
    obtain ⟨hrand, h⟩ := Lines.cut_unique (colon_not_mem_decimal _) (colon_not_mem_decimal _) h
    obtain ⟨hcurtime, hport⟩ := Lines.cut_unique (colon_not_mem_decimal _) (colon_not_mem_decimal _) h
    obtain rfl := UInt64.toNat_inj.mp (Int.ofNat_inj.mp (decimal_injective hcurtime))
    exact ⟨rfl, UInt16.toNat_inj.mp (Int.ofNat_inj.mp (decimal_injective hport)),
      Int32.toInt_inj.mp (decimal_injective hrand)⟩
  · rintro ⟨rfl, rfl, hrand⟩
    unfold genApplicationUniqueIdentifier
    rw [hrand]

end Ivy.Discovery
