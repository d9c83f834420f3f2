import Ivy.Interval.Exact
import Ivy.Lib.Digits
import Ivy.Lib.Language

/-! What `genAtRank` writes for numbers that begin with the same digits, and what it matches. -/
namespace Ivy.Interval
open Outcome Regex Perl Digits

/-! ### The numerals of a span -/

def frontText (p : ℕ) : Text := if p = 0 then [] else decimalNat p

theorem decimalNat_concat {n d : ℕ} (hn : 0 < n) (hd : d < 10) :
    decimalNat (n * 10 + d) = decimalNat n ++ [digit d] := by
  have hdiv : (n * 10 + d) / 10 = n := by omega
  have hmod : (n * 10 + d) % 10 = d := by omega
  rw [decimalNat_of_le (by omega), hdiv, hmod]

theorem decimalNat_front {p d : ℕ} (hd : d < 10) :
    decimalNat (p * 10 + d) = frontText p ++ [digit d] := by
  unfold frontText
  split_ifs with hp
  · rw [hp, Nat.zero_mul, Nat.zero_add, decimalNat_of_lt hd, List.nil_append]
  · exact decimalNat_concat (Nat.pos_of_ne_zero hp) hd

theorem frontText_digits (p : ℕ) : ∀ b ∈ frontText p, IsDigit b := by
  unfold frontText
  split_ifs with hp
  · exact fun b hb => absurd hb List.not_mem_nil
  · exact decimalNat_digits p

theorem pos_of_div {z k q : ℕ} (hq : 0 < q) (hz : z / k = q) : 0 < z := by
  apply Nat.pos_of_ne_zero
  rintro rfl
  rw [Nat.zero_div] at hz
  omega

/-- A number begins with the digits of its quotient. -/
theorem exists_digits_of_div {q e z : ℕ} (hq : 0 < q) (hz : z / 10 ^ e = q) :
    ∃ ds, ds.length = e ∧ (∀ b ∈ ds, IsDigit b) ∧ decimalNat z = decimalNat q ++ ds := by
  induction e generalizing z with
  | zero =>
    rw [Nat.pow_zero, Nat.div_one] at hz
    exact ⟨[], rfl, fun b hb => absurd hb List.not_mem_nil, by rw [hz, List.append_nil]⟩
  | succ e ih =>
    rw [Nat.pow_succ', ← Nat.div_div_eq_div_mul] at hz
    obtain ⟨ds, hlen, hds, heq⟩ := ih hz
    refine ⟨ds ++ [digit (z % 10)], ?_, ?_, ?_⟩
    · rw [List.length_append, hlen, List.length_singleton]
    · intro b hb
      rcases List.mem_append.mp hb with hb | hb
      · exact hds b hb
      · rw [List.mem_singleton.mp hb]
        exact isDigit_digit (Nat.mod_lt z (by omega))
    · have hconcat := decimalNat_concat (pos_of_div hq hz) (Nat.mod_lt z (by omega : 10 > 0))
      rw [Nat.div_add_mod'] at hconcat
      rw [hconcat, heq, List.append_assoc]

/-- Any digits after those of a number are the numeral of one with this quotient. -/
theorem exists_div_of_digits {q : ℕ} (hq : 0 < q) {ds : Text} (hds : ∀ b ∈ ds, IsDigit b) :
    ∃ z, z / 10 ^ ds.length = q ∧ decimalNat z = decimalNat q ++ ds := by
  induction ds using List.reverseRecOn with
  | nil => exact ⟨q, Nat.div_one q, (List.append_nil _).symm⟩
  | append_singleton ds b ih =>
    obtain ⟨z, hz, heq⟩ := ih fun c hc => hds c (List.mem_append_left _ hc)
    obtain ⟨hlt, hb⟩ := IsDigit.digit_eq (hds b (by simp))
    have hdiv : (z * 10 + (b.toNat - 48)) / 10 = z := by omega
    refine ⟨z * 10 + (b.toNat - 48), ?_, ?_⟩
    · rw [List.length_append, List.length_singleton, Nat.pow_succ', ← Nat.div_div_eq_div_mul, hdiv,
        hz]
    · rw [decimalNat_concat (pos_of_div hq hz) hlt, hb, heq, List.append_assoc]

theorem exists_tail {p d e z : ℕ} (hd : d < 10) (hpos : 0 < p * 10 + d)
    (hz : z / 10 ^ e = p * 10 + d) :
    ∃ ds, ds.length = e ∧ decimalNat z = frontText p ++ digit d :: ds := by
  obtain ⟨ds, hlen, -, heq⟩ := exists_digits_of_div hpos hz
  refine ⟨ds, hlen, ?_⟩
  rw [heq, decimalNat_front hd, List.append_assoc, List.singleton_append]

/-! ### The text of a span -/

def rankText (lmin lmax : UInt8) : Text :=
  if lmin = 48 ∧ lmax = 57 then ascii "\\d"
  else if lmin = lmax then [lmin]
  else if lmax.toNat = lmin.toNat + 1 then ascii "[" ++ [lmin, lmax] ++ ascii "]"
  else ascii "[" ++ [lmin] ++ ascii "-" ++ [lmax] ++ ascii "]"

def tailText (e : ℕ) : Text :=
  if e = 0 then []
  else if e = 1 then ascii "\\d"
  else ascii "\\d\x7b" ++ decimalNat e ++ ascii "\x7d"

def spanText (s : Span) : Text :=
  frontText s.front ++ rankText (digit s.first) (digit s.last) ++ tailText s.rank

theorem length_rankText_le (a c : UInt8) : (rankText a c).length ≤ 5 := by
  unfold rankText
  split_ifs
  · exact Nat.le_of_ble_eq_true rfl
  · exact Nat.le_of_ble_eq_true rfl
  · exact Nat.le_of_ble_eq_true rfl
  · exact Nat.le_of_ble_eq_true rfl

theorem length_tailText_le {e : ℕ} (he : e < 10) : (tailText e).length ≤ 5 := by
  unfold tailText
  split_ifs
  · exact Nat.zero_le 5
  · exact Nat.le_of_ble_eq_true rfl
  · rw [decimalNat_of_lt he]
    exact Nat.le_of_ble_eq_true rfl

/-! ### What `genAtRank` writes -/

theorem digit_le {a c : ℕ} (h : a ≤ c) (hc : c < 10) : (digit a).toNat ≤ (digit c).toNat := by
  rw [digit_toNat hc, digit_toNat (Nat.lt_of_le_of_lt h hc)]
  omega

/-- A numeral has no zeros to skip. -/
theorem dropWhile_decimalNat {n : ℕ} (hn : 0 < n) :
    (decimalNat n).dropWhile (· = 48) = decimalNat n := by
  rcases isNatural_decimalNat n with hzero | ⟨hne, -, hhead⟩
  · have hvalue := digitsValue_decimalNat n
    rw [hzero] at hvalue
    have hn0 : 0 = n := hvalue
    omega
  · obtain ⟨b, bs, hb⟩ := List.exists_cons_of_ne_nil hne
    rw [hb, List.head?_cons] at hhead
    have hb48 : b ≠ 48 := fun h => hhead (congrArg some h)
    rw [hb, List.dropWhile_cons_of_neg (by simpa using hb48)]

section
variable {front ds : Text} {d e : ℕ}

theorem toSizeT_length (hfront : front.length ≤ 10) (hlen : ds.length = e) (b : UInt8) :
    toSizeT ((front ++ b :: ds).length - ((e + 1 : ℕ) : ℤ)) = front.length := by
  have hdiff : ((front ++ b :: ds).length : ℤ) - ((e + 1 : ℕ) : ℤ) = front.length := by
    rw [List.length_append, List.length_cons, hlen]
    omega
  rw [toSizeT, hdiff]
  omega

theorem substr_front (hfront : front.length ≤ 10) (hlen : ds.length = e) (b : UInt8) :
    substr 512 (front ++ b :: ds) 0 (toSizeT ((front ++ b :: ds).length - ((e + 1 : ℕ) : ℤ))) =
      .returns front := by
  have hmin : min front.length ((front ++ b :: ds).length - 0) = front.length := by
    rw [List.length_append]
    omega
  have htake : (front ++ b :: ds).take front.length = front := by
    rw [List.take_append_of_le_length (Nat.le_refl _), List.take_length]
  rw [toSizeT_length hfront hlen, substr, hmin, List.drop_zero, htake, checkAndReturn_returns]
  omega

theorem charAt_rank (hfront : front.length ≤ 10) (hlen : ds.length = e) (b : UInt8) :
    charAt (front ++ b :: ds) (toSizeT ((front ++ b :: ds).length - ((e + 1 : ℕ) : ℤ))) =
      .returns b := by
  have hlt : front.length < (front ++ b :: ds).length := by
    rw [List.length_append, List.length_cons]
    omega
  rw [toSizeT_length hfront hlen, charAt, if_pos hlt]
  simp

end

theorem genPostRank_span {e buflen : ℕ} (he : e < 10) (hbuflen : 5 < buflen) :
    genPostRank buflen ((e + 1 : ℕ) : ℤ) = .returns (tailText e) := by
  have hlen := length_tailText_le he
  have htext : (if ((e + 1 : ℕ) : ℤ) ≤ 1 then []
      else if ((e + 1 : ℕ) : ℤ) = 2 then ascii "\\d"
      else ascii "\\d\x7b" ++ decimal (((e + 1 : ℕ) : ℤ) - 1) ++ ascii "\x7d") = tailText e := by
    have hsub : ((e + 1 : ℕ) : ℤ) - 1 = (e : ℤ) := by omega
    rw [hsub]
    unfold tailText
    split_ifs <;> first | rfl | omega
  rw [genPostRank, htext, checkAndReturn_returns]
  omega

section
variable {lo hi e a c : ℕ} {front ds ds' : Text} (hfront : front.length ≤ 10)
  (hds : ds.length = e) (hds' : ds'.length = e)
  (hlo : decimalNat lo = front ++ digit a :: ds) (hhi : decimalNat hi = front ++ digit c :: ds')
include hfront hds hds' hlo hhi

theorem genPreRank_span (hlopos : 0 < lo) (hhipos : 0 < hi) :
    genPreRank 512 (decimalNat lo) (decimalNat hi) ((e + 1 : ℕ) : ℤ) = .returns front := by
  have hshort : front.length < 512 := by omega
  rw [genPreRank]
  simp only [dropWhile_decimalNat hlopos, dropWhile_decimalNat hhipos]
  rw [hlo, hhi, substr_front hfront hds, returns_bind, substr_front hfront hds', returns_bind]
  simp only [ne_eq, not_true_eq_false, if_false]
  exact checkAndReturn_returns hshort

theorem genRank_span (hac : a ≤ c) (hc : c < 10) {buflen : ℕ} (hbuflen : 5 < buflen) :
    genRank buflen (decimalNat lo) (decimalNat hi) ((e + 1 : ℕ) : ℤ) =
      .returns (rankText (digit a) (digit c)) := by
  have hdigits := digit_le hac hc
  have hshort := length_rankText_le (digit a) (digit c)
  have hmin : (if digit a < digit c then digit a else digit c) = digit a := by
    split_ifs with hlt
    · rfl
    · apply UInt8.toNat_inj.mp
      have hge := UInt8.lt_iff_toNat_lt.not.mp hlt
      omega
  have hmax : (if digit a > digit c then digit a else digit c) = digit c := by
    split_ifs with hgt
    · have hlt := UInt8.lt_iff_toNat_lt.mp hgt
      omega
    · rfl
  rw [genRank, hlo, hhi, charAt_rank hfront hds, returns_bind, charAt_rank hfront hds',
    returns_bind]
  simp only [hmin, hmax]
  show checkAndReturn _ _ (rankText (digit a) (digit c)) = _
  exact checkAndReturn_returns (by omega)

end

/-- A span is accepted, and its text fits. -/
theorem genAtRank_span {s : Span} {lo hi : ℕ} (hle : s.first ≤ s.last) (hlast : s.last < 10)
    (hrank : s.rank < 10) (hfront : (frontText s.front).length ≤ 10)
    (hpos : 0 < s.front * 10 + s.first) (hlo : lo / 10 ^ s.rank = s.front * 10 + s.first)
    (hhi : hi / 10 ^ s.rank = s.front * 10 + s.last) :
    genAtRank 128 (decimalNat lo) (decimalNat hi) ((s.rank + 1 : ℕ) : ℤ) =
        .returns (spanText s) ∧
      (spanText s).length < 128 := by
  have hpos' : 0 < s.front * 10 + s.last := by omega
  obtain ⟨ds, hds, hnum⟩ := exists_tail (by omega) hpos hlo
  obtain ⟨ds', hds', hnum'⟩ := exists_tail hlast hpos' hhi
  have hlen := length_rankText_le (digit s.first) (digit s.last)
  have htail := length_tailText_le hrank
  have hroom : 5 < 512 - (frontText s.front ++ rankText (digit s.first) (digit s.last)).length := by
    rw [List.length_append]
    omega
  have hfits : (spanText s).length < 128 := by
    rw [spanText, List.length_append, List.length_append]
    omega
  constructor
  · rw [genAtRank, genPreRank_span hfront hds hds' hnum hnum' (pos_of_div hpos hlo)
      (pos_of_div hpos' hhi), returns_bind, genRank_span hfront hds hds' hnum hnum' hle hlast
      (by omega), returns_bind, genPostRank_span hrank hroom, returns_bind]
    exact checkAndReturn_returns hfits
  · exact hfits

/-! ### What the text matches -/

theorem digit_ne {d : ℕ} (hd : d < 10) {b : UInt8} (hb : ¬ IsDigit b) : digit d ≠ b := by
  intro h
  exact hb (h ▸ isDigit_digit hd)

theorem cls_digit {d : ℕ} (hd : d < 10) (s : State) (ranges : List (UInt8 × UInt8))
    (pending : Option UInt8) : s.cls ranges pending (digit d) =
      some { s with mode := .cls (State.flush ranges pending) (some (digit d)) } := by
  have hcaret : ¬ (digit d = caret ∨ digit d = bracket) := by
    rintro (h | h)
    · exact digit_ne hd (by decide) h
    · exact digit_ne hd (by decide) h
  rw [State.cls, if_neg (digit_ne hd (by decide)), if_neg (digit_ne hd (by decide)),
    if_neg (digit_ne hd (by decide)), if_neg hcaret]

theorem clsTo_digit {a c : ℕ} (hac : a ≤ c) (hc : c < 10) (s : State)
    (ranges : List (UInt8 × UInt8)) : s.clsTo ranges (some (digit a)) (digit c) =
      some { s with mode := .cls ((digit a, digit c) :: ranges) none } := by
  have hbackslash : ¬ (digit c = backslash ∨ digit c = bracket) := by
    rintro (h | h)
    · exact digit_ne hc (by decide) h
    · exact digit_ne hc (by decide) h
  have hle : digit a ≤ digit c := UInt8.le_iff_toNat_le.mpr (digit_le hac hc)
  rw [State.clsTo, if_neg (digit_ne hc (by decide)), if_neg hbackslash]
  exact if_pos hle

theorem between_digits {a c : ℕ} (hac : a ≤ c) (hc : c < 10) (b : UInt8) :
    digit a ≤ b ∧ b ≤ digit c ↔ ∃ d, a ≤ d ∧ d ≤ c ∧ b = digit d := by
  have hlo : (digit a).toNat = 48 + a := digit_toNat (by omega)
  have hhi : (digit c).toNat = 48 + c := digit_toNat hc
  rw [UInt8.le_iff_toNat_le, UInt8.le_iff_toNat_le, hlo, hhi]
  constructor
  · rintro ⟨hle, hge⟩
    have hdigit : (digit (b.toNat - 48)).toNat = 48 + (b.toNat - 48) := digit_toNat (by omega)
    refine ⟨b.toNat - 48, by omega, by omega, ?_⟩
    apply UInt8.toNat_inj.mp
    omega
  · rintro ⟨d, had, hdc, rfl⟩
    have hdigit : (digit d).toNat = 48 + d := digit_toNat (by omega)
    omega

section
variable {a c : ℕ} (stack : List Frame) (top : Frame)

theorem foldlM_pair (ha : a < 10) (hc : c < 10) :
    (ascii "[" ++ [digit a, digit c] ++ ascii "]").foldlM State.feed ⟨stack, top, .items⟩ =
      some ⟨stack, top.push (within [(digit a, digit a), (digit c, digit c)]) true, .items⟩ := by
  have hopen : State.feed ⟨stack, top, .items⟩ bracket = some ⟨stack, top, .cls [] none⟩ := rfl
  have hfirst : State.feed ⟨stack, top, .cls [] none⟩ (digit a) =
      some ⟨stack, top, .cls [] (some (digit a))⟩ := cls_digit ha _ _ _
  have hlast : State.feed ⟨stack, top, .cls [] (some (digit a))⟩ (digit c) =
      some ⟨stack, top, .cls [(digit a, digit a)] (some (digit c))⟩ := cls_digit hc _ _ _
  show List.foldlM State.feed _ [bracket, digit a, digit c, closingBracket] = _
  rw [State.foldlM_feed hopen, State.foldlM_feed hfirst, State.foldlM_feed hlast]
  rfl

theorem foldlM_range (hac : a ≤ c) (hc : c < 10) :
    (ascii "[" ++ [digit a] ++ ascii "-" ++ [digit c] ++ ascii "]").foldlM State.feed
        ⟨stack, top, .items⟩ =
      some ⟨stack, top.push (within [(digit a, digit c)]) true, .items⟩ := by
  have hopen : State.feed ⟨stack, top, .items⟩ bracket = some ⟨stack, top, .cls [] none⟩ := rfl
  have hfirst : State.feed ⟨stack, top, .cls [] none⟩ (digit a) =
      some ⟨stack, top, .cls [] (some (digit a))⟩ := cls_digit (by omega) _ _ _
  have hmark : State.feed ⟨stack, top, .cls [] (some (digit a))⟩ hyphen =
      some ⟨stack, top, .clsTo [] (some (digit a))⟩ := rfl
  have hlast : State.feed ⟨stack, top, .clsTo [] (some (digit a))⟩ (digit c) =
      some ⟨stack, top, .cls [(digit a, digit c)] none⟩ := clsTo_digit hac hc _ _
  show List.foldlM State.feed _ [bracket, digit a, hyphen, digit c, closingBracket] = _
  rw [State.foldlM_feed hopen, State.foldlM_feed hfirst, State.foldlM_feed hmark,
    State.foldlM_feed hlast]
  rfl

/-- The digit at the rank is read as a class, whatever way it is written. -/
theorem foldlM_rankText (hac : a ≤ c) (hc : c < 10) :
    ∃ p, (rankText (digit a) (digit c)).foldlM State.feed ⟨stack, top, .items⟩ =
        some ⟨stack, top.push (set p) true, .items⟩ ∧
      ∀ b, p b = true ↔ ∃ d, a ≤ d ∧ d ≤ c ∧ b = digit d := by
  have ha : a < 10 := Nat.lt_of_le_of_lt hac hc
  have hlo : (digit a).toNat = 48 + a := digit_toNat ha
  have hhi : (digit c).toNat = 48 + c := digit_toNat hc
  unfold rankText
  split_ifs with hall hsame hnext
  · refine ⟨_, rfl, ?_⟩
    intro b
    rw [← between_digits hac hc, hall.1, hall.2]
    simp [Perl.zero, nine]
  · refine ⟨fun b => b = digit a, ?_, ?_⟩
    · show State.feed ⟨stack, top, .items⟩ (digit a) >>= pure = _
      simp only [State.feed, State.item, if_pos (not_mem_special_of_isDigit (isDigit_digit ha))]
      rfl
    · intro b
      rw [← between_digits hac hc, ← hsame, decide_eq_true_eq]
      constructor
      · rintro rfl
        exact ⟨UInt8.le_refl _, UInt8.le_refl _⟩
      · rintro ⟨hle, hge⟩
        exact UInt8.le_antisymm hge hle
  · refine ⟨_, foldlM_pair stack top ha hc, ?_⟩
    intro b
    have hb := UInt8.toNat_inj (a := b) (b := digit a)
    have hb' := UInt8.toNat_inj (a := b) (b := digit c)
    rw [← between_digits hac hc]
    simp only [List.any_cons, List.any_nil, Bool.or_false, Bool.or_eq_true, Bool.and_eq_true,
      decide_eq_true_eq, UInt8.le_iff_toNat_le]
    omega
  · refine ⟨_, foldlM_range stack top hac hc, ?_⟩
    intro b
    rw [← between_digits hac hc]
    simp only [List.any_cons, List.any_nil, Bool.or_false, Bool.and_eq_true, decide_eq_true_eq]

end

def isDigitByte (b : UInt8) : Bool := [(Perl.zero, nine)].any fun r => r.1 ≤ b && b ≤ r.2

theorem isDigitByte_iff (b : UInt8) : isDigitByte b = true ↔ IsDigit b := by
  simp only [isDigitByte, List.any_cons, List.any_nil, Bool.or_false, Bool.and_eq_true,
    decide_eq_true_eq, UInt8.le_iff_toNat_le, IsDigit]
  show 48 ≤ _ ∧ _ ≤ 57 ↔ _
  omega

theorem feed_count {d : ℕ} (hd : d < 10) (stack : List Frame) (top : Frame) :
    State.feed ⟨stack, top, .count none⟩ (digit d) = some ⟨stack, top, .count (some d)⟩ := by
  have hvalue := digit_toNat hd
  have hrange : Perl.zero ≤ digit d ∧ digit d ≤ nine := by
    rw [UInt8.le_iff_toNat_le, UInt8.le_iff_toNat_le, hvalue]
    show 48 ≤ _ ∧ _ ≤ 57
    omega
  have hsum : 10 * (none : Option ℕ).getD 0 + ((digit d).toNat - Perl.zero.toNat) = d := by
    rw [hvalue]
    show 10 * 0 + (48 + d - 48) = _
    omega
  simp only [State.feed, State.count, if_pos hrange, hsum]

/-- The digits after the rank are read as so many digits. -/
theorem exists_tail_regex {e : ℕ} (he : e < 10) (items : List (Regex UInt8)) (repeatable : Bool) :
    ∃ rs, ((tailText e).foldlM State.feed ⟨[], ⟨false, [], items, repeatable⟩, .items⟩).bind
        State.finish = some (seqs (items.reverse ++ rs)) ∧
      (seqs rs).Denotes (letters isDigitByte ^ e) := by
  have hdigit : Perl.digit.Denotes (letters isDigitByte) := denotes_set isDigitByte
  match e with
  | 0 =>
    refine ⟨[], ?_, ?_⟩
    · rw [List.append_nil]
      rfl
    · rw [pow_zero]
      exact denotes_empty
  | 1 =>
    refine ⟨[Perl.digit], ?_, ?_⟩
    · rw [← List.reverse_cons]
      rfl
    · rw [pow_one]
      exact hdigit.singleton
  | e + 2 =>
    have htext : tailText (e + 2) = ascii "\\d\x7b" ++ [digit (e + 2), closingBrace] := by
      rw [tailText, if_neg (by omega), if_neg (by omega), decimalNat_of_lt he]
      rfl
    refine ⟨[rep Perl.digit (e + 2) (some (e + 2))], ?_, (hdigit.rep _).singleton⟩
    have hbegin : (ascii "\\d\x7b").foldlM State.feed ⟨[], ⟨false, [], items, repeatable⟩, .items⟩ =
        some ⟨[], ⟨false, [], Perl.digit :: items, true⟩, .count none⟩ := rfl
    rw [htext, List.foldlM_append, hbegin, Option.bind_eq_bind, Option.bind_some,
      State.foldlM_feed (feed_count he _ _), ← List.reverse_cons]
    rfl

/-- The numerals of a span: the digits of the front, one at the rank, and the rest. -/
theorem mem_span_iff {s : Span} (hlast : s.last < 10) (hpos : 0 < s.front * 10 + s.first)
    {t : Text} :
    (∃ z, s.lo 10 ≤ z ∧ z ≤ s.hi 10 ∧ t = decimalNat z) ↔
      ∃ d ds, s.first ≤ d ∧ d ≤ s.last ∧ ds.length = s.rank ∧ (∀ b ∈ ds, IsDigit b) ∧
        t = frontText s.front ++ [digit d] ++ ds := by
  constructor
  · rintro ⟨z, hlo, hhi, rfl⟩
    obtain ⟨hge, hle⟩ := (s.mem_iff (by omega)).mp ⟨hlo, hhi⟩
    obtain ⟨d, hd⟩ : ∃ d, z / 10 ^ s.rank = s.front * 10 + d :=
      ⟨z / 10 ^ s.rank - s.front * 10, by omega⟩
    obtain ⟨ds, hlen, hds, heq⟩ := exists_digits_of_div (by omega) hd
    refine ⟨d, ds, by omega, by omega, hlen, hds, ?_⟩
    rw [heq, decimalNat_front (by omega)]
  · rintro ⟨d, ds, hge, hle, hlen, hds, rfl⟩
    have hq : 0 < s.front * 10 + d := by omega
    obtain ⟨z, hz, heq⟩ := exists_div_of_digits hq hds
    rw [hlen] at hz
    rw [← decimalNat_front (by omega)]
    have hmem : s.lo 10 ≤ z ∧ z ≤ s.hi 10 := (s.mem_iff (by omega)).mpr (by omega)
    exact ⟨z, hmem.1, hmem.2, heq.symm⟩

/-- The text of a span reads as an expression that matches its numerals. -/
theorem spanText_whole {s : Span} (hle : s.first ≤ s.last) (hlast : s.last < 10)
    (hrank : s.rank < 10) (hpos : 0 < s.front * 10 + s.first) :
    ∃ r, parse (spanText s) = some r ∧
      ∀ t, r.Whole t ↔ ∃ z, s.lo 10 ≤ z ∧ z ≤ s.hi 10 ∧ t = decimalNat z := by
  have hfront : ∀ b ∈ frontText s.front, b ∉ special := fun b hb =>
    not_mem_special_of_isDigit (frontText_digits s.front b hb)
  obtain ⟨p, hrankText, hp⟩ :=
    foldlM_rankText [] ((Frame.new false).word (frontText s.front)) hle hlast
  obtain ⟨rs, htail, hrs⟩ := exists_tail_regex hrank
    (set p :: ((Frame.new false).word (frontText s.front)).items) true
  have hword : (frontText s.front).foldlM State.feed .init =
      some ⟨[], (Frame.new false).word (frontText s.front), .items⟩ :=
    State.foldlM_word rfl hfront
  have hitems : (set p :: ((Frame.new false).word (frontText s.front)).items).reverse =
      (frontText s.front).map lit ++ [set p] := by
    rw [List.reverse_cons]
    show (((frontText s.front).map lit).reverse ++ []).reverse ++ [set p] = _
    rw [List.append_nil, List.reverse_reverse]
  have hparse : parse (spanText s) = some (seqs ((frontText s.front).map lit ++ [set p] ++ rs)) := by
    rw [parse, spanText, List.foldlM_append, List.foldlM_append, hword, Option.bind_eq_bind,
      Option.bind_some, hrankText, Option.bind_some, ← hitems]
    exact htail
  have hdenotes := ((denotes_word (frontText s.front)).append (denotes_set p).singleton).append hrs
  refine ⟨_, hparse, ?_⟩
  intro t
  rw [hdenotes.whole, mem_span_iff hlast hpos]
  simp only [Language.mem_mul, mem_letters_pow, isDigitByte_iff]
  constructor
  · rintro ⟨_, ⟨w, rfl, _, ⟨b, hb, rfl⟩, rfl⟩, ds, ⟨hlen, hds⟩, rfl⟩
    obtain ⟨d, hge, hle, rfl⟩ := (hp b).mp hb
    exact ⟨d, ds, hge, hle, hlen, hds, rfl⟩
  · rintro ⟨d, ds, hge, hle, hlen, hds, rfl⟩
    exact ⟨_, ⟨_, rfl, _, ⟨_, (hp _).mpr ⟨d, hge, hle, rfl⟩, rfl⟩, rfl⟩, ds, ⟨hlen, hds⟩, rfl⟩

end Ivy.Interval
