import Ivy.Discovery.Start
import Ivy.Lib.Split
import Mathlib.Data.List.Count
import Mathlib.Data.List.Induction
import Mathlib.Tactic.IntervalCases
import Mathlib.Tactic.Ring

/-! The networks that a bus string lists, and the hellos of `IvyStart`. -/
namespace Ivy.Discovery
open Split

def IsNumber (c : Text) : Prop :=
  c ≠ [] ∧ c.length ≤ 3 ∧ (∀ b ∈ c, IsDigit b) ∧ digitsValue c ≤ 255

instance (c : Text) : Decidable (IsNumber c) := inferInstanceAs (Decidable (_ ∧ _))

/-- One to four numbers between points. -/
def IsNetwork (e : Text) : Prop :=
  (e.splitOn point).length ≤ 4 ∧ ∀ c ∈ e.splitOn point, IsNumber c

instance (e : Text) : Decidable (IsNetwork e) := inferInstanceAs (Decidable (_ ∧ _))

/-- Four bytes of which the first are given. -/
def address (numbers : List ℕ) : UInt32 :=
  UInt32.ofNat ((numbers ++ List.replicate (4 - numbers.length) 255).foldl (256 * · + ·) 0)

def unspaced (e : Text) : Text := e.filter (· ≠ space)

def network (e : Text) : Option UInt32 :=
  if IsNetwork (unspaced e) then some (address (((unspaced e).splitOn point).map digitsValue))
  else none

def networks (addr : Text) : List UInt32 := (addr.splitOn comma).filterMap network

def Action.isHello : Action → Bool
  | .socketSendBroadcast _ _ _ | .socketSendBroadcast6 _ _ _ => true
  | .socketAddMember _ | .socketAddMember6 _ => false

/-- The hellos are one to each of the hosts, in order. -/
def Greets (app : Application) (port : UInt16) (hosts : List UInt32)
    (result : Option (List Action)) : Prop :=
  result.map (·.filter Action.isHello) =
    some (hosts.map fun host => .socketSendBroadcast host port app.hello)

instance (app : Application) (port : UInt16) (hosts : List UInt32) (result : Option (List Action)) :
    Decidable (Greets app port hosts result) := inferInstanceAs (Decidable (_ = _))

/-! ### The bytes of the mask -/

private theorem testBit_ones (s i : ℕ) : (2 ^ s - 1).testBit i = decide (i < s) :=
  Nat.testBit_two_pow_sub_one s i

private theorem set_byte {v : ℕ} (hv : v < 256) (hi s : ℕ) :
    (2 ^ s * (256 * hi + 255) + (2 ^ s - 1)) ^^^ (255 * 2 ^ s) ||| (v * 2 ^ s) =
      2 ^ s * (256 * hi + v) + (2 ^ s - 1) := by
  have hs : 2 ^ s - 1 < 2 ^ s := Nat.sub_one_lt (by positivity)
  apply Nat.eq_of_testBit_eq
  intro i
  have hbyte (n : ℕ) (hn : n < 256) (j : ℕ) :
      (256 * hi + n).testBit j = if j < 8 then n.testBit j else hi.testBit (j - 8) :=
    Nat.testBit_two_pow_mul_add (i := 8) hi hn j
  have hhigh (n : ℕ) (hn : 8 ≤ i - s) (hlt : n < 256) : n.testBit (i - s) = false := by
    have hpow : 2 ^ 8 ≤ 2 ^ (i - s) := Nat.pow_le_pow_right (by omega) hn
    exact Nat.testBit_lt_two_pow (hlt.trans_le hpow)
  simp only [Nat.testBit_or, Nat.testBit_xor, Nat.testBit_two_pow_mul_add _ hs, testBit_ones,
    Nat.testBit_mul_two_pow]
  by_cases hlow : i < s
  · simp [hlow, Nat.not_le.mpr hlow]
  · rw [if_neg hlow, if_neg hlow, hbyte 255 (by omega), hbyte v hv]
    by_cases h8 : i - s < 8
    · have hone : (255 : ℕ).testBit (i - s) = true := by
        rw [show 255 = 2 ^ 8 - 1 from rfl, testBit_ones, decide_eq_true h8]
      simp [h8, hone, Nat.not_lt.mp hlow]
    · have h255 := hhigh 255 (Nat.not_lt.mp h8) (by omega)
      have hv := hhigh v (Nat.not_lt.mp h8) hv
      simp [h8, h255, hv]

private theorem foldl_ones (n a : ℕ) :
    (List.replicate n 255).foldl (256 * · + ·) a = 2 ^ (8 * n) * a + (2 ^ (8 * n) - 1) := by
  induction n generalizing a with
  | zero => simp
  | succ n ih =>
    have hpow : 0 < 2 ^ (8 * n) := by positivity
    have hsplit : 2 ^ (8 * (n + 1)) = 2 ^ (8 * n) * 256 := by rw [Nat.mul_succ, Nat.pow_add]
    have hmul : 2 ^ (8 * n) * (256 * a + 255) = 2 ^ (8 * n) * 256 * a + 2 ^ (8 * n) * 255 := by ring
    rw [List.replicate_succ, List.foldl_cons, ih, hsplit, hmul]
    omega

def Bytes (numbers : List ℕ) : Prop := ∀ n ∈ numbers, n < 256

private theorem foldl_bytes {numbers : List ℕ} (h : Bytes numbers) :
    numbers.foldl (256 * · + ·) 0 < 2 ^ (8 * numbers.length) := by
  induction numbers using List.reverseRecOn with
  | nil => simp
  | append_singleton numbers n ih =>
    have hn : n < 256 := h n (by simp)
    have hlt := ih fun m hm => h m (List.mem_append_left _ hm)
    rw [List.foldl_append, List.foldl_cons, List.foldl_nil, List.length_append, List.length_singleton,
      Nat.mul_add, Nat.pow_add]
    omega

private theorem address_toNat {numbers : List ℕ} (h : Bytes numbers) {k : ℕ}
    (hk : numbers.length + k = 4) : (address numbers).toNat =
      2 ^ (8 * k) * numbers.foldl (256 * · + ·) 0 + (2 ^ (8 * k) - 1) := by
  have hbytes := foldl_bytes h
  have hlength : 4 - numbers.length = k := by omega
  have hpow : 2 ^ (8 * k) * 2 ^ (8 * numbers.length) = 2 ^ 32 := by
    rw [← Nat.pow_add]
    congr 1
    omega
  have hlt : 2 ^ (8 * k) * (numbers.foldl (256 * · + ·) 0 + 1) ≤ 2 ^ 32 :=
    hpow ▸ Nat.mul_le_mul_left _ hbytes
  have hpos : 0 < 2 ^ (8 * k) := by positivity
  rw [address, hlength, List.foldl_append, foldl_ones, UInt32.toNat_ofNat']
  rw [Nat.mul_succ] at hlt
  omega

private theorem toNat_shiftLeft_byte {n : UInt32} (hn : n.toNat < 256) {k : ℕ} (hk : k ≤ 3) :
    (n <<< UInt32.ofNat (8 * k)).toNat = n.toNat * 2 ^ (8 * k) := by
  have hpow : 2 ^ (8 * k) ≤ 2 ^ 24 := Nat.pow_le_pow_right (by omega) (by omega)
  have hlt : n.toNat * 2 ^ (8 * k) < 2 ^ 32 := by
    calc n.toNat * 2 ^ (8 * k) ≤ 255 * 2 ^ 24 := Nat.mul_le_mul (by omega) hpow
      _ < 2 ^ 32 := by omega
  have hshift : (UInt32.ofNat (8 * k)).toNat % 32 = 8 * k := by
    rw [UInt32.toNat_ofNat']
    omega
  rw [UInt32.toNat_shiftLeft, hshift, Nat.shiftLeft_eq, Nat.mod_eq_of_lt hlt]

/-- The exclusive or clears the byte of a component, which the last operation sets. -/
theorem shifted_address {numbers : List ℕ} (h : Bytes numbers) (hlength : numbers.length ≤ 3)
    (elem : UInt8) :
    address numbers ^^^ (0xff <<< UInt32.ofNat (8 * (3 - numbers.length))) |||
        elem.toUInt32 <<< UInt32.ofNat (8 * (3 - numbers.length)) =
      address (numbers ++ [elem.toNat]) := by
  obtain ⟨k, hk⟩ : ∃ k, numbers.length + (k + 1) = 4 := ⟨3 - numbers.length, by omega⟩
  have hshift : 3 - numbers.length = k := by omega
  have helem := elem.toNat_lt
  have hnext : Bytes (numbers ++ [elem.toNat]) := by
    intro n hn
    rcases List.mem_append.mp hn with hn | hn
    · exact h n hn
    · rw [List.mem_singleton.mp hn]
      exact helem
  have hbefore : (address numbers).toNat =
      2 ^ (8 * k) * (256 * numbers.foldl (256 * · + ·) 0 + 255) + (2 ^ (8 * k) - 1) := by
    have hpow : 2 ^ (8 * (k + 1)) = 2 ^ (8 * k) * 256 := by rw [Nat.mul_succ, Nat.pow_add]
    have hpos : 0 < 2 ^ (8 * k) := by positivity
    rw [address_toNat h hk, hpow, Nat.mul_assoc, Nat.mul_add]
    omega
  have hafter : (address (numbers ++ [elem.toNat])).toNat =
      2 ^ (8 * k) * (256 * numbers.foldl (256 * · + ·) 0 + elem.toNat) + (2 ^ (8 * k) - 1) := by
    rw [address_toNat hnext (k := k) (by rw [List.length_append, List.length_singleton]; omega),
      List.foldl_append, List.foldl_cons, List.foldl_nil]
  apply UInt32.toNat_inj.mp
  rw [hshift, UInt32.toNat_or, UInt32.toNat_xor, toNat_shiftLeft_byte (by decide) (by omega),
    toNat_shiftLeft_byte (by simpa using helem) (by omega), hbefore, hafter, UInt8.toNat_toUInt32]
  exact set_byte helem _ _

/-! ### One element of the list -/

/-- One round inside an element. -/
def readByte (d : Decode) (b : UInt8) : Option Decode := (decodeByte d b).map Prod.fst

def readBytes (d : Decode) (e : Text) : Option Decode := e.foldlM readByte d

def Inside (b : UInt8) : Prop := b ≠ comma ∧ b ≠ colon ∧ b ≠ 0

def byteValue (c : Text) : UInt8 := UInt8.ofNat (digitsValue c)

/-- What the variables hold after some digits and points, as long as these are no error. -/
structure Reading (w : Text) (parts : List Text) (last : Text) (d : Decode) : Prop where
  split : w.splitOn point = parts ++ [last]
  legal : ∀ b ∈ w, IsDigit b ∨ b = point
  few : parts.length ≤ 4
  full : parts.length = 4 → last = []
  eq : d = ⟨address (parts.map fun c => (byteValue c).toNat), byteValue last, 0, parts.length, false⟩

/-- The loop sees an error in the element, before its fifth point. -/
def Malformed (e : Text) : Prop :=
  ∃ pre c post, e = pre ++ c :: post ∧ (∀ b ∈ pre, IsDigit b ∨ b = point) ∧ pre.count point ≤ 4 ∧
    if IsDigit c then pre.count point = 4 else c ≠ point

theorem Reading.count {w last : Text} {parts : List Text} {d : Decode} (h : Reading w parts last d) :
    w.count point = parts.length := by
  have hlength := length_splitOn point w
  rw [h.split, List.length_append, List.length_singleton] at hlength
  omega

theorem reading_nil : Reading [] [] [] Decode.start where
  split := rfl
  legal := by simp
  few := by simp
  full _ := rfl
  eq := rfl

theorem byteValue_concat (c : Text) {b : UInt8} (hb : IsDigit b) :
    byteValue (c ++ [b]) = 10 * byteValue c + b - 48 := by
  have hlo := hb.1
  have hlt := b.toNat_lt
  apply UInt8.toNat_inj.mp
  rw [byteValue, digitsValue_concat]
  simp only [UInt8.toNat_ofNat', UInt8.toNat_sub, UInt8.toNat_add, UInt8.toNat_mul, byteValue,
    UInt8.toNat_ofNat]
  omega

theorem malformed_append {w : Text} (h : Malformed w) (w' : Text) : Malformed (w ++ w') := by
  obtain ⟨pre, c, post, rfl, h⟩ := h
  exact ⟨pre, c, post ++ w', by simp, h⟩

private theorem not_isDigit_point : ¬ IsDigit point := by decide

theorem Reading.addDigit {w last : Text} {parts : List Text} {d : Decode} {b : UInt8}
    (h : Reading w parts last d) (hb : IsDigit b) (hfew : parts.length < 4) :
    ∃ d', readByte d b = some d' ∧ Reading (w ++ [b]) parts (last ++ [b]) d' := by
  have hne : b ≠ point := fun heq => not_isDigit_point (heq ▸ hb)
  have hstep : readByte d b = some { d with elem := 10 * d.elem + b - 48 } := by
    rw [readByte, decodeByte, h.eq, if_pos ⟨rfl, hb⟩, if_pos ⟨Nat.zero_lt_succ 2, hfew⟩]
    rfl
  refine ⟨_, hstep, splitOn_concat_of_ne hne h.split, ?_, h.few, fun hfull => absurd hfull (by omega), ?_⟩
  · intro c hc
    rcases List.mem_append.mp hc with hc | hc
    · exact h.legal c hc
    · exact .inl (List.mem_singleton.mp hc ▸ hb)
  · rw [byteValue_concat last hb, h.eq]

theorem Reading.shifted {w last : Text} {parts : List Text} {d : Decode}
    (h : Reading w parts last d) : d.shifted = if parts.length ≤ 3 then
      some (address ((w.splitOn point).map fun c => (byteValue c).toNat)) else none := by
  have hbytes : Bytes (parts.map fun c => (byteValue c).toNat) := by
    intro n hn
    obtain ⟨c, -, rfl⟩ := List.mem_map.mp hn
    exact (byteValue c).toNat_lt
  rw [h.eq, h.split, Decode.shifted]
  dsimp only
  split_ifs with hfew
  · have hmask := shifted_address hbytes (by simpa using hfew) (byteValue last)
    rw [List.length_map] at hmask
    rw [hmask, List.map_append, List.map_cons, List.map_nil]
  · rfl

theorem Reading.endPart {w last : Text} {parts : List Text} {d : Decode} (h : Reading w parts last d)
    (hfew : parts.length ≤ 3) :
    ∃ d', readByte d point = some d' ∧ Reading (w ++ [point]) (parts ++ [last]) [] d' := by
  have hstep : readByte d point = some
      ⟨address ((w.splitOn point).map fun c => (byteValue c).toNat), 0, 0, parts.length + 1, false⟩ := by
    have hshift := h.shifted
    rw [if_pos hfew] at hshift
    rw [readByte, decodeByte, if_neg fun hdigit => not_isDigit_point hdigit.2,
      if_pos ⟨by rw [h.eq], .inl rfl⟩, hshift, h.eq]
    rfl
  refine ⟨_, hstep, ?_, ?_, ?_, fun _ => rfl, ?_⟩
  · rw [splitOn_concat_self, h.split]
  · intro c hc
    rcases List.mem_append.mp hc with hc | hc
    · exact h.legal c hc
    · exact .inr (List.mem_singleton.mp hc)
  · rw [List.length_append, List.length_singleton]
    omega
  · rw [h.split, List.length_append, List.length_singleton]
    rfl

/-- Any other byte is an error, and so is a digit after the fourth point. -/
theorem Reading.error {w last : Text} {parts : List Text} {d : Decode} {b : UInt8}
    (h : Reading w parts last d) (hb : Inside b) (hspace : b ≠ space)
    (hbad : if IsDigit b then parts.length = 4 else b ≠ point) :
    readByte d b = some { d with error := true } ∧ Malformed (w ++ [b]) := by
  obtain ⟨hcomma, hcolon, hzero⟩ := hb
  constructor
  · rw [readByte, decodeByte, h.eq]
    split_ifs at hbad with hdigit
    · rw [if_pos ⟨rfl, hdigit⟩, if_neg (by dsimp only; omega)]
      rfl
    · rw [if_neg (by simp [hdigit]), if_neg (by simp [hbad, hcomma, hcolon, hzero]),
        if_neg (by simp [hcomma, hcolon, hzero]), if_neg hspace]
      rfl
  · refine ⟨w, b, [], rfl, h.legal, h.count ▸ h.few, ?_⟩
    rw [h.count]
    exact hbad

/-- A digit or a point goes on, or the byte is an error, or the shift is undefined. -/
theorem readByte_reading {w last : Text} {parts : List Text} {d : Decode} {b : UInt8}
    (h : Reading w parts last d) (hb : Inside b) (hspace : b ≠ space) :
    (∃ parts last d', readByte d b = some d' ∧ Reading (w ++ [b]) parts last d') ∨
    (∃ d', readByte d b = some d' ∧ d'.error = true ∧ Malformed (w ++ [b])) ∨
    readByte d b = none ∧ b = point ∧ w.count point = 4 := by
  have hfew := h.few
  by_cases hbad : if IsDigit b then parts.length = 4 else b ≠ point
  · have herror := h.error hb hspace hbad
    exact .inr (.inl ⟨_, herror.1, rfl, herror.2⟩)
  · split_ifs at hbad with hdigit
    · obtain ⟨d', hd'⟩ := h.addDigit hdigit (by omega)
      exact .inl ⟨_, _, d', hd'⟩
    · have hpoint : b = point := not_not.mp hbad
      subst hpoint
      by_cases hlast : parts.length ≤ 3
      · obtain ⟨d', hd'⟩ := h.endPart hlast
        exact .inl ⟨_, _, d', hd'⟩
      · refine .inr (.inr ⟨?_, rfl, by rw [h.count]; omega⟩)
        rw [readByte, decodeByte, if_neg fun hdigit => not_isDigit_point hdigit.2,
          if_pos ⟨by rw [h.eq], .inl rfl⟩, h.shifted, if_neg hlast]
        rfl

theorem readByte_error {d : Decode} {b : UInt8} (h : d.error = true) (hb : Inside b) :
    ∃ d', readByte d b = some d' ∧ d'.error = true := by
  obtain ⟨hcomma, hcolon, hzero⟩ := hb
  rw [readByte, decodeByte, if_neg (by simp [h]), if_neg (by simp [h]),
    if_neg (by simp [hcomma, hcolon, hzero])]
  split_ifs
  · exact ⟨d, rfl, h⟩
  · exact ⟨_, rfl, rfl⟩

theorem readBytes_concat (d : Decode) (w : Text) (b : UInt8) :
    readBytes d (w ++ [b]) = (readBytes d w).bind fun d => readByte d b := by
  rw [readBytes, List.foldlM_append]
  cases hd : w.foldlM readByte d <;> simp [readBytes, hd]

theorem readBytes_error {d : Decode} (h : d.error = true) {w : Text} (hw : ∀ b ∈ w, Inside b) :
    ∃ d', readBytes d w = some d' ∧ d'.error = true := by
  induction w using List.reverseRecOn with
  | nil => exact ⟨d, rfl, h⟩
  | append_singleton w b ih =>
    obtain ⟨d', hd', herror⟩ := ih fun c hc => hw c (List.mem_append_left _ hc)
    rw [readBytes_concat, hd']
    exact readByte_error herror (hw b (by simp))

/-- The bytes of an element without its spaces. -/
def Element (w : Text) : Prop := ∀ b ∈ w, Inside b ∧ b ≠ space

/-- As long as the loop is defined it goes on reading, or it has seen an error. -/
theorem readBytes_start {w : Text} (hw : Element w) {d : Decode}
    (hd : readBytes Decode.start w = some d) :
    (∃ parts last, Reading w parts last d) ∨ d.error = true ∧ Malformed w := by
  induction w using List.reverseRecOn generalizing d with
  | nil => exact .inl ⟨[], [], Option.some.inj hd ▸ reading_nil⟩
  | append_singleton w b ih =>
    rw [readBytes_concat] at hd
    obtain ⟨d₀, hd₀, hstep⟩ := Option.bind_eq_some_iff.mp hd
    obtain ⟨hb, hspace⟩ := hw b (by simp)
    rcases ih (fun c hc => hw c (List.mem_append_left _ hc)) hd₀ with ⟨parts, last, h⟩ | ⟨herror, hbad⟩
    · rcases readByte_reading h hb hspace with ⟨parts, last, d', hd', h⟩ | ⟨d', hd', h⟩ | ⟨hnone, -⟩
      · exact .inl ⟨parts, last, Option.some.inj (hd'.symm.trans hstep) ▸ h⟩
      · exact .inr (Option.some.inj (hd'.symm.trans hstep) ▸ h)
      · exact absurd (hnone.symm.trans hstep) (by simp)
    · obtain ⟨d', hd', herror⟩ := readByte_error herror hb
      exact .inr ⟨Option.some.inj (hd'.symm.trans hstep) ▸ herror, malformed_append hbad _⟩

/-- Four points are read without an undefined shift. -/
theorem readBytes_ne_none {w : Text} (hw : Element w) (hcount : w.count point ≤ 4) :
    ∃ d, readBytes Decode.start w = some d := by
  induction w using List.reverseRecOn with
  | nil => exact ⟨_, rfl⟩
  | append_singleton w b ih =>
    have hinit : Element w := fun c hc => hw c (List.mem_append_left _ hc)
    obtain ⟨hb, hspace⟩ := hw b (by simp)
    rw [List.count_append] at hcount
    obtain ⟨d, hd⟩ := ih hinit (by omega)
    rw [readBytes_concat, hd, Option.bind_some]
    rcases readBytes_start hinit hd with ⟨parts, last, h⟩ | ⟨herror, -⟩
    · rcases readByte_reading h hb hspace with ⟨_, _, d', hd', -⟩ | ⟨d', hd', -⟩ | ⟨-, hpoint, hfour⟩
      · exact ⟨d', hd'⟩
      · exact ⟨d', hd'⟩
      · rw [hpoint, List.count_singleton_self] at hcount
        omega
    · obtain ⟨d', hd', -⟩ := readByte_error herror hb
      exact ⟨d', hd'⟩

theorem readBytes_malformed {w : Text} (hw : Element w) (h : Malformed w) :
    ∃ d, readBytes Decode.start w = some d ∧ d.error = true := by
  obtain ⟨pre, c, post, rfl, -, hcount, hbad⟩ := h
  have hpre : Element pre := fun b hb => hw b (List.mem_append_left _ hb)
  have hpost : ∀ b ∈ post, Inside b := fun b hb =>
    (hw b (List.mem_append_right _ (List.mem_cons_of_mem c hb))).1
  obtain ⟨hc, hspace⟩ := hw c (by simp)
  obtain ⟨d, hd⟩ := readBytes_ne_none hpre hcount
  have hstep : ∃ d', readByte d c = some d' ∧ d'.error = true := by
    rcases readBytes_start hpre hd with ⟨parts, last, h⟩ | ⟨herror, -⟩
    · rw [h.count] at hbad
      exact ⟨_, (h.error hc hspace hbad).1, rfl⟩
    · exact readByte_error herror hc
  obtain ⟨d', hd', herror⟩ := hstep
  obtain ⟨d'', hd'', herror⟩ := readBytes_error herror hpost
  have hsplit : readBytes Decode.start (pre ++ c :: post) =
      (readBytes Decode.start pre).bind fun d => (readByte d c).bind fun d => readBytes d post := by
    rw [readBytes, List.foldlM_append]
    rfl
  rw [hsplit, hd, Option.bind_some, hd', Option.bind_some]
  exact ⟨d'', hd'', herror⟩

theorem readByte_space (d : Decode) : readByte d space = some d := by
  have hdigit : ¬ IsDigit space := by decide
  have hpoint : ¬ (space = point ∨ space = comma ∨ space = colon ∨ space = 0) := by decide
  have hsep : ¬ (space = comma ∨ space = colon ∨ space = 0) := by decide
  rw [readByte, decodeByte, if_neg fun h => hdigit h.2, if_neg fun h => hpoint h.2, if_neg hsep,
    if_pos rfl]
  rfl

theorem readBytes_unspaced (d : Decode) (e : Text) : readBytes d (unspaced e) = readBytes d e := by
  induction e generalizing d with
  | nil => rfl
  | cons b e ih =>
    by_cases hb : b = space
    · have hskip : unspaced (b :: e) = unspaced e := by simp [unspaced, hb]
      have hread : readBytes d (space :: e) = (readByte d space).bind fun d => readBytes d e := rfl
      rw [hskip, ih, hb, hread, readByte_space]
      rfl
    · have hkeep : unspaced (b :: e) = b :: unspaced e := by simp [unspaced, hb]
      rw [hkeep]
      show (readByte d b).bind (fun d => readBytes d (unspaced e)) =
        (readByte d b).bind fun d => readBytes d e
      rw [funext ih]

/-- All ends of an element do the same. -/
theorem decodeByte_end {t : UInt8} (ht : t = comma ∨ t = colon ∨ t = 0) (d : Decode) :
    decodeByte d t = if d.error = true then some (Decode.start, none)
      else d.shifted.map fun mask => (Decode.start, some mask) := by
  have hdigit : ¬ IsDigit t := by rcases ht with rfl | rfl | rfl <;> decide
  have hpoint : t ≠ point := by rcases ht with rfl | rfl | rfl <;> decide
  rw [decodeByte, if_neg fun h => hdigit h.2]
  cases herror : d.error with
  | true => rw [if_neg (by simp), if_pos ht, if_pos rfl]
  | false =>
    rw [if_pos ⟨rfl, .inr ht⟩, if_neg Bool.false_ne_true]
    simp only [if_neg hpoint]
    rfl

def sentFor (e : Text) : Option (Option UInt32) :=
  (readBytes Decode.start (unspaced e)).bind fun d => (decodeByte d 0).map Prod.snd

theorem element_unspaced {e : Text} (he : ∀ b ∈ e, Inside b) : Element (unspaced e) := by
  intro b hb
  obtain ⟨hmem, hspace⟩ := List.mem_filter.mp hb
  exact ⟨he b hmem, by simpa using hspace⟩

theorem not_isNetwork_of_malformed {w : Text} (h : Malformed w) : ¬ IsNetwork w := by
  intro hnetwork
  obtain ⟨pre, c, post, rfl, -, -, hbad⟩ := h
  have hcount : (pre ++ c :: post).count point ≤ 3 := by
    have hlength := hnetwork.1
    rw [length_splitOn] at hlength
    omega
  split_ifs at hbad with hdigit
  · rw [List.count_append] at hcount
    omega
  · rcases eq_or_exists_mem_splitOn (x := point) (show c ∈ pre ++ c :: post by simp) with h | ⟨part, hpart, hc⟩
    · exact hbad h
    · exact hdigit ((hnetwork.2 part hpart).2.2.1 c hc)

private theorem map_byteValue {parts : List Text} (h : ∀ c ∈ parts, IsNumber c) :
    parts.map (fun c => (byteValue c).toNat) = parts.map digitsValue := by
  apply List.map_congr_left
  intro c hc
  have hvalue := (h c hc).2.2.2
  rw [byteValue, UInt8.toNat_ofNat']
  omega

theorem sentFor_reading {e last : Text} {parts : List Text} {d : Decode}
    (hd : readBytes Decode.start (unspaced e) = some d) (h : Reading (unspaced e) parts last d) :
    sentFor e = if parts.length ≤ 3 then
      some (some (address (((unspaced e).splitOn point).map fun c => (byteValue c).toNat)))
      else none := by
  have herror : d.error ≠ true := by simp [h.eq]
  rw [sentFor, hd, Option.bind_some, decodeByte_end (.inr (.inr rfl)), if_neg herror, h.shifted]
  split_ifs <;> rfl

theorem sentFor_malformed {e : Text} (he : ∀ b ∈ e, Inside b) (h : Malformed (unspaced e)) :
    sentFor e = some none ∧ network e = none := by
  obtain ⟨d, hd, herror⟩ := readBytes_malformed (element_unspaced he) h
  constructor
  · rw [sentFor, hd, Option.bind_some, decodeByte_end (.inr (.inr rfl)), if_pos herror]
    rfl
  · rw [network, if_neg (not_isNetwork_of_malformed h)]

theorem sentFor_network {e : Text} (he : ∀ b ∈ e, Inside b) (h : IsNetwork (unspaced e)) :
    sentFor e = some (network e) := by
  have hcount : (unspaced e).count point ≤ 3 := by
    have hlength := h.1
    rw [length_splitOn] at hlength
    omega
  obtain ⟨d, hd⟩ := readBytes_ne_none (element_unspaced he) (by omega)
  rcases readBytes_start (element_unspaced he) hd with ⟨parts, last, hr⟩ | ⟨-, hbad⟩
  · rw [sentFor_reading hd hr, if_pos (by rw [← hr.count]; exact hcount), map_byteValue h.2, network,
      if_pos h]
  · exact absurd h (not_isNetwork_of_malformed hbad)

/-- Where the code sends nothing for an element, it has seen an error in it. -/
theorem malformed_of_sentFor {e : Text} (he : ∀ b ∈ e, Inside b) (h : sentFor e = some none) :
    Malformed (unspaced e) := by
  obtain ⟨d, hd, -⟩ := Option.bind_eq_some_iff.mp h
  rcases readBytes_start (element_unspaced he) hd with ⟨parts, last, hr⟩ | ⟨-, hbad⟩
  · rw [sentFor_reading hd hr] at h
    split_ifs at h
    exact absurd (Option.some.inj h) (Option.some_ne_none _)
  · exact hbad

/-- An element is treated as it should exactly if it is a network, or seen as an error. -/
theorem sentFor_eq_iff {e : Text} (he : ∀ b ∈ e, Inside b) :
    sentFor e = some (network e) ↔ IsNetwork (unspaced e) ∨ Malformed (unspaced e) := by
  constructor
  · intro h
    by_cases hnetwork : IsNetwork (unspaced e)
    · exact .inl hnetwork
    · rw [network, if_neg hnetwork] at h
      exact .inr (malformed_of_sentFor he h)
  · rintro (h | h)
    · exact sentFor_network he h
    · obtain ⟨hsent, hnone⟩ := sentFor_malformed he h
      rw [hsent, hnone]

/-! ### The whole list -/

theorem decodeByte_inside {d : Decode} {b : UInt8} (hb : Inside b) :
    decodeByte d b = (readByte d b).map fun d => (d, none) := by
  obtain ⟨hcomma, hcolon, hzero⟩ := hb
  rw [readByte, decodeByte]
  simp only [hcomma, hcolon, hzero, or_false, if_false]
  split_ifs with hdigit hroom hpoint hother
  · rfl
  · rfl
  · cases d.shifted <;> rfl
  · exact absurd hpoint.2 hother
  · rfl
  · rfl

theorem decodeLoop_append {e : Text} (he : ∀ b ∈ e, Inside b) (d : Decode) (p : Text) :
    decodeLoop d (e ++ p) = (readBytes d e).bind fun d => decodeLoop d p := by
  induction e generalizing d with
  | nil => rfl
  | cons b e ih =>
    have hb := he b List.mem_cons_self
    rw [List.cons_append, decodeLoop, decodeByte_inside hb]
    show _ = ((readByte d b).bind fun d => readBytes d e).bind fun d => decodeLoop d p
    cases readByte d b with
    | none => rfl
    | some d' =>
      rw [Option.map_some, Option.bind_some, if_neg hb.2.1, ih fun c hc => he c (List.mem_cons_of_mem _ hc)]
      simp

theorem decodeLoop_element {e : Text} (he : ∀ b ∈ e, Inside b) {t : UInt8}
    (ht : t = comma ∨ t = colon) (p : Text) :
    decodeLoop Decode.start (e ++ t :: p) = (sentFor e).bind fun s =>
      if t = colon then some s.toList else (decodeLoop Decode.start p).map (s.toList ++ ·) := by
  have hend : t = comma ∨ t = colon ∨ t = 0 := ht.imp id .inl
  rw [decodeLoop_append he, sentFor, readBytes_unspaced]
  cases readBytes Decode.start e with
  | none => rfl
  | some d =>
    rw [Option.bind_some, Option.bind_some, decodeLoop, decodeByte_end hend,
      decodeByte_end (.inr (.inr rfl))]
    split_ifs with herror
    · rfl
    · rfl
    · cases d.shifted <;> rfl
    · cases d.shifted <;> rfl

theorem decodeLoop_elements {es : List Text} (hne : es ≠ []) (hes : ∀ e ∈ es, ∀ b ∈ e, Inside b)
    (p : Text) : decodeLoop Decode.start ([comma].intercalate es ++ colon :: p) =
      if ∀ e ∈ es, sentFor e ≠ none then some (es.filterMap fun e => (sentFor e).join) else none := by
  induction es with
  | nil => exact absurd rfl hne
  | cons e es ih =>
    have he := hes e List.mem_cons_self
    by_cases hlast : es = []
    · subst hlast
      rw [List.intercalate_singleton, decodeLoop_element he (.inr rfl)]
      cases hsent : sentFor e with
      | none => simp [hsent]
      | some s => cases s <;> simp [hsent]
    · have htail := ih hlast fun f hf => hes f (List.mem_cons_of_mem _ hf)
      have hsplit : [comma].intercalate (e :: es) ++ colon :: p =
          e ++ comma :: ([comma].intercalate es ++ colon :: p) := by
        rw [List.intercalate_cons_of_ne_nil hlast]
        simp
      rw [hsplit, decodeLoop_element he (.inl rfl), htail]
      cases hsent : sentFor e with
      | none => simp [hsent]
      | some s =>
        have hcomma : comma ≠ colon := by decide
        rw [Option.bind_some, if_neg hcomma]
        by_cases hall : ∀ f ∈ es, sentFor f ≠ none
        · have hcons : ∀ f ∈ e :: es, sentFor f ≠ none := by simpa [hsent] using hall
          rw [if_pos hall, if_pos hcons, List.filterMap_cons, hsent]
          cases s <;> rfl
        · have hcons : ¬ ∀ f ∈ e :: es, sentFor f ≠ none :=
            fun h => hall fun f hf => h f (List.mem_cons_of_mem _ hf)
          rw [if_neg hall, if_neg hcons]
          rfl

/-- The list is treated as it should exactly if each of its elements is. -/
theorem decodeLoop_eq_networks_iff {addr : Text} (haddr : ∀ b ∈ addr, b ≠ colon ∧ b ≠ 0) (p : Text) :
    decodeLoop Decode.start (addr ++ colon :: p) = some (networks addr) ↔
      ∀ e ∈ addr.splitOn comma, IsNetwork (unspaced e) ∨ Malformed (unspaced e) := by
  have hinside (e : Text) (he : e ∈ addr.splitOn comma) (b : UInt8) (hb : b ∈ e) : Inside b := by
    have hcomma : b ≠ comma := fun h => not_mem_of_mem_splitOn he (h ▸ hb)
    exact ⟨hcomma, haddr b (mem_of_mem_splitOn he hb)⟩
  have hloop := decodeLoop_elements (List.splitOn_ne_nil comma addr) hinside p
  rw [List.intercalate_splitOn] at hloop
  have helement (e : Text) (he : e ∈ addr.splitOn comma) := sentFor_eq_iff (hinside e he)
  have hless (e : Text) (he : e ∈ addr.splitOn comma) (hsome : sentFor e ≠ none)
      (hnone : (sentFor e).join = none) : network e = none := by
    obtain ⟨s, hs⟩ := Option.ne_none_iff_exists'.mp hsome
    rw [hs] at hnone
    have hs : sentFor e = some none := hs.trans (congrArg some hnone)
    exact (sentFor_malformed (hinside e he) (malformed_of_sentFor (hinside e he) hs)).2
  rw [hloop]
  split_ifs with hall
  · have hiff := filterMap_eq_iff (f := network) (g := fun e => (sentFor e).join)
      fun e he => hless e he (hall e he)
    rw [Option.some.injEq, eq_comm, networks, hiff]
    refine forall₂_congr fun e he => ?_
    rw [← helement e he]
    obtain ⟨s, hs⟩ := Option.ne_none_iff_exists'.mp (hall e he)
    rw [hs]
    simp [eq_comm]
  · simp only [false_iff]
    intro h
    exact hall fun e he hnone => absurd ((helement e he).mpr (h e he)) (by simp [hnone])

/-! ### The call -/

theorem filter_flatMap_broadcast (app : Application) (port : UInt16) (hosts : List UInt32) :
    (hosts.flatMap (broadcast app port)).filter Action.isHello =
      hosts.map fun host => .socketSendBroadcast host port app.hello := by
  induction hosts with
  | nil => rfl
  | cons host hosts ih =>
    have hone : (broadcast app port host).filter Action.isHello =
        [.socketSendBroadcast host port app.hello] := by
      unfold broadcast
      split_ifs <;> rfl
    rw [List.flatMap_cons, List.filter_append, ih, hone, List.map_cons, List.singleton_append]

theorem greets_map_iff (app : Application) (port : UInt16) (hosts : List UInt32)
    (sent : Option (List UInt32)) :
    Greets app port hosts (sent.map fun hosts => hosts.flatMap (broadcast app port)) ↔
      sent = some hosts := by
  have hinj : Function.Injective (List.map fun host => Action.socketSendBroadcast host port app.hello) :=
    List.map_injective_iff.mpr fun a b h => by injection h
  cases sent with
  | none => simp [Greets]
  | some sent =>
    rw [Greets, Option.map_some, Option.map_some, filter_flatMap_broadcast, Option.some.injEq,
      Option.some.injEq]
    exact hinj.eq_iff

theorem strrchr_append {c : UInt8} (s : Text) {t : Text} (h : c ∉ t) :
    strrchr (s ++ c :: t) c = some s.length := by
  have hnone : strrchr t c = none := by
    induction t with
    | nil => rfl
    | cons b t ih =>
      rw [List.mem_cons, not_or] at h
      rw [strrchr, ih h.2, if_neg (Ne.symm h.1)]
  induction s with
  | nil => simp [strrchr, hnone]
  | cons b s ih => simp [strrchr, ih]

/-- `IvyStart` greets the networks of its list exactly if the list is not empty and each of its
elements is a network, spaces removed, or seen as an error. -/
theorem ivyStart_greets_iff (app : Application) (inet_pton : Text → Option (Vector UInt8 16))
    (uninit : Option Text) (getenv : Option CString) (bus : CString) (addr port : Text)
    (hbus : bus.bytes = addr ++ colon :: port) (haddr : colon ∉ addr) (hport : colon ∉ port)
    (hvalid : UInt16.ofInt (Interval.atoi port) ≠ 0) (hlength : bus.bytes.length < 1024)
    (hipv4 : inet_pton addr = none) :
    Greets app (UInt16.ofInt (Interval.atoi port)) (networks addr)
        (ivyStart app inet_pton uninit getenv (some bus)) ↔
      addr ≠ [] ∧ ∀ e ∈ addr.splitOn comma, IsNetwork (unspaced e) ∨ Malformed (unspaced e) := by
  have hrchr : strrchr bus.bytes colon = some addr.length := hbus ▸ strrchr_append addr hport
  have hselect : orElse (some bus) (orElse getenv defaultIvyBus) = bus.bytes := by
    have hne : bus.bytes ≠ [] := by simp [hbus]
    rw [orElse, Option.elim_some, if_neg hne]
  have hbusPort : busPort bus.bytes = UInt16.ofInt (Interval.atoi port) := by
    rw [busPort, hrchr, Option.elim_some, hbus, ← List.drop_drop, List.drop_left, List.drop_one,
      List.tail_cons]
  have hbusAddr : busAddr uninit bus.bytes = some addr := by
    have hroom : addr.length < 1024 := by
      rw [hbus, List.length_append] at hlength
      omega
    rw [busAddr, hrchr]
    dsimp only
    rw [hbusPort, if_neg hvalid, if_pos hroom, hbus, List.take_left]
  have hbytes (b : UInt8) (hb : b ∈ addr) : b ≠ colon ∧ b ≠ 0 := by
    have hzero : 0 ∉ addr := fun h => bus.noZero (hbus ▸ List.mem_append_left _ h)
    exact ⟨fun h => haddr (h ▸ hb), fun h => hzero (h ▸ hb)⟩
  simp only [ivyStart, hselect, hbusAddr, hbusPort, Option.bind_some, hipv4, if_neg hvalid]
  rw [greets_map_iff, hrchr]
  by_cases hempty : addr = []
  · have hdefault : decodeLoop Decode.start defaultIvyBus = some [0x7fffffff] := by decide
    have hnone : networks [] = [] := by decide
    simp [hempty, hdefault, hnone]
  · have hlen : addr.length ≠ 0 := fun h => hempty (List.eq_nil_of_length_eq_zero h)
    rw [if_neg (by simpa using hempty), hbus, decodeLoop_eq_networks_iff hbytes]
    exact (and_iff_right hempty).symm

/-- The example of the manual: both networks are greeted. -/
theorem ivyStart_greets_manual :
    let app : Application := ⟨40000, ascii "id", ascii "app"⟩
    let addr := ascii "10.192.33,10.192.34"
    networks addr = [0x0ac021ff, 0x0ac022ff] ∧ Greets app 2345 (networks addr)
      (ivyStart app (fun _ => none) none none (some ⟨addr ++ colon :: ascii "2345", by decide⟩)) := by
  have hlist : ∀ e ∈ (ascii "10.192.33,10.192.34").splitOn comma, IsNetwork (unspaced e) := by decide
  refine ⟨by decide, ?_⟩
  exact (ivyStart_greets_iff _ (fun _ => none) none none _ (ascii "10.192.33,10.192.34") (ascii "2345")
    rfl (by decide) (by decide) (by decide) (by decide) rfl).mpr
    ⟨by decide, fun e he => .inl (hlist e he)⟩

/-- A number of four digits wraps around: the network 129 is greeted. -/
theorem ivyStart_four_digits :
    let bus : CString := ⟨ascii "1921:2010", by decide⟩
    let app : Application := ⟨40000, ascii "id", ascii "app"⟩
    networks (ascii "1921") = [] ∧
      ¬ Greets app 2010 [] (ivyStart app (fun _ => none) none none (some bus)) := by
  decide

end Ivy.Discovery
