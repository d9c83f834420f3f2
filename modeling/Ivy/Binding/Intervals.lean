import Ivy.Binding.Substitute
import Ivy.Interval.Numeral
import Ivy.Interval.RegexpGen

/-! Bind texts with intervals, and what `substituteInterval` makes of them. -/
namespace Ivy.Binding
open Ivy.Interval

/-- The numeral of an `int`. -/
structure Bound where
  text : Text
  numeral : ∃ ds, (text = ds ∨ text = minus :: ds) ∧ ds ≠ [] ∧ ∀ b ∈ ds, IsDigit b
  lower : -2 ^ 31 ≤ intValue text
  upper : intValue text < 2 ^ 31

/-- What may stand between the upper bound and the parenthesis. -/
inductive Kind
  | plain
  | integer
  | float

def Kind.text : Kind → Text
  | .plain => []
  | .integer => ascii "i"
  | .float => ascii "f"

/-- `(?Imin#max)`, `(?Imin#maxi)` or `(?Imin#maxf)`. -/
structure IntervalText where
  min : Bound
  max : Bound
  kind : Kind

def IntervalText.source (i : IntervalText) : Text :=
  intervalStart ++ i.min.text ++ [hash] ++ i.max.text ++ i.kind.text ++ [close]

def IntervalText.regexp (regexpGen : ℤ → ℤ → Bool → CString) (i : IntervalText) : Text :=
  (regexpGen (intValue i.min.text) (intValue i.max.text) (i.kind.text ≠ ascii "i")).bytes

/-- Characters in which no interval begins, and the interval after them. -/
structure Piece where
  literal : Text
  plain : ¬ intervalStart <:+: literal
  interval : IntervalText

/-- The bind text of some pieces and the characters after them. -/
def source (pieces : List Piece) (tail : Text) : Text :=
  pieces.flatMap (fun p => p.literal ++ p.interval.source) ++ tail

/-- Every interval is replaced, and every other character is kept. -/
def substituted (regexpGen : ℤ → ℤ → Bool → CString) (pieces : List Piece) (tail : Text) : Text :=
  pieces.flatMap (fun p => p.literal ++ p.interval.regexp regexpGen) ++ tail

/-! ### Reading a bind text -/

theorem find_none {t : Text} (h : ¬ intervalStart <:+: t) : find intervalStart t = none := by
  induction t with
  | nil => rfl
  | cons b t ih =>
    rw [List.infix_cons_iff, not_or] at h
    rw [find, if_neg (by simpa using h.1), ih h.2]
    rfl

private theorem not_prefix_append {b : UInt8} {t : Text} (h : ¬ intervalStart <+: b :: t)
    (rest : Text) : ¬ intervalStart <+: b :: t ++ (intervalStart ++ rest) := by
  intro hpre
  match t with
  | [] => simp [intervalStart] at hpre
  | [c] => simp [intervalStart] at hpre
  | c :: d :: t => exact h (by simpa [intervalStart] using hpre)

/-- The first interval begins after the characters in which none does. -/
theorem find_append {literal : Text} (h : ¬ intervalStart <:+: literal) (rest : Text) :
    find intervalStart (literal ++ (intervalStart ++ rest)) = some literal.length := by
  induction literal with
  | nil =>
    show (if _ then some 0 else _) = _
    rw [if_pos]
    · rfl
    · simp [intervalStart]
  | cons b t ih =>
    rw [List.infix_cons_iff, not_or] at h
    have hpre := not_prefix_append h.1 rest
    rw [List.cons_append] at hpre ⊢
    rw [find, if_neg (by simpa using hpre), ih h.2]
    rfl

theorem scanDigits_append {ds : Text} (hne : ds ≠ []) (hds : ∀ b ∈ ds, IsDigit b) {c : UInt8}
    (hc : ¬ IsDigit c) (rest : Text) :
    scanDigits (ds ++ c :: rest) = some (digitsValue ds, c :: rest) := by
  have hall : ∀ b ∈ ds, decide (IsDigit b) = true := fun b hb => by simpa using hds b hb
  have htake : (ds ++ c :: rest).takeWhile (IsDigit ·) = ds := by
    rw [List.takeWhile_append_of_pos hall, List.takeWhile_cons_of_neg (by simpa using hc),
      List.append_nil]
  have hdrop : (ds ++ c :: rest).dropWhile (IsDigit ·) = c :: rest := by
    rw [List.dropWhile_append_of_pos hall, List.dropWhile_cons_of_neg (by simpa using hc)]
  rw [scanDigits, htake, hdrop]
  simp only [if_neg hne]

theorem scanInt_bound (bound : Bound) {c : UInt8} (hc : ¬ IsDigit c) (rest : Text) :
    scanInt (bound.text ++ c :: rest) = some (intValue bound.text, c :: rest) := by
  have htoInt := toInt_of_mem bound.lower bound.upper
  obtain ⟨ds, htext, hne, hds⟩ := bound.numeral
  have hscan := scanDigits_append hne hds hc rest
  rcases htext with htext | htext
  · obtain ⟨d, ds', hd⟩ := List.exists_cons_of_ne_nil hne
    have hdigit : IsDigit d := hds d (hd ▸ List.mem_cons_self)
    have hsign : d ≠ minus ∧ d ≠ plus := by
      constructor <;> intro hd <;> simp [hd, IsDigit, minus, plus] at hdigit
    have hskip : (ds ++ c :: rest).dropWhile isSpace = d :: (ds' ++ c :: rest) := by
      rw [hd, List.cons_append]
      exact List.dropWhile_cons_of_neg (by simp [not_isSpace_of_isDigit hdigit])
    rw [htext, intValue, if_neg (head?_ne_minus hds)] at htoInt
    rw [htext, scanInt, hskip, intValue, if_neg (head?_ne_minus hds)]
    simp only [if_neg hsign.1, if_neg hsign.2]
    rw [← List.cons_append, ← hd, hscan, Option.map_some, htoInt]
  · have hskip : (minus :: (ds ++ c :: rest)).dropWhile isSpace = minus :: (ds ++ c :: rest) :=
      List.dropWhile_cons_of_neg (by decide)
    rw [htext, intValue, List.head?_cons, if_pos rfl, List.tail_cons] at htoInt
    rw [htext, List.cons_append, scanInt, hskip, intValue, List.head?_cons, if_pos rfl, List.tail_cons]
    simp only [if_pos trivial, hscan, Option.map_some, htoInt]

theorem not_mem_bound {bound : Bound} {c : UInt8} (hc : ¬ IsDigit c) (hminus : c ≠ minus) :
    c ∉ bound.text := by
  obtain ⟨ds, htext, -, hds⟩ := bound.numeral
  have hmem : c ∉ ds := fun h => hc (hds c h)
  rcases htext with htext | htext
  · exact htext ▸ hmem
  · rw [htext, List.mem_cons, not_or]
    exact ⟨hminus, hmem⟩

def Kind.next : Kind → UInt8
  | .plain => close
  | .integer => 105
  | .float => 102

theorem Kind.next_spec (k : Kind) : ¬ IsDigit k.next ∧
    (∃ rest, k.text ++ [close] = k.next :: rest) ∧ (k.next ≠ 105 ↔ k.text ≠ ascii "i") ∧
    close ∉ k.text ∧ 0 ∉ k.text := by
  cases k with
  | plain => exact ⟨by decide, ⟨[], rfl⟩, by decide, by decide, by decide⟩
  | integer => exact ⟨by decide, ⟨[close], rfl⟩, by decide, by decide, by decide⟩
  | float => exact ⟨by decide, ⟨[close], rfl⟩, by decide, by decide, by decide⟩

theorem scanInterval_source (i : IntervalText) (rest : Text) :
    scanInterval (i.source ++ rest) =
      some (intValue i.min.text, intValue i.max.text, i.kind.next) := by
  obtain ⟨hdigit, ⟨rest', hnext⟩, -⟩ := i.kind.next_spec
  have hhash : ¬ IsDigit hash := by decide
  have hdrop : (i.source ++ rest).drop intervalStart.length =
      i.min.text ++ hash :: (i.max.text ++ i.kind.next :: (rest' ++ rest)) := by
    have hkind : i.kind.next :: (rest' ++ rest) = i.kind.text ++ [close] ++ rest := by
      rw [hnext, List.cons_append]
    rw [hkind]
    simp [IntervalText.source]
  simp [scanInterval, hdrop, scanInt_bound i.min hhash, scanInt_bound i.max hdigit]

/-- The interval ends at its first parenthesis. -/
theorem strstr_source (i : IntervalText) (rest : Text) :
    strstr (i.source ++ rest) close = some (i.source.length - 1) := by
  obtain ⟨-, -, -, hclose, hzero⟩ := i.kind.next_spec
  let pre := intervalStart ++ i.min.text ++ [hash] ++ i.max.text ++ i.kind.text
  have hsource : i.source = pre ++ [close] := rfl
  have hmin (c : UInt8) (hc : ¬ IsDigit c) (hminus : c ≠ minus) : c ∉ i.min.text := not_mem_bound hc hminus
  have hmax (c : UInt8) (hc : ¬ IsDigit c) (hminus : c ≠ minus) : c ∉ i.max.text := not_mem_bound hc hminus
  have hpre : close ∉ pre ∧ 0 ∉ pre := by
    simp only [pre, List.mem_append, not_or]
    have h41 : ¬ IsDigit close := by decide
    have h0 : ¬ IsDigit 0 := by decide
    exact ⟨⟨⟨⟨⟨by decide, hmin _ h41 (by decide)⟩, by decide⟩, hmax _ h41 (by decide)⟩, hclose⟩,
      ⟨⟨⟨by decide, hmin _ h0 (by decide)⟩, by decide⟩, hmax _ h0 (by decide)⟩, hzero⟩
  have happend := strstr_append hpre.1 hpre.2 rest
  rw [hsource, List.append_assoc, List.length_append]
  exact happend

theorem regexp_withDecimal (regexpGen : ℤ → ℤ → Bool → CString) (i : IntervalText) :
    (regexpGen (intValue i.min.text) (intValue i.max.text) (i.kind.next ≠ 105)).bytes =
      i.regexp regexpGen := by
  obtain ⟨-, -, hkind, -⟩ := i.kind.next_spec
  rw [IntervalText.regexp, decide_eq_decide.mpr hkind]

/-! ### The substitution -/

section
variable {regexpGen : ℤ → ℤ → Bool → CString} {tail : Text}

theorem find_source_cons (p : Piece) (pieces : List Piece) :
    find intervalStart (source (p :: pieces) tail) = some p.literal.length := by
  have hsource : source (p :: pieces) tail = p.literal ++ (intervalStart ++
      (p.interval.source.drop intervalStart.length ++ source pieces tail)) := by
    simp [source, IntervalText.source]
  rw [hsource]
  exact find_append p.plain _

/-- One round copies the characters before an interval and what replaces it. -/
theorem substituteLoop_cons (p : Piece) (pieces : List Piece) {dst : Text}
    (hroom : dst.length + p.literal.length + (p.interval.regexp regexpGen).length < dstSize)
    (fuel : ℕ) : substituteLoop regexpGen (fuel + 1) dst (source (p :: pieces) tail) =
      substituteLoop regexpGen fuel (dst ++ p.literal ++ p.interval.regexp regexpGen)
        (source pieces tail) := by
  have hsource : source (p :: pieces) tail = p.literal ++ (p.interval.source ++ source pieces tail) := by
    simp [source]
  have hlenCp : toSizeT (Int.bmod p.literal.length (2 ^ 32)) = p.literal.length := by
    rw [dstSize] at hroom
    rw [Int.bmod_eq_of_le (by omega) (by omega), toSizeT]
    omega
  have hitv : (source (p :: pieces) tail).drop p.literal.length =
      p.interval.source ++ source pieces tail := by
    rw [hsource, List.drop_left]
  have htake : (source (p :: pieces) tail).take p.literal.length = p.literal := by
    rw [hsource, List.take_left]
  have hrest : (p.interval.source ++ source pieces tail).drop (p.interval.source.length - 1 + 1) =
      source pieces tail := by
    have hpos : 0 < p.interval.source.length := by simp [IntervalText.source]
    rw [Nat.sub_add_cancel hpos, List.drop_left]
  have hreturn : checkAndReturn (ascii "regexpGen") (dstSize - (dst.length + p.literal.length))
      (p.interval.regexp regexpGen) = .returns (p.interval.regexp regexpGen) := if_pos (by omega)
  rw [substituteLoop, find_source_cons]
  simp only [hlenCp, hitv, htake, scanInterval_source, strstr_source, regexp_withDecimal, hrest,
    hreturn, Outcome.returns_bind]
  rw [if_neg (by omega)]

theorem substituteLoop_nil (htail : ¬ intervalStart <:+: tail) (dst : Text) (fuel : ℕ) :
    substituteLoop regexpGen (fuel + 1) dst (source [] tail) = strncat dstSize dst tail := by
  have hnone : find intervalStart (source [] tail) = none := find_none htail
  rw [substituteLoop, hnone]
  rfl

/-- With room for everything, the loop appends the text with its intervals replaced. -/
theorem substituteLoop_source (htail : ¬ intervalStart <:+: tail) (pieces : List Piece) {fuel : ℕ}
    {dst : Text} (hfuel : pieces.length < fuel)
    (hroom : (dst ++ substituted regexpGen pieces tail).length < dstSize) :
    substituteLoop regexpGen fuel dst (source pieces tail) =
      .returns (dst ++ substituted regexpGen pieces tail) := by
  induction pieces generalizing fuel dst with
  | nil =>
    obtain ⟨fuel, rfl⟩ : ∃ n, fuel = n + 1 := ⟨fuel - 1, by simp at hfuel; omega⟩
    rw [List.length_append] at hroom
    rw [substituteLoop_nil htail]
    exact if_pos hroom
  | cons p pieces ih =>
    obtain ⟨fuel, rfl⟩ : ∃ n, fuel = n + 1 := ⟨fuel - 1, by simp at hfuel; omega⟩
    have hsubst : dst ++ substituted regexpGen (p :: pieces) tail =
        dst ++ p.literal ++ p.interval.regexp regexpGen ++ substituted regexpGen pieces tail := by
      simp [substituted]
    rw [hsubst] at hroom ⊢
    have hpiece : dst.length + p.literal.length + (p.interval.regexp regexpGen).length < dstSize := by
      simp only [List.length_append] at hroom
      omega
    rw [substituteLoop_cons p pieces hpiece, ih (by simpa using hfuel) hroom]

end

/-- A text in which each `(?I` begins an interval falls into pieces. -/
theorem exists_pieces {t : Text} (h : ∀ pre post, t = pre ++ (intervalStart ++ post) →
    ∃ (i : IntervalText) (rest : Text), intervalStart ++ post = i.source ++ rest) :
    ∃ pieces tail, ¬ intervalStart <:+: tail ∧ t = source pieces tail := by
  induction hn : t.length using Nat.strong_induction_on generalizing t with
  | _ n ih =>
    by_cases hplain : intervalStart <:+: t
    · have hex : ∃ k, intervalStart <+: t.drop k := by
        obtain ⟨pre, post, rfl⟩ := hplain
        exact ⟨pre.length, by simp⟩
      classical
      let k := Nat.find hex
      obtain ⟨post, hpost⟩ : intervalStart <+: t.drop k := Nat.find_spec hex
      have hsplit : t = t.take k ++ (intervalStart ++ post) := by
        rw [hpost, List.take_append_drop]
      obtain ⟨i, rest, hi⟩ := h _ _ hsplit
      have hliteral : ¬ intervalStart <:+: t.take k := by
        intro hinfix
        obtain ⟨pre', post', hinfix⟩ := hinfix
        have hbefore : intervalStart <+: t.drop pre'.length := by
          rw [← List.take_append_drop k t, ← hinfix]
          simp
        have hlength := congrArg List.length hinfix
        have hmin : k ≤ pre'.length := Nat.find_min' hex hbefore
        simp [intervalStart] at hlength
        omega
      have hlt : rest.length < n := by
        have hlength := congrArg List.length hsplit
        rw [hi] at hlength
        simp [IntervalText.source, intervalStart] at hlength
        omega
      have hrest (pre post : Text) (hrest : rest = pre ++ (intervalStart ++ post)) :=
        h (t.take k ++ i.source ++ pre) post (by
          rw [List.append_assoc, ← hrest, List.append_assoc, ← hi, ← hsplit])
      obtain ⟨pieces, tail, htail, hpieces⟩ := ih _ hlt hrest rfl
      refine ⟨⟨t.take k, hliteral, i⟩ :: pieces, tail, htail, ?_⟩
      have hcons : source (⟨t.take k, hliteral, i⟩ :: pieces) tail =
          t.take k ++ (i.source ++ source pieces tail) := by simp [source]
      rw [hcons, ← hpieces, ← hi]
      exact hsplit
    · exact ⟨[], t, hplain, rfl⟩

theorem StaticBuffer.Holds.text_eq {b : StaticBuffer} {t : Text} (h : b.Holds t) (hzero : 0 ∉ t) :
    b.text = t := by
  obtain ⟨rest, hrest⟩ := Nat.exists_eq_add_of_lt h.inside
  have hall : ∀ c ∈ t, decide (c ≠ 0) = true := by
    intro c hc
    exact decide_eq_true fun h0 => hzero (h0 ▸ hc)
  rw [StaticBuffer.text, hrest, Nat.add_assoc, Block.read_add, h.eq, Nat.zero_add, Block.read_succ,
    h.terminated, List.takeWhile_append_of_pos hall]
  simp

theorem holds_write {m : ℕ → UInt8} {t : Text} {size offset allocated : ℕ} (h : t.length < allocated) :
    StaticBuffer.Holds ⟨⟨Block.write m 0 (t ++ [0]), size, offset⟩, allocated⟩ t where
  inside := h
  eq := by
    have hself := Block.read_write_self m 0 (t ++ [0])
    rw [List.length_append, Block.read_add] at hself
    exact (List.append_inj hself (Block.length_read _ _ _)).1
  terminated := by
    have hlast : t.length < (t ++ [0]).length := by simp
    have hwrite : Block.write m 0 (t ++ [0]) (0 + t.length) = (t ++ [0])[t.length] :=
      Block.write_of_mem m (t ++ [0]) hlast
    rw [Nat.zero_add] at hwrite
    simpa using hwrite

theorem length_pieces_le (pieces : List Piece) (tail : Text) :
    pieces.length ≤ (source pieces tail).length := by
  induction pieces with
  | nil => exact Nat.zero_le _
  | cons p pieces ih =>
    simp only [source, List.flatMap_cons, List.length_append, List.length_cons,
      IntervalText.source] at ih ⊢
    omega

/-- The intervals are replaced, and nothing else changes, exactly if there is none or the new block
has room for the text and its terminator. -/
theorem substituteInterval_local_iff (regexpGen : ℤ → ℤ → Bool → CString) (uninit : ℕ → UInt8)
    (src : StaticBuffer) (pieces : List Piece) (tail : Text) (htail : ¬ intervalStart <:+: tail)
    (hsrc : src.Holds (source pieces tail)) (hzero : 0 ∉ source pieces tail) :
    (∃ dst, substituteInterval regexpGen uninit src = .returns dst ∧
        dst.Holds (substituted regexpGen pieces tail)) ↔
      pieces = [] ∨ (substituted regexpGen pieces tail).length < dstSize := by
  have htext := hsrc.text_eq hzero
  cases pieces with
  | nil =>
    have hnone : find intervalStart src.text = none := htext ▸ find_none htail
    refine iff_of_true ⟨src, ?_, hsrc⟩ (.inl rfl)
    rw [substituteInterval, hnone]
  | cons p pieces =>
    have hfind : find intervalStart src.text = some p.literal.length := htext ▸ find_source_cons p pieces
    simp only [substituteInterval, hfind, reduceCtorEq, false_or]
    constructor
    · intro ⟨dst, hdst, hholds⟩
      cases hloop : substituteLoop regexpGen (src.text.length + 1) [] src.text with
      | returns s =>
        rw [hloop, Outcome.returns_bind, Outcome.pure_eq, Outcome.returns.injEq] at hdst
        have hinside := hholds.inside
        rw [← hdst] at hinside
        exact hinside
      | fails e => simp [hloop] at hdst
      | undefined => simp [hloop] at hdst
    · intro hroom
      have hfuel : (p :: pieces).length < src.text.length + 1 :=
        Nat.lt_succ_of_le (htext ▸ length_pieces_le (p :: pieces) tail)
      have hloop : substituteLoop regexpGen _ [] (source (p :: pieces) tail) = _ :=
        substituteLoop_source htail (p :: pieces) hfuel hroom
      rw [← htext] at hloop
      exact ⟨_, by rw [hloop]; rfl, holds_write hroom⟩

def five : IntervalText where
  min := ⟨ascii "5", ⟨ascii "5", by decide⟩, by decide, by decide⟩
  max := ⟨ascii "5", ⟨ascii "5", by decide⟩, by decide, by decide⟩
  kind := .plain

/-- What `regexpGen` gives for it. -/
def fiveRegexp : CString :=
  ⟨ascii "(?:5(?:\\.\\d+)?)(?![\\d.])", by decide⟩

example (uninit : ℕ → Interval.Uninit) :
    Interval.regexpGen 1 uninit 8190 5 5 true = .returns fiveRegexp.bytes := by
  rfl

def examplePiece : Piece := ⟨ascii "x=", by decide, five⟩

theorem substituteInterval_local_example :
    let src : StaticBuffer :=
      ⟨⟨Block.write (fun _ => 0) 0 (ascii "x=(?I5#5)!" ++ [0]), ivyBufferSize, 10⟩, ivyBufferSize⟩
    ∃ dst, substituteInterval (fun _ _ _ => fiveRegexp) (fun _ => 0) src = .returns dst ∧
      dst.Holds (ascii "x=" ++ fiveRegexp.bytes ++ ascii "!") :=
  (substituteInterval_local_iff (fun _ _ _ => fiveRegexp) (fun _ => 0) _ [examplePiece] (ascii "!")
    (by decide) (holds_write (by decide)) (by decide)).mpr (.inr (by decide))

def barePiece : Piece := ⟨[], by decide, five⟩

theorem plain_replicate (n : ℕ) : ¬ intervalStart <:+: List.replicate n 97 := by
  intro h
  have hmem : (40 : UInt8) ∈ List.replicate n 97 := h.subset (by decide)
  exact absurd (List.eq_of_mem_replicate hmem) (by decide)

/-- One interval and 8192 characters after it: the terminator goes after the new block. -/
theorem substituteInterval_writes_past :
    let text := source [barePiece] (List.replicate dstSize 97)
    let src : StaticBuffer := ⟨⟨Block.write (fun _ => 0) 0 (text ++ [0]), 8200, 8199⟩, 8200⟩
    src.Holds text ∧
      substituteInterval (fun _ _ _ => fiveRegexp) (fun _ => 0) src = .undefined := by
  intro text src
  have hsource : text = barePiece.interval.source ++ List.replicate dstSize 97 := by
    show source [barePiece] _ = _
    simp [source, barePiece]
  have hlength : text.length = 8199 := by
    have h7 : barePiece.interval.source.length = 7 := by decide
    rw [hsource, List.length_append, h7, List.length_replicate, dstSize]
  have htail := plain_replicate dstSize
  have hzero : 0 ∉ text := by
    have h0 : 0 ∉ barePiece.interval.source := by decide
    rw [hsource, List.mem_append, not_or]
    exact ⟨h0, fun h => absurd (List.eq_of_mem_replicate h) (by decide)⟩
  have hholds : src.Holds text := holds_write (by omega)
  have htext := hholds.text_eq hzero
  have hfull (dst : Text) : strncat dstSize dst (List.replicate dstSize 97) = .undefined :=
    if_neg (by rw [List.length_replicate]; omega)
  refine ⟨hholds, ?_⟩
  rw [substituteInterval, htext, find_source_cons, hlength]
  show (substituteLoop _ (8198 + 1 + 1) [] text >>= _) = _
  rw [substituteLoop_cons barePiece [] (by decide), substituteLoop_nil htail, hfull]
  rfl

end Ivy.Binding
