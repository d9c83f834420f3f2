import Ivy.Discovery.Parse

/-! The hello lines that the parser accepts, and what it stores. -/
namespace Ivy.Discovery

/-- The value of `number` followed by the digits. -/
def valueFrom (number : ℕ) (ds : Text) : ℕ :=
  ds.foldl (fun acc b => 10 * acc + (b.toNat - 48)) number

theorem le_valueFrom (number : ℕ) (ds : Text) : number ≤ valueFrom number ds := by
  induction ds generalizing number with
  | nil => exact Nat.le_refl _
  | cons b ds ih =>
    have hstep := ih (10 * number + (b.toNat - 48))
    exact Nat.le_trans (by omega) hstep

/-- The test by division is exact, and what passes it does not overflow. -/
structure Round (limit number digit : UInt32) : Prop where
  small : digit.toNat ≤ 9
  stops : number > (limit - digit) / 10 ↔ limit.toNat < 10 * number.toNat + digit.toNat
  goesOn : 10 * number.toNat + digit.toNat ≤ limit.toNat →
    (number * 10 + digit).toNat = 10 * number.toNat + digit.toNat

theorem digit_toUInt32 {b : UInt8} (hb : IsDigit b) : (b.toUInt32 - 48).toNat = b.toNat - 48 := by
  have hle : (48 : UInt32) ≤ b.toUInt32 := by
    rw [UInt32.le_iff_toNat_le, UInt8.toNat_toUInt32]
    exact hb.1
  rw [UInt32.toNat_sub_of_le _ _ hle, UInt8.toNat_toUInt32]
  rfl

theorem round {limit : UInt32} (hlimit : 9 ≤ limit.toNat) (number : UInt32) {b : UInt8}
    (hb : IsDigit b) : Round limit number (b.toUInt32 - 48) := by
  have hdigit := digit_toUInt32 hb
  have hb' := hb.2
  have hsmall : (b.toUInt32 - 48).toNat ≤ 9 := by omega
  generalize b.toUInt32 - 48 = digit at hsmall
  have hsub : (limit - digit).toNat = limit.toNat - digit.toNat := by
    apply UInt32.toNat_sub_of_le
    rw [UInt32.le_iff_toNat_le]
    omega
  have hlimit' := limit.toNat_lt
  have hten : (10 : UInt32).toNat = 10 := rfl
  refine ⟨hsmall, ?_, fun hfits => ?_⟩
  · rw [gt_iff_lt, UInt32.lt_iff_toNat_lt, UInt32.toNat_div, hsub, hten]
    omega
  · rw [UInt32.toNat_add, UInt32.toNat_mul, hten]
    omega

theorem readDigits_eq {limit : UInt32} (hlimit : 9 ≤ limit.toNat) (number : UInt32) (p : Text)
    (hnumber : number.toNat ≤ limit.toNat) :
    readDigits limit number p =
      if valueFrom number.toNat (p.takeWhile (IsDigit ·)) ≤ limit.toNat then
        some (UInt32.ofNat (valueFrom number.toNat (p.takeWhile (IsDigit ·))),
          p.dropWhile (IsDigit ·))
      else none := by
  induction p generalizing number with
  | nil => simp [readDigits, valueFrom, hnumber]
  | cons b p ih =>
    by_cases hb : IsDigit b
    · obtain ⟨hsmall, hstops, hgoesOn⟩ := round hlimit number hb
      have hdigit := digit_toUInt32 hb
      rw [List.takeWhile_cons_of_pos (by simpa using hb), List.dropWhile_cons_of_pos (by simpa using hb)]
      simp only [readDigits, if_pos hb, hstops]
      have hvalue : valueFrom number.toNat (b :: p.takeWhile (IsDigit ·)) =
          valueFrom (10 * number.toNat + (b.toUInt32 - 48).toNat) (p.takeWhile (IsDigit ·)) := by
        rw [hdigit]
        rfl
      rw [hvalue]
      split_ifs with hover hle hle
      · have hmono := le_valueFrom (10 * number.toNat + (b.toUInt32 - 48).toNat)
          (p.takeWhile (IsDigit ·))
        omega
      · rfl
      · have hnext := hgoesOn (by omega)
        rw [ih _ (by omega), hnext, if_pos hle]
      · have hnext := hgoesOn (by omega)
        rw [ih _ (by omega), hnext, if_neg hle]
    · rw [List.takeWhile_cons_of_neg (by simpa using hb), List.dropWhile_cons_of_neg (by simpa using hb)]
      simp [readDigits, hb, valueFrom, hnumber]

def Number (ds : Text) (value : ℕ) : Prop :=
  ds ≠ [] ∧ (∀ b ∈ ds, IsDigit b) ∧ digitsValue ds = value

def Blanks (bs : Text) : Prop := ∀ b ∈ bs, isBlank b = true

theorem isBlank_eq_true {b : UInt8} : isBlank b = true ↔ b = space ∨ b = tab := by simp [isBlank]

theorem not_isDigit_of_isBlank {b : UInt8} (hb : isBlank b = true) : ¬ IsDigit b := by
  rcases isBlank_eq_true.mp hb with rfl | rfl <;> decide

theorem not_isBlank_of_isDigit {b : UInt8} (hb : IsDigit b) : isBlank b = false := by
  by_contra hblank
  exact not_isDigit_of_isBlank (by simpa using hblank) hb

theorem endsId_of_isBlank {b : UInt8} (hb : isBlank b = true) : endsId b = true := by
  rcases isBlank_eq_true.mp hb with rfl | rfl <;> decide

/-- The prefix of bytes that satisfy `p`, in front of one that does not. -/
theorem takeWhile_append_of_stop {p : UInt8 → Bool} (ds rest : Text) (hds : ∀ b ∈ ds, p b = true)
    (hrest : rest.head?.any p = false) :
    (ds ++ rest).takeWhile p = ds ∧ (ds ++ rest).dropWhile p = rest := by
  rw [List.takeWhile_append_of_pos hds, List.dropWhile_append_of_pos hds]
  cases rest with
  | nil => simp
  | cons b rest =>
    have hb : p b = false := by simpa using hrest
    simp [hb]

theorem head?_dropWhile_any (p : UInt8 → Bool) (l : Text) : (l.dropWhile p).head?.any p = false := by
  induction l with
  | nil => rfl
  | cons b l ih => by_cases hb : p b = true <;> simp [hb, ih]

theorem ivyDiscoveryNumber_eq {limit : UInt32} (hlimit : 9 ≤ limit.toNat) (p : Text) :
    ivyDiscoveryNumber p limit =
      let ds := (skipBlanks p).takeWhile (IsDigit ·)
      let rest := (skipBlanks p).dropWhile (IsDigit ·)
      if ds ≠ [] ∧ digitsValue ds ≤ limit.toNat ∧ startsBlank rest = true then
        some (UInt32.ofNat (digitsValue ds), skipBlanks rest)
      else none := by
  have hread := readDigits_eq hlimit 0 (skipBlanks p) (Nat.zero_le _)
  have hvalue : valueFrom (0 : UInt32).toNat ((skipBlanks p).takeWhile (IsDigit ·)) =
      digitsValue ((skipBlanks p).takeWhile (IsDigit ·)) := rfl
  rw [hvalue] at hread
  have hfirst : (skipBlanks p).head?.any (IsDigit ·) = true ↔
      (skipBlanks p).takeWhile (IsDigit ·) ≠ [] := by
    cases skipBlanks p with
    | nil => simp
    | cons b q => by_cases hb : IsDigit b <;> simp [hb]
  unfold ivyDiscoveryNumber
  dsimp only
  rw [hread]
  simp only [hfirst]
  split_ifs <;> simp_all

/-- The call succeeds exactly on a number between blanks and stops behind them. -/
theorem ivyDiscoveryNumber_iff {limit : UInt32} (hlimit : 9 ≤ limit.toNat) {p rest : Text}
    {number : UInt32} :
    ivyDiscoveryNumber p limit = some (number, rest) ↔
      ∃ before ds after value, p = before ++ ds ++ after ++ rest ∧ Blanks before ∧
        Number ds value ∧ value ≤ limit.toNat ∧ Blanks after ∧ after ≠ [] ∧
        startsBlank rest = false ∧ number = UInt32.ofNat value := by
  rw [ivyDiscoveryNumber_eq hlimit]
  dsimp only
  constructor
  · intro h
    rw [Option.ite_none_right_eq_some] at h
    obtain ⟨⟨hne, hle, hblank⟩, hsome⟩ := h
    obtain ⟨rfl, rfl⟩ := Prod.mk.inj (Option.some.inj hsome)
    refine ⟨p.takeWhile isBlank, (skipBlanks p).takeWhile (IsDigit ·),
      ((skipBlanks p).dropWhile (IsDigit ·)).takeWhile isBlank, _, ?_,
      fun b hb => List.mem_takeWhile_imp hb, ⟨hne, ?_, rfl⟩, hle, fun b hb => List.mem_takeWhile_imp hb, ?_,
      head?_dropWhile_any _ _, rfl⟩
    · simp only [skipBlanks, List.append_assoc, List.takeWhile_append_dropWhile]
    · exact fun b hb => by simpa using List.mem_takeWhile_imp hb
    · cases hrest : (skipBlanks p).dropWhile (IsDigit ·) with
      | nil => simp [startsBlank, hrest] at hblank
      | cons b q =>
        have hb : isBlank b = true := by simpa [startsBlank, hrest] using hblank
        simp [hb]
  · rintro ⟨before, ds, after, value, rfl, hbefore, ⟨hne, hds, rfl⟩, hle, hafter, hafter', hrest, rfl⟩
    obtain ⟨d, ds', rfl⟩ := List.exists_cons_of_ne_nil hne
    obtain ⟨b, after', rfl⟩ := List.exists_cons_of_ne_nil hafter'
    have hb : isBlank b = true := hafter b (by simp)
    have hd := not_isBlank_of_isDigit (hds d (by simp))
    have hskip : skipBlanks (before ++ d :: ds' ++ b :: after' ++ rest) =
        d :: ds' ++ (b :: after' ++ rest) := by
      have hstop := takeWhile_append_of_stop before (d :: ds' ++ (b :: after' ++ rest)) hbefore
        (by simpa using hd)
      rw [skipBlanks, List.append_assoc, List.append_assoc]
      exact hstop.2
    have hdigits := takeWhile_append_of_stop (p := (IsDigit ·)) (d :: ds')
      (b :: after' ++ rest) (by simpa using hds) (by simpa using not_isDigit_of_isBlank hb)
    have hblanks := takeWhile_append_of_stop _ rest hafter hrest
    rw [hskip, hdigits.1, hdigits.2, if_pos ⟨hne, hle, by simpa [startsBlank] using hb⟩]
    exact congrArg (fun q => some (_, q)) hblanks.2

theorem take_strcspn (p : Text) (reject : UInt8 → Bool) :
    p.take (strcspn p reject) = p.takeWhile (!reject ·) := by
  have hprefix := List.takeWhile_prefix (l := p) (!reject ·)
  exact (List.prefix_iff_eq_take.mp hprefix).symm

theorem drop_strcspn (p : Text) (reject : UInt8 → Bool) :
    p.drop (strcspn p reject) = p.dropWhile (!reject ·) := by
  have hsplit := List.take_append_drop (strcspn p reject) p
  rw [take_strcspn] at hsplit
  exact List.append_cancel_left (hsplit.trans List.takeWhile_append_dropWhile.symm)

/-- An optional CR and an optional LF. -/
def Ending (e : Text) : Prop := e = [] ∨ e = [cr] ∨ e = [newline] ∨ e = [cr, newline]

theorem skipOne_eq_nil (e : Text) : skipOne newline (skipOne cr e) = [] ↔ Ending e := by
  have hne : newline ≠ cr := by decide
  match e with
  | [] => simp [skipOne, Ending]
  | [b] =>
    by_cases hcr : b = cr
    · simp [skipOne, Ending, hcr]
    · by_cases hnl : b = newline <;> simp [skipOne, Ending, hcr, hnl, hne]
  | b :: b' :: e =>
    by_cases hcr : b = cr
    · by_cases hnl : b' = newline <;> simp [skipOne, Ending, hcr, hnl]
    · by_cases hnl : b = newline <;> simp [skipOne, Ending, hcr, hnl, hne]

/-- A field that fits in its array with the terminator. -/
structure Field (ends : UInt8 → Bool) (size : ℕ) (bytes : Text) : Prop where
  nonempty : bytes ≠ []
  fits : bytes.length < size
  bytes : ∀ b ∈ bytes, ends b = false

/-- The grammar: version, port, identifier and name, apart by blanks. -/
structure Hello (line : Text) (id_size name_size version port : ℕ) (appid appname : Text) : Prop where
  version_le : version ≤ 2 ^ 31 - 1
  port_pos : 1 ≤ port
  port_le : port ≤ 65535
  id_field : Field endsId id_size appid
  name_field : Field endsName name_size appname
  name_first : startsBlank appname = false
  layout : ∃ before ds between ds' after gap ending,
    line = before ++ ds ++ between ++ (ds' ++ after ++ (appid ++ (gap ++ (appname ++ ending)))) ∧
      Blanks before ∧ Number ds version ∧ Blanks between ∧ between ≠ [] ∧
      Number ds' port ∧ Blanks after ∧ after ≠ [] ∧ Blanks gap ∧ gap ≠ [] ∧ Ending ending

def stored (out : Outputs) (version port : ℕ) (appid appname : Text) : Outputs :=
  ⟨version, UInt16.ofNat port, storeField out.appid appid, storeField out.appname appname⟩

theorem field_takeWhile {ends : UInt8 → Bool} {size : ℕ} {p : Text} (hzero : strcspn p ends ≠ 0)
    (hsize : strcspn p ends < size) : Field ends size (p.takeWhile (!ends ·)) where
  nonempty h := hzero (by rw [strcspn, h, List.length_nil])
  fits := hsize
  bytes b hb := by simpa using List.mem_takeWhile_imp hb

/-- A field in front of a byte that ends it is found whole. -/
theorem Field.strcspn {ends : UInt8 → Bool} {size : ℕ} {bytes rest : Text} (h : Field ends size bytes)
    (hrest : ∀ b ∈ rest.head?, ends b = true) :
    strcspn (bytes ++ rest) ends = bytes.length := by
  have hstop := takeWhile_append_of_stop (p := (!ends ·)) bytes rest
    (by simpa using h.bytes) (by cases rest <;> simp_all)
  rw [Discovery.strcspn, hstop.1]

theorem Field.startsBlank_append {ends : UInt8 → Bool} {size : ℕ} {bytes rest : Text} (h : Field ends size bytes)
    (hends : ∀ b, isBlank b = true → ends b = true) : startsBlank (bytes ++ rest) = false := by
  obtain ⟨b, bytes', rfl⟩ := List.exists_cons_of_ne_nil h.nonempty
  have hb : isBlank b = false := by
    by_contra hblank
    have hend := hends b (by simpa using hblank)
    exact absurd (h.bytes b List.mem_cons_self) (by simp [hend])
  simpa [startsBlank] using hb

theorem Number.startsBlank_append {ds rest : Text} {value : ℕ} (h : Number ds value) :
    startsBlank (ds ++ rest) = false := by
  obtain ⟨d, ds', rfl⟩ := List.exists_cons_of_ne_nil h.1
  have hd := not_isBlank_of_isDigit (h.2.1 d List.mem_cons_self)
  simpa [startsBlank] using hd

theorem startsBlank_takeWhile {p : Text} (h : startsBlank p = false) (q : UInt8 → Bool) :
    startsBlank (p.takeWhile q) = false := by
  cases p with
  | nil => rfl
  | cons b p => by_cases hb : q b = true <;> simp_all [startsBlank]

theorem takeWhile_isBlank_eq_nil {p : Text} : p.takeWhile isBlank = [] ↔ startsBlank p = false := by
  cases p with
  | nil => simp [startsBlank]
  | cons b p => by_cases hb : isBlank b = true <;> simp_all [startsBlank]

theorem bmod_version {version : ℕ} (h : version ≤ 2 ^ 31 - 1) :
    Int.bmod (UInt32.ofNat version).toNat (2 ^ 32) = version := by
  have hsize : UInt32.size = 2 ^ 32 := rfl
  rw [UInt32.toNat_ofNat_of_lt' (by omega)]
  exact Int.bmod_eq_of_le (by omega) (by omega)

theorem toUInt16_port {port : ℕ} (h : port ≤ 65535) :
    (UInt32.ofNat port).toUInt16 = UInt16.ofNat port := by
  have hsize : UInt32.size = 2 ^ 32 := rfl
  apply UInt16.toNat_inj.mp
  rw [UInt32.toNat_toUInt16, UInt32.toNat_ofNat_of_lt' (by omega), UInt16.toNat_ofNat']

theorem ofNat_port_ne_zero {port : ℕ} (hpos : 1 ≤ port) (hle : port ≤ 65535) : UInt32.ofNat port ≠ 0 := by
  intro hzero
  have hsize : UInt32.size = 2 ^ 32 := rfl
  have htoNat := UInt32.toNat_ofNat_of_lt' (n := port) (by omega)
  rw [hzero] at htoNat
  have hport : 0 = port := htoNat
  omega

section
variable {line : CString} {id_size name_size : ℕ} {out : Outputs}

theorem ivyParseDiscovery_rejects (h : (ivyParseDiscovery line id_size name_size out).1 = false) :
    (ivyParseDiscovery line id_size name_size out).2 = out := by
  unfold ivyParseDiscovery at h ⊢
  grind

theorem ivyParseDiscovery_accepts (h : (ivyParseDiscovery line id_size name_size out).1 = true) :
    ∃ version port appid appname,
      Hello line.bytes id_size name_size version port appid appname := by
  unfold ivyParseDiscovery at h
  split at h
  · simp at h
  rename_i parsed_version p hfirst
  split at h
  · simp at h
  rename_i parsed_port id hsecond
  obtain ⟨before, ds, between, version, hline, hbefore, hds, hversion, hbetween, hbetween', -, -⟩ :=
    (ivyDiscoveryNumber_iff (by decide)).mp hfirst
  obtain ⟨none₂, ds', after, port, hp, hnone, hds', hport, hafter, hafter', hid, rfl⟩ :=
    (ivyDiscoveryNumber_iff (by decide)).mp hsecond
  dsimp only at h
  split_ifs at h with hzero hidlen hblank hnamelen hending
  rw [not_or, not_le] at hidlen hnamelen
  simp only [drop_strcspn] at *
  have hport' : port ≠ 0 := by
    rintro rfl
    exact hzero rfl
  have hgap := List.takeWhile_append_dropWhile (p := isBlank) (l := id.dropWhile (!endsId ·))
  refine ⟨version, port, _, _, ⟨hversion, by omega, hport, field_takeWhile hidlen.1 hidlen.2,
    field_takeWhile hnamelen.1 hnamelen.2, ?_, before, ds, between ++ none₂, ds', after,
    (id.dropWhile (!endsId ·)).takeWhile isBlank, _, ?_, hbefore, hds, ?_, by simp [hbetween'], hds',
    hafter, hafter', fun b hb => List.mem_takeWhile_imp hb, ?_, (skipOne_eq_nil _).mp (not_not.mp hending)⟩⟩
  · exact startsBlank_takeWhile (head?_dropWhile_any _ _) _
  · have hname := List.takeWhile_append_dropWhile (p := (!endsName ·))
      (l := skipBlanks (id.dropWhile (!endsId ·)))
    rw [hname, skipBlanks, hgap, List.takeWhile_append_dropWhile, hline, hp]
    simp only [List.append_assoc]
  · exact fun b hb => (List.mem_append.mp hb).elim (hbetween b) (hnone b)
  · intro hnil
    rw [takeWhile_isBlank_eq_nil.mp hnil] at hblank
    exact Bool.false_ne_true hblank

theorem Hello.accepted {version port : ℕ} {appid appname : Text}
    (h : Hello line.bytes id_size name_size version port appid appname) :
    ivyParseDiscovery line id_size name_size out =
      (true, stored out version port appid appname) := by
  obtain ⟨before, ds, between, ds', after, gap, ending, hline, hbefore, hds, hbetween, hbetween',
    hds', hafter, hafter', hgap, hgap', hending⟩ := h.layout
  obtain ⟨g, gap', rfl⟩ := List.exists_cons_of_ne_nil hgap'
  have hfirst : ivyDiscoveryNumber line.bytes intMax = some (UInt32.ofNat version,
      ds' ++ after ++ (appid ++ (g :: gap' ++ (appname ++ ending)))) := by
    rw [ivyDiscoveryNumber_iff (by decide)]
    refine ⟨before, ds, between, version, hline, hbefore, hds, h.version_le, hbetween, hbetween', ?_, rfl⟩
    simpa only [List.append_assoc] using hds'.startsBlank_append
  have hsecond : ivyDiscoveryNumber (ds' ++ after ++ (appid ++ (g :: gap' ++ (appname ++ ending)))) 65535 =
      some (UInt32.ofNat port, appid ++ (g :: gap' ++ (appname ++ ending))) := by
    rw [ivyDiscoveryNumber_iff (by decide)]
    refine ⟨[], ds', after, port, rfl, by simp [Blanks], hds', h.port_le, hafter, hafter', ?_, rfl⟩
    exact h.id_field.startsBlank_append fun b hb => endsId_of_isBlank hb
  have hidlen : strcspn (appid ++ (g :: gap' ++ (appname ++ ending))) endsId = appid.length := by
    apply h.id_field.strcspn
    have hblank := endsId_of_isBlank (hgap g (by simp))
    simpa using hblank
  have hblanks : skipBlanks (g :: gap' ++ (appname ++ ending)) = appname ++ ending := by
    obtain ⟨n, name', hn⟩ := List.exists_cons_of_ne_nil h.name_field.nonempty
    have hfirst := h.name_first
    exact (takeWhile_append_of_stop (p := isBlank) _ _ hgap (by simpa [hn, startsBlank] using hfirst)).2
  have hnamelen : strcspn (appname ++ ending) endsName = appname.length := by
    apply h.name_field.strcspn
    rcases hending with rfl | rfl | rfl | rfl <;> simp [endsName]
  have hg : startsBlank (g :: gap' ++ (appname ++ ending)) = true := hgap g (by simp)
  have hport : ¬ UInt32.ofNat port = 0 := ofNat_port_ne_zero h.port_pos h.port_le
  have hidfits := h.id_field.fits
  have hnamefits := h.name_field.fits
  have hidpos := List.length_pos_of_ne_nil h.id_field.nonempty
  have hnamepos := List.length_pos_of_ne_nil h.name_field.nonempty
  unfold ivyParseDiscovery
  simp only [hfirst, hsecond, hport, hidlen, hblanks, hnamelen, List.drop_left, List.take_left, hg,
    (skipOne_eq_nil ending).mpr hending, bmod_version h.version_le, toUInt16_port h.port_le]
  rw [if_neg (by simp), if_neg (by omega), if_pos trivial, if_neg (by omega), if_neg (by simp)]
  rfl

end

/-- Every value of the rounds fits in `unsigned int`. -/
theorem digitsValues_range {limit : UInt32} (hlimit : 9 ≤ limit.toNat) (number : UInt32) (p : Text) :
    ∀ v ∈ digitsValues limit number p, 0 ≤ v ∧ v < 2 ^ 32 := by
  induction p generalizing number with
  | nil => simp [digitsValues]
  | cons b p ih =>
    intro v hv
    by_cases hb : IsDigit b
    · obtain ⟨hsmall, hstops, -⟩ := round hlimit number hb
      have hlimit' := limit.toNat_lt
      have hnumber' := number.toNat_lt
      simp only [digitsValues, if_pos hb, List.mem_append] at hv
      rcases hv with hv | hv
      · unfold roundValues at hv
        simp only [hstops] at hv
        split_ifs at hv with hover
        · simp only [List.mem_cons, List.not_mem_nil, or_false] at hv
          rcases hv with rfl | rfl | rfl <;> omega
        · simp only [List.mem_cons, List.not_mem_nil, or_false] at hv
          rcases hv with rfl | rfl | rfl | rfl | rfl <;> omega
      · split_ifs at hv
        · simp at hv
        · exact ih _ v hv
    · simp [digitsValues, hb] at hv

/-- A line is accepted exactly if it has the grammar; then its numbers and fields are stored, and
else nothing is. No `unsigned int` overflows on the way. -/
theorem ivyParseDiscovery_exact (line : CString) (id_size name_size : ℕ) (out : Outputs) :
    ((ivyParseDiscovery line id_size name_size out).1 = true ↔
      ∃ version port appid appname,
        Hello line.bytes id_size name_size version port appid appname) ∧
    (∀ version port appid appname, Hello line.bytes id_size name_size version port appid appname →
      (ivyParseDiscovery line id_size name_size out).2 = stored out version port appid appname) ∧
    ((ivyParseDiscovery line id_size name_size out).1 = false →
      (ivyParseDiscovery line id_size name_size out).2 = out) ∧
    ∀ v ∈ intermediates line, 0 ≤ v ∧ v < 2 ^ 32 := by
  refine ⟨⟨ivyParseDiscovery_accepts, ?_⟩, ?_, ivyParseDiscovery_rejects, ?_⟩
  · rintro ⟨version, port, appid, appname, h⟩
    rw [h.accepted]
  · intro version port appid appname h
    rw [h.accepted]
  · intro v hv
    unfold intermediates at hv
    rcases List.mem_append.mp hv with hv | hv
    · exact digitsValues_range (by decide) _ _ v hv
    · split at hv
      · simp at hv
      · exact digitsValues_range (by decide) _ _ v hv

private def hello (s : String) (h : 0 ∉ ascii s) : CString := ⟨ascii s, h⟩

private def untouched : Outputs := ⟨0, 0, fun _ => 0, fun _ => 0⟩

example : (ivyParseDiscovery (hello " 3\t65535\tuuid\tmy app\r\n" (by decide)) 128 2048 untouched).1 =
    true := by decide +kernel

example : (ivyParseDiscovery (hello "3 65536 id name" (by decide)) 128 2048 untouched).1 = false := by
  decide +kernel

end Ivy.Discovery
