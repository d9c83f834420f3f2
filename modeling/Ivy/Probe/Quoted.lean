import Ivy.Probe.DieAll

/-! The commands whose last argument stands between quotes. -/
namespace Ivy.Probe
open Tokens

def quote : UInt8 := 39

theorem ascii_quote : ascii "'" = [quote] := by
  decide

structure Typed where
  bytes : Text
  noZero : 0 ∉ bytes
  noNewline : newline ∉ bytes

/-- The text between quotes, at the end of the line. -/
def Typed.quoted (msg : Typed) : Text := quote :: (msg.bytes ++ [quote, newline])

theorem scanDigits_decimalNat_end (n : ℕ) : scanDigits (decimalNat n) = some (n, []) := by
  have hall : ∀ d ∈ decimalNat n, decide (IsDigit d) = true := fun d hd => by
    simpa using isDigit_of_mem_decimalAux hd
  have hvalue : digitsValue (decimalNat n) = n := digitsValue_decimalAux (Nat.lt_succ_self n)
  rw [scanDigits, List.takeWhile_eq_self_iff.mpr hall, List.dropWhile_eq_nil_iff.mpr hall]
  simp only [hvalue, if_neg (decimalNat_ne_nil n)]

theorem scanInt_nat (n : ℕ) : scanInt (decimal (.ofNat n)) = some (toInt n, []) := by
  obtain ⟨d, ds, hd⟩ := List.exists_cons_of_ne_nil (decimalNat_ne_nil n)
  have hdigit : IsDigit d := isDigit_of_mem_decimalAux (hd ▸ List.mem_cons_self)
  have hskip : (decimal (.ofNat n)).dropWhile isSpace = d :: ds := by
    rw [decimal, hd]
    exact List.dropWhile_cons_of_neg (by simp [not_isSpace_of_isDigit hdigit])
  have hsign : d ≠ minus ∧ d ≠ plus := by
    constructor <;> rintro rfl <;> simp [IsDigit, minus, plus] at hdigit
  have hscan := scanDigits_decimalNat_end n
  rw [hd] at hscan
  rw [scanInt, hskip]
  simp only [if_neg hsign.1, if_neg hsign.2, hscan, Option.map_some]

theorem scanInt_neg (n : ℕ) : scanInt (decimal (.negSucc n)) = some (toInt (Int.negSucc n), []) := by
  have hskip : (decimal (.negSucc n)).dropWhile isSpace = minus :: decimalNat (n + 1) :=
    List.dropWhile_cons_of_neg (by decide)
  rw [scanInt, hskip]
  simp only [if_pos trivial, scanDigits_decimalNat_end, Option.map_some]
  rfl

/-- `atoi` reads what `%d` prints. -/
theorem atoi_decimal (id : Int32) : atoi (decimal id.toInt) = id.toInt := by
  have hscan (z : ℤ) : scanInt (decimal z) = some (toInt z, []) := by
    cases z with
    | ofNat n => exact scanInt_nat n
    | negSucc n => exact scanInt_neg n
  rw [atoi, hscan, Option.map_some, Option.getD_some]
  exact toInt_of_mem id.le_toInt id.toInt_lt

section Tokens

theorem strtok_next {separators : String} (t : Text) (stop : UInt8) (rest : Text)
    (ht : IsToken ((ascii separators).contains ·) t) (hstop : (ascii separators).contains stop = true) :
    strtok separators (t ++ stop :: rest) = some (t, rest) :=
  token_reads (.next [] stop (fun _ ha => absurd ha List.not_mem_nil) ht hstop rfl)

theorem chop_subset (arg : Text) : chop arg ⊆ arg := by
  unfold chop
  split_ifs
  · exact List.dropLast_subset arg
  · exact fun _ hb => hb

/-- What stands between the quotes is read, up to the next quote. -/
theorem strtok_quoted (msg : Typed) :
    ∃ arg rest, strtok "'" msg.quoted = some (arg, rest) ∧ (chop arg = msg.bytes ↔ quote ∉ msg.bytes) := by
  by_cases hquote : quote ∈ msg.bytes
  · have hnot : ¬ Blank ((ascii "'").contains ·) msg.quoted := by
      intro hblank
      have hnl := hblank newline (by simp [Typed.quoted])
      simp [ascii, newline] at hnl
    obtain ⟨arg, rest, hreads⟩ := (blank_or_reads _ msg.quoted).resolve_left hnot
    refine ⟨arg, rest, token_reads hreads, ?_⟩
    have harg : quote ∉ arg := ((isToken_byte ascii_quote).mp hreads.isToken).2
    simp only [hquote, not_true_eq_false, iff_false]
    exact fun heq => harg (chop_subset arg (heq ▸ hquote))
  · have hskip : Blank ((ascii "'").contains ·) [quote] := by
      intro b hb
      rw [List.mem_singleton.mp hb]
      decide
    simp only [hquote, not_false_eq_true, iff_true]
    by_cases hnil : msg.bytes = []
    · refine ⟨[newline], [], ?_, ?_⟩
      · rw [Typed.quoted, hnil]
        decide
      · rw [hnil]
        decide
    · refine ⟨msg.bytes, [newline], ?_, ?_⟩
      · have htoken := (isToken_byte ascii_quote).mpr ⟨hnil, hquote⟩
        exact token_reads (.next [quote] quote hskip htoken (by decide) rfl)
      · refine if_neg fun hlast => ?_
        exact msg.noNewline (List.mem_of_getLast? hlast)

end Tokens

section Direct
variable {apps : Applications}

/-- `.direct appname id 'msg'` -/
def directLine (name : Text) (id : Int32) (msg : Typed) : Text :=
  ascii ".direct" ++ space :: (name ++ space :: (decimal id.toInt ++ space :: msg.quoted))

theorem decimal_ne_nil (z : ℤ) : decimal z ≠ [] := by
  cases z with
  | ofNat n => exact decimalNat_ne_nil n
  | negSucc n => exact List.cons_ne_nil _ _

theorem direct_eq {c : ℕ} {name : Text} (hname : IsToken ((ascii " \n").contains ·) name)
    (hfind : ivyGetApplication apps name = some c) (id : Int32) (msg : Typed) :
    ∃ arg, direct apps (name ++ space :: (decimal id.toInt ++ space :: msg.quoted)) =
      some [.ivySendDirectMsg c id.toInt (chop arg)] ∧ (chop arg = msg.bytes ↔ quote ∉ msg.bytes) := by
  obtain ⟨arg, rest, harg, hiff⟩ := strtok_quoted msg
  have hspace : ascii " " = [space] := by decide
  have hid : IsToken ((ascii " ").contains ·) (decimal id.toInt) :=
    (isToken_byte hspace).mpr ⟨decimal_ne_nil _, not_mem_decimal (by decide)⟩
  refine ⟨arg, ?_, hiff⟩
  rw [direct, strtok_next name space _ hname (by decide)]
  simp only [hfind]
  rw [strtok_next _ space _ hid (by decide), Option.bind_some, harg, Option.map_some, atoi_decimal]

/-- An application that gets a message was found under the word after the command. -/
theorem direct_found {s msg : Text} {c : ℕ} {id : ℤ}
    (h : direct apps s = some [.ivySendDirectMsg c id msg]) :
    ∃ arg rest, strtok " \n" s = some (arg, rest) ∧ ivyGetApplication apps arg = some c := by
  unfold direct at h
  split at h
  · simp at h
  · rename_i arg rest harg
    refine ⟨arg, rest, harg, ?_⟩
    split at h
    · simp [noApplication] at h
    · rename_i c' hfind
      obtain ⟨id', -, h⟩ := Option.bind_eq_some_iff.mp h
      obtain ⟨msg', -, h⟩ := Option.map_eq_some_iff.mp h
      simp only [List.cons.injEq, Act.ivySendDirectMsg.injEq, and_true] at h
      rw [hfind, h.1]

theorem handleStdin_direct {Code : Type*} (compile : Registry.Compile Code) (apps : Applications)
    (fbindcallback : Bool) (name : Text) (id : Int32) (msg : Typed) :
    handleStdin compile apps fbindcallback (some (directLine name id msg)) =
      (direct apps (name ++ space :: (decimal id.toInt ++ space :: msg.quoted))).map fun acts =>
        (acts, fbindcallback) := by
  have hcmd : strtok ".: \n" (directLine name id msg) =
      some (ascii "direct", name ++ space :: (decimal id.toInt ++ space :: msg.quoted)) :=
    token_reads (.next [46] space (by decide) (by decide) (by decide) rfl)
  have hdot : (directLine name id msg).head? = some 46 := rfl
  unfold handleStdin command
  dsimp only
  rw [if_pos hdot, hcmd, Option.bind_some]
  dsimp only
  rw [if_neg (by decide), if_neg (by decide), if_neg (by decide), if_neg (by decide), if_pos rfl]

/-- The message goes to the application exactly if its name is one word, it is the first one with that name,
and the message has no quote. -/
theorem direct_iff {c : ℕ} {name : Text} (happ : (c, name) ∈ apps.list) (id : Int32) (msg : Typed) :
    direct apps (name ++ space :: (decimal id.toInt ++ space :: msg.quoted)) =
        some [.ivySendDirectMsg c id.toInt msg.bytes] ↔
      IsToken ((ascii " \n").contains ·) name ∧ ivyGetApplication apps name = some c ∧ quote ∉ msg.bytes := by
  constructor
  · intro hacts
    obtain ⟨arg, rest, harg, hfind⟩ := direct_found hacts
    have hname : arg = name := congrArg Prod.snd (app_unique (ivyGetApplication_some hfind) happ rfl)
    subst hname
    have htoken := isToken_of_token harg
    obtain ⟨arg, hdirect, hiff⟩ := direct_eq htoken hfind id msg
    have hsame := hdirect.symm.trans hacts
    simp only [Option.some.injEq, List.cons.injEq, Act.ivySendDirectMsg.injEq, true_and, and_true] at hsame
    exact ⟨htoken, hfind, hiff.mp hsame⟩
  · rintro ⟨hname, hfind, hquote⟩
    obtain ⟨arg, hdirect, hiff⟩ := direct_eq hname hfind id msg
    rw [hdirect, hiff.mpr hquote]

end Direct

end Ivy.Probe
