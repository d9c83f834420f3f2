import Ivy.Probe.Quoted
import Ivy.Protocol.Receive

/-! The standard input as the probe reads it, a buffer at a time. -/
namespace Ivy.Probe
open Tokens

section Fgets

/-- So many bytes, but none after a newline. -/
def fgetsAux : ℕ → Text → Text × Text
  | 0, stream => ([], stream)
  | _ + 1, [] => ([], [])
  | n + 1, b :: stream =>
    if b = newline then ([b], stream)
    else
      let r := fgetsAux n stream
      (b :: r.1, r.2)

def buffersAux (size : ℕ) : ℕ → Text → List Text
  | 0, _ => []
  | _ + 1, [] => []
  | fuel + 1, b :: stream =>
    let r := fgetsAux (size - 1) (b :: stream)
    r.1 :: buffersAux size fuel r.2

/-- What `fgets` leaves in an array of so many bytes, call after call, up to the end of the input. -/
def buffers (size : ℕ) (stream : Text) : List Text := buffersAux size stream.length stream

theorem fgetsAux_short {n : ℕ} {line : Text} (hline : newline ∉ line) (hlen : line.length < n) (rest : Text) :
    fgetsAux n (line ++ newline :: rest) = (line ++ [newline], rest) := by
  induction line generalizing n with
  | nil =>
    obtain ⟨k, rfl⟩ := Nat.exists_eq_add_of_lt hlen
    simp [fgetsAux]
  | cons b line ih =>
    obtain ⟨k, rfl⟩ : ∃ k, n = k + 1 := ⟨n - 1, by simp at hlen; omega⟩
    have hb : b ≠ newline := fun heq => hline (heq ▸ List.mem_cons_self)
    have hrest := ih (fun hmem => hline (List.mem_cons_of_mem b hmem)) (by simpa using hlen)
    simp [fgetsAux, hb, hrest]

theorem fgetsAux_long {n : ℕ} {line : Text} (hline : newline ∉ line) (hlen : n ≤ line.length) (rest : Text) :
    fgetsAux n (line ++ rest) = (line.take n, line.drop n ++ rest) := by
  induction line generalizing n with
  | nil =>
    obtain rfl : n = 0 := by simpa using hlen
    simp [fgetsAux]
  | cons b line ih =>
    cases n with
    | zero => simp [fgetsAux]
    | succ n =>
      have hb : b ≠ newline := fun heq => hline (heq ▸ List.mem_cons_self)
      have hrest := ih (fun hmem => hline (List.mem_cons_of_mem b hmem)) (by simpa using hlen)
      simp [fgetsAux, hb, hrest]

theorem length_fgetsAux (n : ℕ) (b : UInt8) (stream : Text) :
    (fgetsAux (n + 1) (b :: stream)).2.length ≤ stream.length := by
  have hle (n : ℕ) (stream : Text) : (fgetsAux n stream).2.length ≤ stream.length := by
    induction n generalizing stream with
    | zero => exact Nat.le_refl _
    | succ n ih =>
      cases stream with
      | nil => exact Nat.le_refl _
      | cons b stream =>
        unfold fgetsAux
        split_ifs
        · exact Nat.le_succ _
        · exact (ih stream).trans (Nat.le_succ _)
  unfold fgetsAux
  split_ifs
  · exact Nat.le_refl _
  · exact hle n stream

theorem buffersAux_of_le {size fuel : ℕ} (hsize : 1 < size) {stream : Text} (h : stream.length ≤ fuel) :
    buffersAux size fuel stream = buffers size stream := by
  suffices hall : ∀ fuel fuel' stream, List.length stream ≤ fuel → List.length stream ≤ fuel' →
      buffersAux size fuel stream = buffersAux size fuel' stream from hall _ _ _ h (Nat.le_refl _)
  obtain ⟨n, rfl⟩ : ∃ n, size = n + 2 := ⟨size - 2, by omega⟩
  intro fuel
  induction fuel with
  | zero =>
    intro fuel' stream hstream _
    obtain rfl : stream = [] := List.length_eq_zero_iff.mp (Nat.le_zero.mp hstream)
    cases fuel' <;> rfl
  | succ fuel ih =>
    intro fuel' stream hstream hstream'
    cases stream with
    | nil => cases fuel' <;> rfl
    | cons b stream =>
      obtain ⟨k, rfl⟩ : ∃ k, fuel' = k + 1 := ⟨fuel' - 1, by simp at hstream'; omega⟩
      have hlt : (fgetsAux (n + 2 - 1) (b :: stream)).2.length ≤ stream.length := length_fgetsAux n b stream
      simp only [List.length_cons] at hstream hstream'
      simp only [buffersAux]
      rw [ih k _ (by omega) (by omega)]

theorem buffers_cons {size : ℕ} (hsize : 1 < size) {stream : Text} (h : stream ≠ []) :
    buffers size stream = (fgetsAux (size - 1) stream).1 :: buffers size (fgetsAux (size - 1) stream).2 := by
  obtain ⟨b, stream, rfl⟩ := List.exists_cons_of_ne_nil h
  obtain ⟨n, rfl⟩ : ∃ n, size = n + 2 := ⟨size - 2, by omega⟩
  rw [buffers, List.length_cons, buffersAux]
  congr 1
  exact buffersAux_of_le hsize (length_fgetsAux n b stream)

end Fgets

section Runs
variable {Code : Type*} (compile : Registry.Compile Code) (apps : ℕ → Applications)

/-- The calls of `HandleStdin` on the buffers, with the applications that are connected at each call, and the
one at the end of the input. -/
def handleBuffers : ℕ → Bool → List Text → Option (List Act)
  | call, fbindcallback, [] => (handleStdin compile (apps call) fbindcallback none).map (·.1)
  | call, fbindcallback, line :: lines =>
    (handleStdin compile (apps call) fbindcallback (some (stringAt line 0))).bind fun r =>
      if .exit ∈ r.1 then some r.1 else (handleBuffers (call + 1) r.2 lines).map (r.1 ++ ·)

def readStdin (stream : Text) : Option (List Act) := handleBuffers compile apps 0 false (buffers 4096 stream)

structure Spoken extends Typed where
  ne_nil : bytes ≠ []
  noDot : bytes.head? ≠ some 46

def typed (lines : List Spoken) : Text := lines.flatMap fun line => line.bytes ++ [newline]

variable {compile} {apps}

theorem stringAt_zero {line : Text} (h : 0 ∉ line) : stringAt line 0 = line := by
  rw [stringAt, List.drop_zero]
  exact List.takeWhile_eq_self_iff.mpr fun b hb => by simpa using fun heq : b = 0 => h (heq ▸ hb)

theorem ascii_newline : ascii "\n" = [newline] := by
  decide

theorem handleStdin_message {apps : Applications} {fbindcallback : Bool} {line t rest : Text}
    (hdot : line.head? ≠ some 46) (h : strtok "\n" line = some (t, rest)) :
    handleStdin compile apps fbindcallback (some line) = some ([.ivySendMsg t], fbindcallback) := by
  unfold handleStdin
  dsimp only
  rw [if_neg hdot, h, Option.map_some]

theorem handleBuffers_message {call : ℕ} {fbindcallback : Bool} {line t rest : Text} {lines : List Text}
    (hzero : 0 ∉ line) (hdot : line.head? ≠ some 46) (h : strtok "\n" line = some (t, rest)) :
    handleBuffers compile apps call fbindcallback (line :: lines) =
      (handleBuffers compile apps (call + 1) fbindcallback lines).map (.ivySendMsg t :: ·) := by
  rw [handleBuffers, stringAt_zero hzero, handleStdin_message hdot h, Option.bind_some]
  exact if_neg (by simp)

theorem handleBuffers_short {call : ℕ} {fbindcallback : Bool} (line : Spoken)
    (hlen : line.bytes.length < 4095) (stream : Text) :
    handleBuffers compile apps call fbindcallback (buffers 4096 (line.bytes ++ newline :: stream)) =
      (handleBuffers compile apps (call + 1) fbindcallback (buffers 4096 stream)).map
        (.ivySendMsg line.bytes :: ·) := by
  have htoken := (isToken_byte ascii_newline).mpr ⟨line.ne_nil, line.noNewline⟩
  have hzero : 0 ∉ line.bytes ++ [newline] := by
    simp only [List.mem_append, List.mem_singleton, not_or]
    exact ⟨line.noZero, by decide⟩
  have hdot : (line.bytes ++ [newline]).head? ≠ some 46 := by
    rw [List.head?_append_of_ne_nil _ line.ne_nil]
    exact line.noDot
  rw [buffers_cons (by omega) (by simp), fgetsAux_short line.noNewline hlen]
  exact handleBuffers_message hzero hdot (strtok_next line.bytes newline [] htoken (by decide))

/-- A line that does not fit begins with a message of its first part, and one that just does not leaves a
newline to read. -/
theorem handleBuffers_long {call : ℕ} {fbindcallback : Bool} (line : Spoken) (hlen : 4095 ≤ line.bytes.length)
    (stream : Text) {acts : List Act} :
    handleBuffers compile apps call fbindcallback (buffers 4096 (line.bytes ++ newline :: stream)) ≠
      some (.ivySendMsg line.bytes :: acts) := by
  have hne : line.bytes.take 4095 ≠ [] := by
    rw [← List.length_pos_iff, List.length_take]
    omega
  have htoken : IsToken ((ascii "\n").contains ·) (line.bytes.take 4095) :=
    (isToken_byte ascii_newline).mpr ⟨hne, fun h => line.noNewline (List.mem_of_mem_take h)⟩
  have hread : strtok "\n" (line.bytes.take 4095) = some (line.bytes.take 4095, []) :=
    token_reads (.last [] (fun _ ha => absurd ha List.not_mem_nil) htoken rfl rfl)
  have hzero : 0 ∉ line.bytes.take 4095 := fun h => line.noZero (List.mem_of_mem_take h)
  have hdot : (line.bytes.take 4095).head? ≠ some 46 := by
    rw [List.head?_take, if_neg (by omega)]
    exact line.noDot
  rw [buffers_cons (by omega) (by simp), fgetsAux_long line.noNewline hlen]
  rw [handleBuffers_message hzero hdot hread]
  intro h
  obtain ⟨rest, hrest, heq⟩ := Option.map_eq_some_iff.mp h
  have htake : line.bytes.take 4095 = line.bytes := by simpa using (List.cons.inj heq).1
  have hdrop : line.bytes.drop 4095 = [] := by
    have hlength := congrArg List.length htake
    rw [List.length_take] at hlength
    exact List.drop_eq_nil_of_le (by omega)
  rw [hdrop, List.nil_append, buffers_cons (by omega) (by simp)] at hrest
  have hnewline : fgetsAux (4096 - 1) (newline :: stream) = ([newline], stream) := rfl
  rw [hnewline, handleBuffers] at hrest
  have hnone : handleStdin compile (apps (call + 1)) fbindcallback (some (stringAt [newline] 0)) = none := rfl
  rw [hnone] at hrest
  exact absurd hrest (by simp)

/-- The probe sends each line as one message exactly if each leaves room for its newline and the
terminator. -/
theorem readStdin_iff (compile : Registry.Compile Code) (apps : ℕ → Applications) (lines : List Spoken) :
    readStdin compile apps (typed lines) = some (lines.map (fun line => .ivySendMsg line.bytes) ++ [.stop]) ↔
      ∀ line ∈ lines, line.bytes.length < 4095 := by
  suffices h : ∀ call, handleBuffers compile apps call false (buffers 4096 (typed lines)) =
      some (lines.map (fun line => .ivySendMsg line.bytes) ++ [.stop]) ↔
        ∀ line ∈ lines, line.bytes.length < 4095 from h 0
  induction lines with
  | nil => exact fun call => ⟨fun _ _ hline => absurd hline List.not_mem_nil, fun _ => rfl⟩
  | cons line lines ih =>
    intro call
    have htyped : typed (line :: lines) = line.bytes ++ newline :: typed lines := by
      simp [typed]
    rw [htyped, List.map_cons, List.cons_append, List.forall_mem_cons]
    by_cases hlen : line.bytes.length < 4095
    · rw [handleBuffers_short line hlen, and_iff_right hlen, ← ih (call + 1)]
      simp
    · simp only [hlen, false_and, iff_false]
      exact handleBuffers_long line (Nat.le_of_not_lt hlen) (typed lines)

/-- A line that fits the array and begins with a dot is one call of `HandleStdin`. -/
theorem readStdin_line {line : Text} (hline : newline ∉ line) (hzero : 0 ∉ line) (hlen : line.length < 4095) :
    readStdin compile apps (line ++ [newline]) =
      (handleStdin compile (apps 0) false (some (line ++ [newline]))).bind fun r =>
        if .exit ∈ r.1 then some r.1 else some (r.1 ++ [.stop]) := by
  have hzero : 0 ∉ line ++ [newline] := by
    simp only [List.mem_append, List.mem_singleton, not_or]
    exact ⟨hzero, by decide⟩
  rw [readStdin, buffers_cons (by omega) (by simp), fgetsAux_short hline hlen, handleBuffers,
    stringAt_zero hzero]
  rfl

theorem directLine_cut (name : Typed) (id : Int32) (msg : Typed) :
    ∃ line, directLine name.bytes id msg = line ++ [newline] ∧ newline ∉ line ∧ 0 ∉ line := by
  let line : Text := ascii ".direct" ++ space :: (name.bytes ++ space :: (decimal id.toInt ++ space ::
    quote :: (msg.bytes ++ [quote])))
  have hnot {b : UInt8} (hb : b.toNat < 32) (hname : b ∉ name.bytes) (hmsg : b ∉ msg.bytes) : b ∉ line := by
    have hdecimal : b ∉ decimal id.toInt := not_mem_decimal (by omega)
    have hspace : b ≠ space := by
      rintro rfl
      simp [space] at hb
    have hquote : b ≠ quote := by
      rintro rfl
      simp [quote] at hb
    have hcommand : b ∉ ascii ".direct" := by
      intro hmem
      have hle : ∀ a ∈ ascii ".direct", 32 ≤ a.toNat := by decide +kernel
      exact absurd (hle b hmem) (by omega)
    simp [line, hcommand, hspace, hname, hdecimal, hquote, hmsg]
  refine ⟨line, by simp [line, directLine, Typed.quoted], ?_, ?_⟩
  · exact hnot (by decide) name.noNewline msg.noNewline
  · exact hnot (by decide) name.noZero msg.noZero

/-- The line that the manual gives, where it fits the array of `HandleStdin`, sends the message to the
application exactly if its name is one word, it is the first one with that name, and the message has no
quote. -/
theorem direct_line_iff (compile : Registry.Compile Code) (apps : ℕ → Applications) (c : ℕ) (name : Typed)
    (happ : (c, name.bytes) ∈ (apps 0).list) (id : Int32) (msg : Typed)
    (hlen : (directLine name.bytes id msg).length < 4096) :
    readStdin compile apps (directLine name.bytes id msg) =
        some [.ivySendDirectMsg c id.toInt msg.bytes, .stop] ↔
      IsToken ((ascii " \n").contains ·) name.bytes ∧ ivyGetApplication (apps 0) name.bytes = some c ∧
        quote ∉ msg.bytes := by
  obtain ⟨line, hline, hnewline, hzero⟩ := directLine_cut name id msg
  have hfits : line.length < 4095 := by
    rw [hline, List.length_append, List.length_singleton] at hlen
    omega
  rw [hline, readStdin_line hnewline hzero hfits, ← hline, handleStdin_direct, ← direct_iff happ]
  cases direct (apps 0) (name.bytes ++ space :: (decimal id.toInt ++ space :: msg.quoted)) with
  | none => simp
  | some acts =>
    by_cases hexit : Act.exit ∈ acts
    · have hne : acts ≠ [.ivySendDirectMsg c id.toInt msg.bytes, .stop] := by
        rintro rfl
        simp at hexit
      have hne' : acts ≠ [.ivySendDirectMsg c id.toInt msg.bytes] := by
        rintro rfl
        simp at hexit
      simp [hexit, hne, hne']
    · have hstop : acts ++ [Act.stop] = [.ivySendDirectMsg c id.toInt msg.bytes, .stop] ↔
          acts = [.ivySendDirectMsg c id.toInt msg.bytes] :=
        @List.append_left_inj _ acts [.ivySendDirectMsg c id.toInt msg.bytes] [Act.stop]
      simp [hexit, hstop]

theorem direct_line_example :
    readStdin (fun _ => .ok () : Registry.Compile Unit) (fun _ => ⟨[(2, ascii "B")], by decide⟩)
        (directLine (ascii "B") 7 ⟨ascii "hi there", by decide, by decide⟩) =
      some [.ivySendDirectMsg 2 7 (ascii "hi there"), .stop] :=
  (direct_line_iff (fun _ => .ok ()) (fun _ => ⟨[(2, ascii "B")], by decide⟩)
    2 ⟨ascii "B", by decide, by decide⟩ (List.mem_singleton.mpr rfl) 7
    ⟨ascii "hi there", by decide, by decide⟩ (by decide)).mpr ⟨by decide, rfl, by decide⟩

end Runs

end Ivy.Probe
