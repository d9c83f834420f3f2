import Ivy.Protocol.Buffer

/-! The arguments of a Msg frame: `RegexpCall` terminates each of them, `nextArg` cuts
the line at the terminators in place. -/
namespace Ivy

def args (as : List Text) : Text := as.flatMap (· ++ [argEnd])

/-- A group that takes no part in the match has no substring. -/
def argText (capture : Option Text) : Text := capture.getD []

/-- The part of `RegexpCall` that fills `bufferArg`: every captured group, then the newline. -/
def printArgs (bufferArg : IvyBuffer) (captures : List (Option Text)) : IvyBuffer :=
  makeMessage
    (captures.foldl (fun b capture => makeMessage b (argText capture ++ [argEnd])) bufferArg.reset)
    [newline]

theorem printArgs_contents (bufferArg : IvyBuffer) (captures : List (Option Text)) :
    (printArgs bufferArg captures).contents = args (captures.map argText) ++ [newline] ∧
      (printArgs bufferArg captures).Allocated := by
  have hfold : ∀ (cs : List (Option Text)) (b : IvyBuffer), b.Allocated →
      let r := cs.foldl (fun b capture => makeMessage b (argText capture ++ [argEnd])) b
      r.contents = b.contents ++ args (cs.map argText) ∧ r.Allocated := by
    intro cs
    induction cs with
    | nil => exact fun b hb => ⟨by simp [args], hb⟩
    | cons c cs ih =>
      intro b hb
      obtain ⟨hc, ha, -⟩ := makeMessage_spec hb (argText c ++ [argEnd])
      obtain ⟨hr, hra⟩ := ih _ ha
      exact ⟨by simpa [hc, args] using hr, hra⟩
  obtain ⟨hc, ha⟩ := hfold captures bufferArg.reset (allocated_reset bufferArg)
  obtain ⟨hn, hna, -⟩ := makeMessage_spec ha [newline]
  exact ⟨by rw [printArgs, hn, hc, contents_reset, List.nil_append], hna⟩

/-- The static variables of `nextArg`, as offsets in the line. -/
structure Cursors where
  start : ℕ
  stop : ℕ

/-- The byte at an offset; the terminator is at the end. -/
def charAt (line : Text) (i : ℕ) : UInt8 := line.getD i 0

def stringAt (line : Text) (i : ℕ) : Text := (line.drop i).takeWhile (· ≠ 0)

/-- Where `while ( *end && *end != *separator ) end++` stops. -/
def skipArg (line : Text) (separator : UInt8) (i : ℕ) : ℕ :=
  i + ((line.drop i).takeWhile fun b => b ≠ 0 ∧ b ≠ separator).length

def nextArg (c : Cursors) (line : Text) (s : Option ℕ) (separator : UInt8) :
    Cursors × Text × Option ℕ :=
  let start := s.getD c.stop
  let stop := skipArg line separator start
  let (stop', line') :=
    if charAt line stop = separator then (stop + 1, line.set stop 0) else (stop, line)
  (⟨start, stop'⟩, line', if stop' = start then none else some start)

def maxMatchingArgs : ℕ := 120

/-- The loop of `Receive` that fills `argv`, with `room` places left; `none` rejects the message. -/
def gatherArgs : ℕ → Cursors → Text → List ℕ → Option ℕ → Cursors × Text × Option (List ℕ)
  | _, c, line, argv, none => (c, line, some argv)
  | 0, c, line, _, some _ => (c, line, none)
  | room + 1, c, line, argv, some arg =>
    let (c, line, next) := nextArg c line none argEnd
    gatherArgs room c line (argv ++ [arg]) next

/-- A text that can be an argument. -/
def IsArg (a : Text) : Prop := ∀ b ∈ a, b ≠ 0 ∧ b ≠ argEnd

theorem nextArg_end (c : Cursors) (line : Text) {s : Option ℕ} (hs : s.getD c.stop = line.length) :
    nextArg c line s argEnd = (⟨line.length, line.length⟩, line, none) := by
  simp [nextArg, hs, skipArg, charAt, argEnd]

theorem nextArg_arg (c : Cursors) (pre rest : Text) {a : Text} (ha : IsArg a) {s : Option ℕ}
    (hs : s.getD c.stop = pre.length) :
    nextArg c (pre ++ (a ++ argEnd :: rest)) s argEnd =
      (⟨pre.length, (pre ++ a ++ [0]).length⟩, pre ++ a ++ [0] ++ rest, some pre.length) := by
  have hskip : skipArg (pre ++ (a ++ argEnd :: rest)) argEnd pre.length = (pre ++ a).length := by
    rw [skipArg, List.drop_left, List.takeWhile_append_of_pos (by simpa [IsArg] using ha),
      List.takeWhile_cons_of_neg (by simp), List.append_nil, List.length_append]
  have hchar : charAt (pre ++ (a ++ argEnd :: rest)) (pre ++ a).length = argEnd := by
    rw [charAt, ← List.append_assoc, List.getD_append_right _ _ _ _ le_rfl]
    simp
  have hset : (pre ++ (a ++ argEnd :: rest)).set (pre ++ a).length 0 = pre ++ a ++ [0] ++ rest := by
    rw [← List.append_assoc, List.set_append_right _ _ le_rfl]
    simp
  have hlen : (pre ++ a).length + 1 = (pre ++ a ++ [0]).length := by
    simp only [List.length_append, List.length_singleton]
  have hne : (pre ++ a ++ [0]).length ≠ pre.length := by
    simp only [List.length_append, List.length_singleton]
    omega
  simp only [nextArg, hs, hskip, hchar, hset, if_true, hlen, if_neg hne]

/-- `a` and its terminator stand at offset `i`. -/
def Holds (line : Text) (i : ℕ) (a : Text) : Prop :=
  ∃ pre rest, line = pre ++ a ++ 0 :: rest ∧ pre.length = i

theorem Holds.append {line : Text} {i : ℕ} {a : Text} (h : Holds line i a) (rest : Text) :
    Holds (line ++ rest) i a := by
  obtain ⟨pre, mid, rfl, hi⟩ := h
  exact ⟨pre, mid ++ rest, by simp, hi⟩

theorem Holds.stringAt {line : Text} {i : ℕ} {a : Text} (h : Holds line i a) (ha : IsArg a) :
    stringAt line i = a := by
  obtain ⟨pre, rest, rfl, rfl⟩ := h
  rw [Ivy.stringAt, List.append_assoc, List.drop_left,
    List.takeWhile_append_of_pos fun b hb => by simpa using (ha b hb).1,
    List.takeWhile_cons_of_neg (by simp), List.append_nil]

theorem map_stringAt {line : Text} {argv : List ℕ} {as : List Text}
    (h : argv.Forall₂ (Holds line) as) (has : ∀ a ∈ as, IsArg a) :
    argv.map (stringAt line) = as := by
  induction h with
  | nil => rfl
  | cons hi _ ih =>
    rw [List.map_cons, hi.stringAt (has _ (by simp)), ih fun a ha => has a (by simp [ha])]

/-- With room for the arguments that follow `pre`, all of them are collected; otherwise the
message is rejected. -/
theorem gatherArgs_args {as : List Text} (has : ∀ a ∈ as, IsArg a) (room : ℕ) (c : Cursors)
    (pre : Text) {argv : List ℕ} {done : List Text} (hargv : argv.Forall₂ (Holds pre) done)
    {s : Option ℕ} (hs : s.getD c.stop = pre.length) :
    let n := nextArg c (pre ++ args as) s argEnd
    let r := gatherArgs room n.1 n.2.1 argv n.2.2
    if as.length ≤ room then ∃ argv' ∈ r.2.2, argv'.Forall₂ (Holds r.2.1) (done ++ as)
    else r.2.2 = none := by
  induction as generalizing room c pre argv done s with
  | nil =>
    rw [args, List.flatMap_nil, List.append_nil, nextArg_end c pre hs]
    simpa [gatherArgs] using hargv
  | cons a as ih =>
    have hline : pre ++ args (a :: as) = pre ++ (a ++ argEnd :: args as) := by simp [args]
    rw [hline, nextArg_arg c pre (args as) (has a (by simp)) hs]
    cases room with
    | zero => simp [gatherArgs]
    | succ room =>
      have hpre : (argv ++ [pre.length]).Forall₂ (Holds (pre ++ a ++ [0])) (done ++ [a]) := by
        refine List.rel_append (hargv.imp fun i b hb => ?_) (.cons ⟨pre, [], rfl, rfl⟩ .nil)
        simpa using hb.append (a ++ [0])
      have := ih (fun b hb => has b (by simp [hb])) room
        ⟨pre.length, (pre ++ a ++ [0]).length⟩ (pre ++ a ++ [0]) hpre (s := none) rfl
      simpa [gatherArgs] using this

end Ivy
