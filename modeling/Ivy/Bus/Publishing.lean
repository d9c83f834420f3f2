import Ivy.Registry.Matching
import Ivy.Socket.Message

/-! A subscriber and a publisher over one connection. Once the publisher has read what was bound, a
message calls exactly the callbacks whose regexps match. -/
namespace Ivy.Bus
open Registry Socket

variable {Code : Type*}

/-- The lines of the subscriber go one way, the frames of the publisher the other; `requests` is what
`Receive` made of the frames that were read. -/
structure Session (Code : Type*) where
  link : Link Code
  back : List UInt8
  requests : List Request

/-- A call of the subscriber or the publisher reading a line of it, a message of the publisher, and the
subscriber reading a frame. -/
inductive SessionEvent
  | link (e : Registry.Action)
  | ivySendMsg (message : Text)
  | receive

/-- The publisher does not know the subscriber, and nothing was sent. -/
def newSession (peer : State Code) : Session Code := ⟨unconnected peer, [], []⟩

section
variable (a : Agents Code) (exec : Exec Code)

def framesTo (message : Text) (peer : State Code) : List UInt8 :=
  ((callsTo exec message peer a.client).map fun call => callFrame emptyBuffer call.1 call.2).flatten

def sessionStep (s : Session Code) : SessionEvent → Option (Session Code)
  | .link e => (act a s.link e).map fun link => { s with link := link }
  | .ivySendMsg message => some { s with back := s.back ++ framesTo a exec message s.link.peer }
  | .receive => (cutLine s.back).map fun (line, back) => { s with
      back := back
      requests := s.requests ++ [(receive false s.link.bindings.msg_recv ⟨0, 0⟩ line).2] }

/-- What the callers owe, the condition on announcements, and a frame to read. -/
def Works (s : Session Code) : SessionEvent → Prop
  | .link e => Proper s.link e ∧ Unambiguous a s.link e
  | .ivySendMsg _ => True
  | .receive => newline ∈ s.back

instance (s : Session Code) : ∀ e, Decidable (Works a s e)
  | .link _ => inferInstanceAs (Decidable (_ ∧ _))
  | .ivySendMsg _ => .isTrue trivial
  | .receive => inferInstanceAs (Decidable (_ ∈ _))

end

def requestOf (captures : List (Option Text)) (msg : MsgRcv) : Request :=
  if captures.length ≤ maxMatchingArgs then
    msg.callback.elim (.noCallback msg.id) fun callback => .call msg.id callback msg.user_data (captures.map argText)
  else .tooManyArgs msg.id

/-- What a message asks of the bindings: every one whose regexp matches is called with what it captures. -/
def asked (compile : Compile Code) (exec : Exec Code) (message : Text) (b : Bindings) : List Request :=
  b.msg_recv.filterMap fun msg => (answers compile exec message msg.regexp).map fun captures => requestOf captures msg

/-- The captures of PCRE2 are parts of the message. -/
def Captures (exec : Exec Code) : Prop :=
  ∀ code message captures, exec code message = some captures → ∀ capture ∈ captures, argText capture <:+: message

section Frames
variable {a : Agents Code} {exec : Exec Code} {s : Session Code}

theorem clean_of_infix {message : Text} (hmessage : Clean (some message)) {capture : Option Text}
    (h : argText capture <:+: message) : Clean capture := fun b hb => hmessage b (h.subset hb)

theorem clean_answers (hexec : Captures exec) {compile : Compile Code} {message : Text} (hmessage : Clean (some message))
    {regexp : Text} {captures : List (Option Text)} (h : answers compile exec message regexp = some captures) :
    ∀ capture ∈ captures, Clean capture := by
  obtain ⟨code, -, hmatch⟩ := Option.bind_eq_some_iff.mp h
  exact fun capture hcapture => clean_of_infix hmessage (hexec code message captures hmatch capture hcapture)

theorem callFrame_eq (id : ℤ) (captures : List (Option Text)) :
    callFrame emptyBuffer id captures = (Message.msg id captures).line ++ [newline] := by
  rw [callFrame, (printArgs_contents emptyBuffer captures).1, ← List.append_assoc]
  rfl

theorem cutLine_line {line : Text} (h : newline ∉ line) (rest : List UInt8) :
    cutLine (line ++ [newline] ++ rest) = some (line, rest) := by
  have hall : ∀ b ∈ line, decide (b ≠ newline) = true := fun b hb => decide_eq_true fun heq => h (heq ▸ hb)
  rw [List.append_assoc, List.singleton_append, cutLine, if_pos (by simp), List.takeWhile_append_of_pos hall,
    List.dropWhile_append_of_pos hall]
  simp

theorem receive_frames (calls : List (ℤ × List (Option Text)))
    (hcalls : ∀ call ∈ calls, (-2 ^ 31 ≤ call.1 ∧ call.1 < 2 ^ 31) ∧ ∀ capture ∈ call.2, Clean capture)
    (hback : s.back = (calls.map fun call => callFrame emptyBuffer call.1 call.2).flatten) :
    Machine.run (sessionStep a exec) s (List.replicate calls.length .receive) = some { s with
      back := []
      requests := s.requests ++ calls.map fun call =>
        Message.callOf s.link.bindings.msg_recv call.1 (call.2.map argText) } := by
  induction calls generalizing s with
  | nil =>
    obtain ⟨link, back, requests⟩ := s
    obtain rfl : back = [] := hback
    simp [Machine.run]
  | cons call calls ih =>
    obtain ⟨⟨hid, hclean⟩, hrest⟩ := List.forall_mem_cons.mp hcalls
    have hcut : cutLine s.back = some ((Message.msg call.1 call.2).line,
        (calls.map fun call => callFrame emptyBuffer call.1 call.2).flatten) := by
      rw [hback, List.map_cons, List.flatten_cons, callFrame_eq]
      exact cutLine_line (Message.newline_not_mem_call call.1 hclean) _
    have hstep : sessionStep a exec s .receive = some { s with
        back := (calls.map fun call => callFrame emptyBuffer call.1 call.2).flatten
        requests := s.requests ++
          [Message.callOf s.link.bindings.msg_recv call.1 (call.2.map argText)] } := by
      unfold sessionStep
      dsimp only
      rw [hcut, Option.map_some, Message.receive_call hid hclean]
    rw [List.length_cons, List.replicate_succ, Machine.run, hstep, Option.bind_some, ih hrest rfl]
    simp

theorem callOf_binding {b : Bindings} {msg : MsgRcv} (hmsg : msg ∈ b.msg_recv) (captures : List (Option Text)) :
    Message.callOf b.msg_recv msg.id (captures.map argText) = requestOf captures msg := by
  have hfind : b.msg_recv.find? (msg.id = ·.id) = some msg := by
    have hkeyed := (Keyed.find_eq_some b.ids).mpr ⟨hmsg, rfl⟩
    unfold Keyed.find at hkeyed
    rw [← hkeyed]
    congr 1
    funext other
    simp [eq_comm]
  unfold Message.callOf requestOf
  rw [hfind]
  dsimp only
  rw [List.length_map]
  cases msg.callback <;> rfl

theorem map_callOf_matching (compile : Compile Code) (message : Text) (b : Bindings) :
    ((matching compile exec message b).map fun call => Message.callOf b.msg_recv call.1 (call.2.map argText)) =
      asked compile exec message b := by
  unfold matching asked
  rw [List.map_filterMap]
  apply List.filterMap_congr
  intro msg hmsg
  rw [Option.map_map]
  congr 1
  funext captures
  exact callOf_binding hmsg captures

end Frames

/-- The link is as it should be, and the publisher's entries hold their codes. -/
structure InSession (a : Agents Code) (s : Session Code) : Prop where
  linked : Linked a.client s.link
  compiled : Compiled a.compile s.link.peer

section Results
variable {a : Agents Code} {exec : Exec Code}

theorem compiled_act {l l' : Link Code} (hlinked : Linked a.client l) (h : Compiled a.compile l.peer) {e : Registry.Action}
    (hproper : Proper l e) (hact : act a l e = some l') : Compiled a.compile l'.peer := by
  have hsame (l : Link Code) (line : Line) : (sendLine l line).peer = l.peer := by
    unfold sendLine
    split_ifs <;> rfl
  cases e with
  | bind regexp callback user_data =>
    simp only [act, ivyBindMsg] at hact
    split_ifs at hact
    obtain rfl := Option.some.inj hact
    rwa [hsame]
  | change id regexp =>
    obtain rfl := Option.some.inj hact
    unfold ivyChangeMsg
    rwa [hsame]
  | unbind id =>
    obtain rfl := Option.some.inj hact
    unfold ivyUnbindMsg
    dsimp only
    rwa [hsame]
  | connect =>
    obtain ⟨peer, hpeer, rfl⟩ := Option.map_eq_some_iff.mp hact
    rw [step_connect (hlinked.before hproper).2.1] at hpeer
    obtain rfl := Option.some.inj hpeer
    exact h
  | deliver =>
    have hopen : l.peer.allClients.find a.client ≠ none := by
      cases hconnected : l.connected with
      | false =>
        have hwire : newline ∈ l.wire := hproper
        rw [(hlinked.before hconnected).1] at hwire
        exact absurd hwire List.not_mem_nil
      | true =>
        obtain ⟨m, pending, hpending⟩ := hlinked.after hconnected
        exact hpending.holds.open_
    obtain ⟨⟨line, wire⟩, -, hread⟩ := Option.bind_eq_some_iff.mp hact
    dsimp only at hread
    split at hread
    · obtain rfl := Option.some.inj hread
      exact h
    · obtain ⟨peer, hpeer, rfl⟩ := Option.map_eq_some_iff.mp hread
      exact h.receiveLine hopen hpeer

theorem InSession.step {s : Session Code} (h : InSession a s) {e : SessionEvent} (he : Works a s e) :
    ∃ t, sessionStep a exec s e = some t ∧ InSession a t := by
  cases e with
  | link e =>
    obtain ⟨l, hact, hlinked⟩ := linked_step h.linked he.1 he.2
    exact ⟨{ s with link := l }, congrArg (Option.map _) hact, hlinked, compiled_act h.linked h.compiled he.1 hact⟩
  | ivySendMsg message => exact ⟨_, rfl, h.linked, h.compiled⟩
  | receive =>
    have hcut : cutLine s.back = some (s.back.takeWhile (· ≠ newline), (s.back.dropWhile (· ≠ newline)).tail) :=
      if_pos he
    exact ⟨_, congrArg (Option.map _) hcut, h.linked, h.compiled⟩

/-- The publisher agrees with the subscriber when nothing is on its way to it. -/
theorem InSession.holds {s : Session Code} (h : InSession a s) (hconnected : s.link.connected = true)
    (hwire : s.link.wire = []) : Registry.Holds s.link.peer a.client s.link.bindings.regexp := by
  obtain ⟨m, pending, hpending⟩ := h.linked.after hconnected
  cases pending with
  | nil =>
    have happly : m = s.link.bindings.regexp := hpending.apply
    exact happly ▸ hpending.holds
  | cons line pending =>
    have hframe := (line.frame_lines (hpending.sendable line List.mem_cons_self)).1
    have hpieces := hpending.wire
    rw [hwire, List.flatMap_cons, hframe] at hpieces
    simp at hpieces

/-- After any run, once nothing is on its way, a message that the publisher sends asks the subscriber for
exactly its bindings whose regexps match, each once and with what it captured. -/
theorem publish_subscribe (hexec : Captures exec) {peer : State Code}
    (hnew : peer.allClients.find a.client = none) (hnone : ∀ id r, ⟨a.client, id⟩ ∉ peer.messSndByRegexp.subs r)
    (hpeer : Compiled a.compile peer) {events : List SessionEvent}
    (hrun : Machine.Guarded (sessionStep a exec) (Works a) (newSession peer) events) :
    ∃ t, Machine.run (sessionStep a exec) (newSession peer) events = some t ∧
      (t.link.connected = true → t.link.wire = [] → t.back = [] → ∀ message, Clean (some message) →
        ∃ u, Machine.run (sessionStep a exec) t
            (.ivySendMsg message :: List.replicate (asked a.compile exec message t.link.bindings).length .receive) =
              some u ∧
          u.link = t.link ∧ u.back = [] ∧ ∃ requests, u.requests = t.requests ++ requests ∧
            requests.Perm (asked a.compile exec message t.link.bindings)) := by
  have hstart : InSession a (newSession peer) :=
    ⟨⟨fun _ h => absurd h List.not_mem_nil, fun _ => ⟨rfl, hnew, hnone⟩, fun h => absurd h Bool.false_ne_true⟩, hpeer⟩
  obtain ⟨t, ht, hsession⟩ := Machine.run_invariant hstart (fun s e h he => h.step he) hrun
  refine ⟨t, ht, fun hconnected hwire hback message hmessage => ?_⟩
  have hholds := hsession.holds hconnected hwire
  have hperm : (callsTo exec message t.link.peer a.client).Perm (matching a.compile exec message t.link.bindings) :=
    callsTo_perm hholds hsession.compiled
  have hcalls : ∀ call ∈ callsTo exec message t.link.peer a.client,
      (-2 ^ 31 ≤ call.1 ∧ call.1 < 2 ^ 31) ∧ ∀ capture ∈ call.2, Clean capture := by
    intro call hcall
    obtain ⟨msg, hmsg, hanswers⟩ := List.mem_filterMap.mp (hperm.mem_iff.mp hcall)
    obtain ⟨captures, hcaptures, rfl⟩ := Option.map_eq_some_iff.mp hanswers
    exact ⟨t.link.bindings.id_mem (List.mem_map_of_mem hmsg), clean_answers hexec hmessage hcaptures⟩
  have hasked := hperm.map fun call => Message.callOf t.link.bindings.msg_recv call.1 (call.2.map argText)
  rw [map_callOf_matching] at hasked
  have hlength : (asked a.compile exec message t.link.bindings).length =
      (callsTo exec message t.link.peer a.client).length := by
    rw [← hasked.length_eq, List.length_map]
  have hsent : Machine.run (sessionStep a exec) t
      (.ivySendMsg message :: List.replicate (asked a.compile exec message t.link.bindings).length .receive) =
        some { t with back := [], requests := t.requests ++ (callsTo exec message t.link.peer a.client).map fun call =>
          Message.callOf t.link.bindings.msg_recv call.1 (call.2.map argText) } := by
    rw [hlength, Machine.run]
    change Machine.run (sessionStep a exec) { t with back := t.back ++ framesTo a exec message t.link.peer } _ = _
    rw [hback, List.nil_append]
    exact receive_frames (callsTo exec message t.link.peer a.client) hcalls rfl
  exact ⟨_, hsent, rfl, rfl, _, rfl, hasked⟩

end Results

/-- A matcher that finds every message whole. -/
def wholeMessage : Exec Unit := fun _ message => some [some message]

theorem captures_wholeMessage : Captures wholeMessage := by
  intro code message captures h capture hcapture
  obtain rfl := Option.some.inj h
  obtain rfl := List.mem_singleton.mp hcapture
  exact List.infix_rfl

/-- Two bindings, one of them made after the connection. -/
def twoBindings : List SessionEvent :=
  [.link (.bind (ascii "a") (some 1) 0), .link .connect, .link (.bind (ascii "b") none 0), .link .deliver,
    .link .deliver, .link .deliver, .link .deliver]

theorem publish_subscribe_example : ∃ t u, Machine.run (sessionStep twoAgents wholeMessage) (newSession initial)
      twoBindings = some t ∧
    Machine.run (sessionStep twoAgents wholeMessage) t
      (.ivySendMsg (ascii "m") :: List.replicate
        (asked twoAgents.compile wholeMessage (ascii "m") t.link.bindings).length .receive) = some u ∧
    ∃ requests, u.requests = t.requests ++ requests ∧
      requests.Perm (asked twoAgents.compile wholeMessage (ascii "m") t.link.bindings) := by
  have hguard : Machine.Guarded (sessionStep twoAgents wholeMessage) (Works twoAgents) (newSession initial)
      twoBindings := by decide +kernel
  have hread : (Machine.run (sessionStep twoAgents wholeMessage) (newSession initial) twoBindings).any
      (fun t => decide (t.link.connected = true ∧ t.link.wire = [] ∧ t.back = [])) = true := by decide +kernel
  obtain ⟨t, ht, hall⟩ := publish_subscribe captures_wholeMessage rfl
    (fun id r => by simp [initial, Dictionary.subs, Dictionary.hashFind, Dictionary.empty, Keyed.find])
    (fun e he => absurd he List.not_mem_nil) hguard
  rw [ht] at hread
  obtain ⟨hconnected, hwire, hback⟩ := of_decide_eq_true hread
  obtain ⟨u, hu, -, -, hrequests⟩ := hall hconnected hwire hback (ascii "m") (by decide)
  exact ⟨t, u, ht, hu, hrequests⟩

end Ivy.Bus
