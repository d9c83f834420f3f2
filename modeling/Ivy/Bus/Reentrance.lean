import Ivy.Bus.Senders

/-! A callback that runs in the middle of `IvySendMsg` may send messages of its own. They are
printed into the static buffers that the interrupted call still reads. -/
namespace Ivy.Bus
open Registry Socket

variable {Code User : Type*}

/-- What a match prints: the captures and the newline. -/
def printed (exec : Exec Code) (message : Text) (msg : MsgSndDict Code) : Option Text :=
  (msg.binding.bind fun code => exec code message).map fun captures =>
    args (captures.map argText) ++ [newline]

def frame (payload : Text) (clnt : Subscriber) : Handed :=
  ⟨clnt.client, bufferId .msg clnt.id, payload⟩

/-- The frames that a message owes to the subscribers of an entry. -/
def owed (exec : Exec Code) (message : Text) (msg : MsgSndDict Code) : List Handed :=
  (Registry.regexpCall exec message msg).map fun r => frame (args (r.2.map argText) ++ [newline]) r.1

theorem owed_eq (exec : Exec Code) (message : Text) (msg : MsgSndDict Code) :
    owed exec message msg =
      match printed exec message msg with
      | none => []
      | some payload => msg.clientList.map (frame payload) := by
  unfold owed Registry.regexpCall printed
  cases msg.binding.bind fun code => exec code message with
  | none => rfl
  | some captures => exact List.map_map

/-- Every subscriber of every entry gets its frame once, and the frames are counted. -/
def ExactlyOnce (exec : Exec Code) (message : Text) (entries : List (MsgSndDict Code))
    (r : Call Code User (List (List Handed))) : Prop :=
  (∀ (i : ℕ) (e : MsgSndDict Code), entries[i]? = some e →
    r.handed.getD i [] = owed exec message e) ∧
  r.match_count = r.handed.flatten.length

def Sending.text : Sending Code → Option Text
  | .ivySendMsg message => some message
  | .regexpCall _ _ => none

/-- What a call prints into the buffer of `RegexpCall`. -/
def Sending.captures (exec : Exec Code) : Sending Code → Option Text
  | .ivySendMsg _ => none
  | .regexpCall msg message => printed exec message msg

def lastText (sendings : List (Sending Code)) : Option Text := (sendings.filterMap Sending.text).getLast?

def lastCaptures (exec : Exec Code) (sendings : List (Sending Code)) : Option Text :=
  (sendings.filterMap (Sending.captures exec)).getLast?

/-- The calls of the application that each frame for the subscribers of an entry leads to. -/
def clientsNested (callback : Callback Code User) :
    Agent Code User → List Subscriber → List (List (Sending Code))
  | _, [] => []
  | a, clnt :: rest =>
    let b := (callClient callback a clnt).1
    b.sendings.drop a.sendings.length :: clientsNested callback b rest

def entryNested (exec : Exec Code) (callback : Callback Code User) (a : Agent Code User)
    (msg : MsgSndDict Code) (message : Text) : List (List (Sending Code)) :=
  match msg.binding.bind fun code => exec code message with
  | none => []
  | some captures =>
    clientsNested callback { a with
      sendings := a.sendings ++ [.regexpCall msg message]
      bufferArg := printArgs a.bufferArg captures } msg.clientList

/-- The nested calls of a whole loop of `IvySendMsg`: for each entry, for each of its frames. -/
def entriesNested (exec : Exec Code) (callback : Callback Code User) :
    Agent Code User → List (MsgSndDict Code) → List (List (List (Sending Code)))
  | _, [] => []
  | a, e :: rest => entryNested exec callback a e a.buffer.string ::
      entriesNested exec callback (regexpCall exec callback a e a.buffer.string).agent rest

/-- The message that was sent last, this one or a nested one, has the match result of this one in an entry
with subscribers; and where a nested call comes before the last frame of an entry, the last one that matched
gave the captures of this entry. -/
def Undisturbed (exec : Exec Code) (message : Text) :
    Text → List (MsgSndDict Code) → List (List (List (Sending Code))) → Prop
  | last, e :: entries, nested :: rest =>
    ((e.clientList ≠ [] → printed exec last e = printed exec message e) ∧
      ∀ sendings ∈ nested.dropLast, ∀ payload ∈ lastCaptures exec sendings,
        printed exec message e = some payload) ∧
    Undisturbed exec message ((lastText nested.flatten).getD last) entries rest
  | _, _, _ => True

def Refused (debug_binary_msg : Bool) (m : Format) : Prop :=
  m.fmt.getD [] = [] ∨ debug_binary_msg = true ∧ ivyCheckBuffer m.message = true

/-- `IvySendMsg` takes the message and its nested calls leave it undisturbed, or nobody asked for the
message. -/
def Intact (exec : Exec Code) (callback : Callback Code User) (debug_binary_msg : Bool)
    (a : Agent Code User) (m : Format) : Prop :=
  (Refused debug_binary_msg m → ∀ e ∈ a.messSndByRegexp.entries, owed exec m.message e = []) ∧
  (¬ Refused debug_binary_msg m → Undisturbed exec m.message m.message a.messSndByRegexp.entries
    (entriesNested exec callback (printMessage a m) a.messSndByRegexp.entries))

section Leaves
variable {exec : Exec Code}

/-- The calls in between say what stands in the static buffers. -/
def Leaves (exec : Exec Code) (a b : Agent Code User) : Prop :=
  ∃ new, b.sendings = a.sendings ++ new ∧ b.buffer.string = (lastText new).getD a.buffer.string ∧
    b.bufferArg.contents = (lastCaptures exec new).getD a.bufferArg.contents

theorem lastText_append (l l' : List (Sending Code)) : lastText (l ++ l') = (lastText l').or (lastText l) := by
  rw [lastText, List.filterMap_append, List.getLast?_append]
  rfl

theorem lastCaptures_append (l l' : List (Sending Code)) :
    lastCaptures exec (l ++ l') = (lastCaptures exec l').or (lastCaptures exec l) := by
  rw [lastCaptures, List.filterMap_append, List.getLast?_append]
  rfl

theorem Leaves.refl (a : Agent Code User) : Leaves exec a a := ⟨[], by simp, rfl, rfl⟩

theorem Leaves.trans {a b c : Agent Code User} (hab : Leaves exec a b) (hbc : Leaves exec b c) :
    Leaves exec a c := by
  obtain ⟨l, hl, htext, hcaptures⟩ := hab
  obtain ⟨l', hl', htext', hcaptures'⟩ := hbc
  refine ⟨l ++ l', by rw [hl', hl, List.append_assoc], ?_, ?_⟩
  · rw [htext', htext, lastText_append, Option.getD_or]
  · rw [hcaptures', hcaptures, lastCaptures_append, Option.getD_or]

theorem Leaves.of_eq {a b : Agent Code User} (hsendings : b.sendings = a.sendings) (hbuffer : b.buffer = a.buffer)
    (hbufferArg : b.bufferArg = a.bufferArg) : Leaves exec a b :=
  ⟨[], by simp [hsendings], by rw [hbuffer]; rfl, by rw [hbufferArg]; rfl⟩

/-- A callback whose calls say what it leaves in the static buffers. -/
def Callback.Logs (exec : Exec Code) (callback : Callback Code User) : Prop :=
  ∀ a c event, Leaves exec a (callback a c event)

variable {callback : Callback Code User} (h : callback.Logs exec)
include h

theorem reportState_leaves (a : Agent Code User) (c : ℕ) (state : SendState) :
    Leaves exec a (reportState callback a c state) := by
  have hcallback (event : IvyApplicationEvent) : Leaves exec a (applicationCallback callback a c event) :=
    h { a with net := a.net.deliver c event } c event
  cases state with
  | sendStateChangeToCongestion => exact hcallback _
  | sendStateFifoFull => exact hcallback _
  | _ => exact .refl a

theorem callClient_leaves (a : Agent Code User) (clnt : Subscriber) :
    Leaves exec a (callClient callback a clnt).1 := by
  have hreport := fun net state => reportState_leaves h { a with net := net } clnt.client state
  exact hreport _ _

theorem callClientUnique_leaves (a : Agent Code User) (clnt : Subscriber) :
    Leaves exec a (callClientUnique callback a clnt) := by
  unfold callClientUnique
  dsimp only
  split_ifs
  · exact h { a with net := _ } _ _
  · exact .of_eq rfl rfl rfl

theorem regexpCall_leaves (a : Agent Code User) (msg : MsgSndDict Code) (message : Text) :
    Leaves exec a (regexpCall exec callback a msg message).agent := by
  unfold regexpCall
  cases hmatch : msg.binding.bind fun code => exec code message with
  | none => exact ⟨[.regexpCall msg message], rfl, rfl, by simp [lastCaptures, Sending.captures, printed, hmatch]⟩
  | some captures =>
    have hclients := callClients_rule (R := Leaves exec) Leaves.refl (fun _ _ _ => Leaves.trans)
      (callClient_leaves h) { a with
        sendings := a.sendings ++ [.regexpCall msg message]
        bufferArg := printArgs a.bufferArg captures } msg.clientList
    refine Leaves.trans ?_ hclients
    refine ⟨[.regexpCall msg message], rfl, rfl, ?_⟩
    simp [lastCaptures, Sending.captures, printed, hmatch, (printArgs_contents a.bufferArg captures).1]

theorem callEntries_leaves (a : Agent Code User) (entries : List (MsgSndDict Code)) :
    Leaves exec a (callEntries exec callback a entries).agent := by
  induction entries generalizing a with
  | nil => exact .refl a
  | cons e rest ih =>
    have hfirst := regexpCall_leaves h a e a.buffer.string
    exact hfirst.trans (ih _)

omit h in
theorem printMessage_leaves (a : Agent Code User) (m : Format) : Leaves exec a (printMessage a m) :=
  ⟨[.ivySendMsg m.message], rfl, string_makeMessage a.buffer m.text, rfl⟩

theorem ivySendMsg_leaves (debug_binary_msg : Bool) (a : Agent Code User) (m : Format) :
    Leaves exec a (ivySendMsg exec callback debug_binary_msg a m).agent := by
  unfold ivySendMsg
  split_ifs
  · exact .refl a
  · dsimp only
    split_ifs
    · exact printMessage_leaves a m
    · exact (printMessage_leaves a m).trans (callEntries_leaves h _ _)

theorem perform_leaves (debug_binary_msg : Bool) (a : Agent Code User) (x : Action) :
    Leaves exec a (perform exec callback debug_binary_msg a x) := by
  cases x with
  | ivySendMsg m => exact ivySendMsg_leaves h debug_binary_msg a m
  | clientCall clnt message =>
    exact clientCall_rule Leaves.refl (fun _ _ _ => Leaves.trans) (callClientUnique_leaves h)
      (fun _ _ => .of_eq rfl rfl rfl) exec a clnt message
  | msgSendTo clnt msgtype id message => exact reportState_leaves h { a with net := _ } clnt _
  | socketClose clnt => exact .of_eq rfl rfl rfl

omit h in
theorem callbackOf_logs (debug_binary_msg : Bool) (app : Application User) (depth : ℕ) :
    (callbackOf exec debug_binary_msg app depth : Callback Code User).Logs exec := by
  induction depth with
  | zero => exact fun _ _ _ => .of_eq rfl rfl rfl
  | succ depth ih =>
    intro a c event
    refine List.foldlRecOn (motive := Leaves exec a) _ _ (.of_eq rfl rfl rfl) fun b hb x _ => ?_
    exact hb.trans (perform_leaves ih debug_binary_msg b x)

end Leaves

section Clients
variable (callback : Callback Code User)

theorem callClients_count (a : Agent Code User) (clients : List Subscriber) :
    (callClients callback a clients).match_count = (callClients callback a clients).handed.length := by
  induction clients generalizing a with
  | nil => rfl
  | cons clnt rest ih => exact congrArg Nat.succ (ih _)

theorem callClient_handed (a : Agent Code User) (clnt : Subscriber) :
    (callClient callback a clnt).2 = frame a.bufferArg.contents clnt := rfl

theorem length_clientsNested (a : Agent Code User) (clients : List Subscriber) :
    (clientsNested callback a clients).length = clients.length := by
  induction clients generalizing a with
  | nil => rfl
  | cons clnt rest ih => exact congrArg Nat.succ (ih _)

variable {callback} {exec : Exec Code} (h : callback.Logs exec)
include h

theorem bufferArg_callClient (a : Agent Code User) (clnt : Subscriber) :
    let b := (callClient callback a clnt).1
    b.bufferArg.contents =
      (lastCaptures exec (b.sendings.drop a.sendings.length)).getD a.bufferArg.contents := by
  obtain ⟨new, hnew, -, hcaptures⟩ := callClient_leaves h a clnt
  dsimp only
  rw [hnew, List.drop_left, hcaptures]

/-- The frames of an entry are those of its captures exactly if no nested call before the last one of them
printed others. -/
theorem callClients_handed (a : Agent Code User) (clients : List Subscriber) :
    (callClients callback a clients).handed = clients.map (frame a.bufferArg.contents) ↔
      ∀ sendings ∈ (clientsNested callback a clients).dropLast,
        ∀ payload ∈ lastCaptures exec sendings, payload = a.bufferArg.contents := by
  induction clients generalizing a with
  | nil => simp [callClients, clientsNested]
  | cons clnt rest ih =>
    have htail : (callClients callback a (clnt :: rest)).handed =
        (clnt :: rest).map (frame a.bufferArg.contents) ↔
        (callClients callback (callClient callback a clnt).1 rest).handed =
          rest.map (frame a.bufferArg.contents) := by
      simp [callClients, callClient_handed]
    have hbufferArg := bufferArg_callClient h a clnt
    rw [htail]
    cases rest with
    | nil => simp [callClients, clientsNested]
    | cons next rest =>
      have hdrop : (clientsNested callback a (clnt :: next :: rest)).dropLast =
          (callClient callback a clnt).1.sendings.drop a.sendings.length ::
            (clientsNested callback (callClient callback a clnt).1 (next :: rest)).dropLast := rfl
      have hkept : (∀ payload ∈ lastCaptures exec ((callClient callback a clnt).1.sendings.drop a.sendings.length),
          payload = a.bufferArg.contents) ↔
            (callClient callback a clnt).1.bufferArg.contents = a.bufferArg.contents := by
        rw [hbufferArg]
        cases lastCaptures exec ((callClient callback a clnt).1.sendings.drop a.sendings.length) <;> simp
      rw [hdrop, List.forall_mem_cons, hkept]
      constructor
      · intro hrest
        have hnext := (List.cons.inj hrest).1
        rw [callClient_handed] at hnext
        have heq : (callClient callback a clnt).1.bufferArg.contents = a.bufferArg.contents :=
          (Handed.mk.inj hnext).2.2
        rw [← heq] at hrest
        have hall := (ih _).mp hrest
        rw [heq] at hall
        exact ⟨heq, hall⟩
      · rintro ⟨heq, hall⟩
        rw [← heq] at hall ⊢
        exact (ih _).mpr hall

/-- The message that stands in the buffer of `IvySendMsg` after the frames of an entry. -/
theorem buffer_callClients (a : Agent Code User) (clients : List Subscriber) :
    (callClients callback a clients).agent.buffer.string =
      (lastText (clientsNested callback a clients).flatten).getD a.buffer.string := by
  induction clients generalizing a with
  | nil => rfl
  | cons clnt rest ih =>
    obtain ⟨new, hnew, htext, -⟩ := callClient_leaves h a clnt
    have hfirst : (callClient callback a clnt).1.buffer.string =
        (lastText ((callClient callback a clnt).1.sendings.drop a.sendings.length)).getD a.buffer.string := by
      rw [hnew, List.drop_left, htext]
    have hrest := ih (callClient callback a clnt).1
    rw [hfirst, ← Option.getD_or, ← lastText_append] at hrest
    exact hrest

theorem buffer_regexpCall (a : Agent Code User) (msg : MsgSndDict Code) (message : Text) :
    (regexpCall exec callback a msg message).agent.buffer.string =
      (lastText (entryNested exec callback a msg message).flatten).getD a.buffer.string := by
  unfold regexpCall entryNested
  cases msg.binding.bind fun code => exec code message with
  | none => rfl
  | some captures => exact buffer_callClients h _ _

end Clients

section Entries
variable (exec : Exec Code) (callback : Callback Code User)

theorem regexpCall_count (a : Agent Code User) (msg : MsgSndDict Code) (message : Text) :
    (regexpCall exec callback a msg message).match_count =
      (regexpCall exec callback a msg message).handed.length := by
  unfold regexpCall
  dsimp only
  split
  · rfl
  · exact callClients_count callback _ _

theorem callEntries_count (a : Agent Code User) (entries : List (MsgSndDict Code)) :
    (callEntries exec callback a entries).match_count =
      (callEntries exec callback a entries).handed.flatten.length := by
  induction entries generalizing a with
  | nil => rfl
  | cons e rest ih =>
    simp only [callEntries, List.flatten_cons, List.length_append]
    rw [regexpCall_count, ih]

theorem printed_eq_none {message : Text} {msg : MsgSndDict Code} :
    printed exec message msg = none ↔ (msg.binding.bind fun code => exec code message) = none := by
  simp [printed]

/-- The text in the buffer gives an entry the frames of its own captures, if these are kept. -/
theorem regexpCall_handed (h : callback.Logs exec) (a : Agent Code User) (msg : MsgSndDict Code) (message : Text) :
    (regexpCall exec callback a msg message).handed = owed exec message msg ↔
      ∀ sendings ∈ (entryNested exec callback a msg message).dropLast,
        ∀ payload ∈ lastCaptures exec sendings, printed exec message msg = some payload := by
  rw [owed_eq]
  unfold regexpCall entryNested printed
  cases msg.binding.bind fun code => exec code message with
  | none => simp
  | some captures =>
    have hprinted := (printArgs_contents a.bufferArg captures).1
    have hclients := callClients_handed h { a with
      sendings := a.sendings ++ [.regexpCall msg message]
      bufferArg := printArgs a.bufferArg captures } msg.clientList
    rw [hprinted] at hclients
    simpa [eq_comm] using hclients

theorem regexpCall_head (a : Agent Code User) {msg : MsgSndDict Code} {message payload : Text}
    (h : printed exec message msg = some payload) {clnt : Subscriber} {rest : List Subscriber}
    (hclients : msg.clientList = clnt :: rest) :
    ∃ more, (regexpCall exec callback a msg message).handed = frame payload clnt :: more := by
  obtain ⟨captures, hmatch, hpayload⟩ := Option.map_eq_some_iff.mp h
  have hprinted := (printArgs_contents a.bufferArg captures).1
  rw [hpayload] at hprinted
  simp only [regexpCall, hmatch, hclients, callClients]
  rw [callClient_handed, hprinted]
  exact ⟨_, rfl⟩

theorem owed_congr {message text : Text} {msg : MsgSndDict Code}
    (h : msg.clientList ≠ [] → printed exec text msg = printed exec message msg) :
    owed exec text msg = owed exec message msg := by
  by_cases hclients : msg.clientList = []
  · have howed : ∀ m, owed exec m msg = [] := by
      intro m
      rw [owed_eq]
      split
      · rfl
      · rw [hclients, List.map_nil]
    rw [howed, howed]
  · rw [owed_eq, h hclients, ← owed_eq]

/-- What the frames of an entry with subscribers carry was printed there. -/
theorem regexpCall_printed (a : Agent Code User) {msg : MsgSndDict Code} {message text : Text}
    (hclients : msg.clientList ≠ []) (h : (regexpCall exec callback a msg text).handed = owed exec message msg) :
    printed exec text msg = printed exec message msg := by
  obtain ⟨clnt, rest, hclients⟩ := List.exists_cons_of_ne_nil hclients
  cases ht : printed exec text msg with
  | none =>
    have hnil : (regexpCall exec callback a msg text).handed = [] := by
      rw [regexpCall, (printed_eq_none exec).mp ht]
    cases hm : printed exec message msg with
    | none => rfl
    | some payload => simp [hnil, owed_eq, hm, hclients] at h
  | some payload =>
    obtain ⟨more, hhead⟩ := regexpCall_head exec callback a ht hclients
    cases hm : printed exec message msg with
    | none => simp [hhead, owed_eq, hm] at h
    | some payload' =>
      have hframe : frame payload clnt = frame payload' clnt := by
        rw [hhead, owed_eq, hm, hclients] at h
        exact (List.cons.inj h).1
      rw [(Handed.mk.inj hframe).2.2]

/-- An entry is served as the message asks exactly if the text in the buffer stands for the
message there, and the captures are kept. -/
theorem regexpCall_owed (h : callback.Logs exec) (a : Agent Code User) (msg : MsgSndDict Code)
    (message text : Text) :
    (regexpCall exec callback a msg text).handed = owed exec message msg ↔
      (msg.clientList ≠ [] → printed exec text msg = printed exec message msg) ∧
        ∀ sendings ∈ (entryNested exec callback a msg text).dropLast,
          ∀ payload ∈ lastCaptures exec sendings, printed exec message msg = some payload := by
  by_cases hclients : msg.clientList = []
  · have hnil : (entryNested exec callback a msg text).dropLast = [] := by
      unfold entryNested
      cases msg.binding.bind fun code => exec code text with
      | none => rfl
      | some captures =>
        rw [hclients]
        rfl
    have howed : owed exec text msg = owed exec message msg :=
      owed_congr exec fun hne => absurd hclients hne
    rw [← howed, regexpCall_handed exec callback h, hnil]
    simp [hclients]
  · constructor
    · intro hhanded
      have hprinted := regexpCall_printed exec callback a hclients hhanded
      refine ⟨fun _ => hprinted, ?_⟩
      rw [← hprinted, ← regexpCall_handed exec callback h, owed_congr exec fun _ => hprinted]
      exact hhanded
    · rintro ⟨hprinted, hkept⟩
      have hprinted := hprinted hclients
      rw [← hprinted, ← regexpCall_handed exec callback h] at hkept
      rw [hkept, owed_congr exec fun _ => hprinted]

theorem callEntries_owed (h : callback.Logs exec) (message : Text) (a : Agent Code User)
    (entries : List (MsgSndDict Code)) :
    (callEntries exec callback a entries).handed = entries.map (owed exec message) ↔
      Undisturbed exec message a.buffer.string entries (entriesNested exec callback a entries) := by
  induction entries generalizing a with
  | nil => simp [callEntries, Undisturbed]
  | cons e rest ih =>
    simp only [callEntries, entriesNested, List.map_cons, List.cons.injEq, Undisturbed]
    rw [regexpCall_owed exec callback h, ih, buffer_regexpCall h]

theorem length_callEntries (a : Agent Code User) (entries : List (MsgSndDict Code)) :
    (callEntries exec callback a entries).handed.length = entries.length := by
  induction entries generalizing a with
  | nil => rfl
  | cons e rest ih => exact congrArg Nat.succ (ih _)

variable (debug_binary_msg : Bool) (a : Agent Code User) (m : Format)

omit exec callback debug_binary_msg in
theorem string_printMessage : (printMessage a m).buffer.string = m.message :=
  string_makeMessage a.buffer m.text

theorem ivySendMsg_refused (h : Refused debug_binary_msg m) :
    (ivySendMsg exec callback debug_binary_msg a m).handed = [] ∧
      (ivySendMsg exec callback debug_binary_msg a m).match_count = 0 := by
  unfold ivySendMsg
  split_ifs with hfmt
  · exact ⟨rfl, rfl⟩
  · obtain ⟨hdebug, hcheck⟩ := h.resolve_left hfmt
    dsimp only
    rw [if_pos (by rw [string_printMessage, hdebug]; exact hcheck)]
    exact ⟨rfl, rfl⟩

theorem ivySendMsg_taken (h : ¬ Refused debug_binary_msg m) :
    ivySendMsg exec callback debug_binary_msg a m =
      callEntries exec callback (printMessage a m) a.messSndByRegexp.entries := by
  obtain ⟨hfmt, hcheck⟩ := not_or.mp h
  unfold ivySendMsg
  rw [if_neg hfmt]
  dsimp only
  rw [if_neg (by rw [string_printMessage, Bool.and_eq_true]; exact hcheck)]
  rfl

/-- A refused call is right only where nobody asked for the message. -/
theorem exactlyOnce_refused_iff (h : Refused debug_binary_msg m) :
    ExactlyOnce exec m.message a.messSndByRegexp.entries
        (ivySendMsg exec callback debug_binary_msg a m) ↔
      ∀ e ∈ a.messSndByRegexp.entries, owed exec m.message e = [] := by
  obtain ⟨hnil, hzero⟩ := ivySendMsg_refused exec callback debug_binary_msg a m h
  have hnone : (∀ (i : ℕ) (e : MsgSndDict Code), a.messSndByRegexp.entries[i]? = some e →
      owed exec m.message e = []) ↔ ∀ e ∈ a.messSndByRegexp.entries, owed exec m.message e = [] := by
    constructor
    · intro h e he
      obtain ⟨i, hi⟩ := List.mem_iff_getElem?.mp he
      exact h i e hi
    · exact fun h i e hi => h e (List.mem_of_getElem? hi)
  simpa [ExactlyOnce, hnil, hzero] using hnone

omit debug_binary_msg m in
theorem exactlyOnce_callEntries_iff (h : callback.Logs exec) (message : Text)
    (entries : List (MsgSndDict Code)) :
    ExactlyOnce exec message entries (callEntries exec callback a entries) ↔
      Undisturbed exec message a.buffer.string entries (entriesNested exec callback a entries) := by
  have hlen := length_callEntries exec callback a entries
  have hcount := callEntries_count exec callback a entries
  rw [← callEntries_owed exec callback h, ExactlyOnce]
  constructor
  · rintro ⟨hframes, -⟩
    refine List.ext_getElem (by rw [hlen, List.length_map]) fun i hi hi' => ?_
    have hlt : i < entries.length := hlen ▸ hi
    have hentry := hframes i _ (List.getElem?_eq_getElem hlt)
    rw [List.getD_eq_getElem _ _ hi] at hentry
    rw [hentry, List.getElem_map]
  · intro h
    refine ⟨fun i e hi => ?_, hcount⟩
    rw [h, List.getD_eq_getElem?_getD, List.getElem?_map, hi]
    rfl

end Entries

/-- Two clients subscribe to one regexp; the kernel is not ready for the first. -/
def twoSubscribers : Agent Unit Unit where
  net := ⟨[⟨1, (connected 5).client⟩, ⟨0, (connected 4).client⟩], ∅, 2, [],
    Stream'.cons .wouldBlock (Stream'.const (.accepted 64))⟩
  messSndByRegexp := ⟨[⟨0, ascii "(.*)", [⟨0, 7⟩, ⟨1, 8⟩], some ()⟩], 1, by simp, by simp, by simp⟩
  buffer := emptyBuffer
  bufferArg := emptyBuffer
  bufferArgUnique := emptyBuffer
  user := ()
  sendings := []

/-- Told of congestion, the application calls `IvySendMsg` with no format but the empty one. -/
def Application.Silent (app : Application User) : Prop :=
  ∀ user c m, (.ivySendMsg m ∈ (app user c .ivyApplicationCongestion).2 ∨
    .ivySendMsg m ∈ (app user c .ivyApplicationFifoFull).2) → m.fmt.getD [] = []

section Silent

/-- No call of `IvySendMsg` or `RegexpCall` in between. -/
def Keeps (a b : Agent Code User) : Prop := b.sendings = a.sendings

theorem Keeps.refl (a : Agent Code User) : Keeps a a := rfl

theorem Keeps.trans {a b c : Agent Code User} (hab : Keeps a b) (hbc : Keeps b c) : Keeps a c :=
  Eq.trans hbc hab

/-- A callback that sends no message when it is told of congestion. -/
def Callback.Quiet (callback : Callback Code User) : Prop :=
  ∀ a c, Keeps a (callback a c .ivyApplicationCongestion) ∧
    Keeps a (callback a c .ivyApplicationFifoFull)

variable {callback : Callback Code User} (h : callback.Quiet)
include h

theorem reportState_keeps (a : Agent Code User) (c : ℕ) (state : SendState) :
    Keeps a (reportState callback a c state) := by
  cases state with
  | sendStateChangeToCongestion => exact (h _ c).1
  | sendStateFifoFull => exact (h _ c).2
  | _ => exact .refl a

theorem callClient_keeps (a : Agent Code User) (clnt : Subscriber) :
    Keeps a (callClient callback a clnt).1 := reportState_keeps h _ _ _

theorem callClientUnique_keeps (a : Agent Code User) (clnt : Subscriber) :
    Keeps a (callClientUnique callback a clnt) := by
  unfold callClientUnique
  dsimp only
  split_ifs
  · exact (h _ _).1
  · exact .refl a

theorem clientCall_keeps (exec : Exec Code) (a : Agent Code User) (clnt : ℕ) (message : Text) :
    Keeps a (clientCall exec callback a clnt message).1 :=
  clientCall_rule Keeps.refl (fun _ _ _ => Keeps.trans) (callClientUnique_keeps h)
    (fun _ _ => rfl) exec a clnt message

theorem perform_keeps (exec : Exec Code) (debug_binary_msg : Bool) (a : Agent Code User) {x : Action}
    (hx : ∀ m, x = .ivySendMsg m → m.fmt.getD [] = []) :
    Keeps a (perform exec callback debug_binary_msg a x) := by
  cases x with
  | ivySendMsg m =>
    rw [perform, ivySendMsg, if_pos (hx m rfl)]
    rfl
  | clientCall clnt message => exact clientCall_keeps h exec a clnt message
  | msgSendTo clnt msgtype id message => exact reportState_keeps h _ _ _
  | socketClose clnt => exact .refl a

theorem clientsNested_of_quiet (a : Agent Code User) (clients : List Subscriber) :
    ∀ sendings ∈ clientsNested callback a clients, sendings = [] := by
  induction clients generalizing a with
  | nil => simp [clientsNested]
  | cons clnt rest ih =>
    have hkeeps := callClient_keeps h a clnt
    rw [clientsNested, List.forall_mem_cons]
    exact ⟨by rw [hkeeps, List.drop_length], ih _⟩

theorem undisturbed_of_quiet (exec : Exec Code) (message : Text) (a : Agent Code User)
    (entries : List (MsgSndDict Code)) :
    Undisturbed exec message message entries (entriesNested exec callback a entries) := by
  induction entries generalizing a with
  | nil => trivial
  | cons e rest ih =>
    have hnested : ∀ sendings ∈ entryNested exec callback a e a.buffer.string, sendings = [] := by
      unfold entryNested
      split
      · simp
      · exact clientsNested_of_quiet h _ _
    have hflatten : (entryNested exec callback a e a.buffer.string).flatten = [] :=
      List.flatten_eq_nil_iff.mpr hnested
    refine ⟨⟨fun _ => rfl, fun sendings hmem payload hpayload => ?_⟩, ?_⟩
    · rw [hnested sendings (List.mem_of_mem_dropLast hmem)] at hpayload
      simp [lastCaptures] at hpayload
    · rw [hflatten]
      exact ih _

end Silent

theorem Application.Silent.quiet {app : Application User} (h : app.Silent) (exec : Exec Code)
    (debug_binary_msg : Bool) (depth : ℕ) : (callbackOf exec debug_binary_msg app depth).Quiet := by
  induction depth with
  | zero => exact fun _ _ => ⟨rfl, rfl⟩
  | succ depth ih =>
    have hactions : ∀ (a : Agent Code User) (actions : List Action),
        (∀ m, .ivySendMsg m ∈ actions → m.fmt.getD [] = []) → Keeps a (actions.foldl
          (perform exec (callbackOf exec debug_binary_msg app depth) debug_binary_msg) a) := by
      intro a actions hsilent
      refine List.foldlRecOn (motive := Keeps a) _ _ rfl fun b hb x hx => ?_
      exact hb.trans (perform_keeps ih exec debug_binary_msg b fun m hm => hsilent m (hm ▸ hx))
    intro a c
    constructor
    · have hkeeps := hactions { a with user := (app a.user c .ivyApplicationCongestion).1 } _
        fun m hm => h a.user c m (.inl hm)
      exact hkeeps
    · have hkeeps := hactions { a with user := (app a.user c .ivyApplicationFifoFull).1 } _
        fun m hm => h a.user c m (.inr hm)
      exact hkeeps

/-- An application that calls `IvySendMsg` on no congestion event loses and mixes up nothing. -/
theorem intact_of_silent {app : Application User} (h : app.Silent) (exec : Exec Code)
    (debug_binary_msg : Bool) (depth : ℕ) (a : Agent Code User) {m : Format}
    (hm : ¬ Refused debug_binary_msg m) :
    Intact exec (callbackOf exec debug_binary_msg app depth) debug_binary_msg a m := by
  have hquiet := h.quiet exec debug_binary_msg depth
  exact ⟨fun href => absurd href hm,
    fun _ => undisturbed_of_quiet hquiet exec _ _ _⟩

end Ivy.Bus
