import Ivy.Bus.Reentrance
import Ivy.Socket.MsgFrame
import Ivy.Socket.Report

/-! The two ways of a message to a client: the loop of `IvySendMsg` over all subscribers, and that of
`ClientCall` over those of one client. -/
namespace Ivy.Bus
open Fifo Registry Socket

variable {Code User : Type*}

/-- A frame is handed to `SocketSendRawWithId`, and the application told of it. -/
def handOver (report : SendState → Option IvyApplicationEvent) (n : Net) (f : Handed) : Net :=
  let r := n.socketSendRawWithId f.client f.id f.buffer
  match report r.2 with
  | none => r.1
  | some event => r.1.deliver f.client event

def owedFrames (exec : Exec Code) (message : Text) (entries : List (MsgSndDict Code)) : List Handed :=
  entries.flatMap (owed exec message)

def toClient (c : ℕ) (frames : List Handed) : List Handed := frames.filter (·.client = c)

def Net.isOpen (n : Net) (c : ℕ) : Bool := (n.sock c).isSome

theorem toClient_cons (c : ℕ) (f : Handed) (rest : List Handed) :
    toClient c (f :: rest) = if f.client = c then f :: toClient c rest else toClient c rest := by
  simp [toClient, List.filter_cons]

/-- The frames to a client, each with what its two calls of `send()` do. There are no such calls for a
frame to a connection that is gone. -/
def turns (isOpen : ℕ → Bool) (c : ℕ) : List Handed → Stream' SendResult → List (Handed × SendResult × SendResult)
  | [], _ => []
  | f :: rest, results =>
    let later := turns isOpen c rest (if isOpen f.client then results.tail.tail else results)
    if f.client = c then (f, results.head, results.tail.head) :: later else later

/-- One send on a connection, apart from the other ones. -/
def sendTurn (client : Client) (turn : Handed × SendResult × SendResult) : Client × SendState :=
  let r := socketSendRawWithId ⟨client, ∅⟩ turn.1.id turn.1.buffer turn.2.1 turn.2.2
  (r.1.client, r.2)

/-- The sends on a connection, with what they return. -/
def sendTurns : Client → List (Handed × SendResult × SendResult) → Client × List SendState
  | client, [] => (client, [])
  | client, turn :: rest =>
    let r := sendTurn client turn
    let q := sendTurns r.1 rest
    (q.1, r.2 :: q.2)

/-- The FIFO takes the payload behind the header. -/
def HasRoom (ifb : IvyFifoBuffer) (id buffer : Text) : Prop :=
  if Admits ifb id.length then buffer.length + (ivyFifoLength ifb + id.length) < ivyFifoMaxAllocSize
  else Admits { ifb with full := true } buffer.length

instance (ifb : IvyFifoBuffer) (id buffer : Text) : Decidable (HasRoom ifb id buffer) := by
  unfold HasRoom
  infer_instance

/-- Whenever a frame is sent to the client, it has no FIFO or one with room for the payload. -/
def Roomy : Client → List (Handed × SendResult × SendResult) → Prop
  | _, [] => True
  | client, turn :: rest =>
    (∀ ifb ∈ client.ifb, HasRoom ifb turn.1.id turn.1.buffer) ∧ Roomy (sendTurn client turn).1 rest

/-- The kernel answers otherwise. -/
def Agent.withResults (a : Agent Code User) (results : Stream' SendResult) : Agent Code User :=
  { a with net := { a.net with results := results } }

section Send
variable (client : Client) (w : Finset ℕ)

/-- What becomes of a client does not depend on who waits for a writable event. -/
theorem bufferizedSocketSendRaw_client (w' : Finset ℕ) (buffer : List UInt8) (result : SendResult) :
    (bufferizedSocketSendRaw ⟨client, w⟩ buffer result).1.client =
        (bufferizedSocketSendRaw ⟨client, w'⟩ buffer result).1.client ∧
      (bufferizedSocketSendRaw ⟨client, w⟩ buffer result).2 =
        (bufferizedSocketSendRaw ⟨client, w'⟩ buffer result).2 := by
  unfold bufferizedSocketSendRaw
  dsimp only
  cases client.ifb with
  | some ifb => exact ⟨rfl, rfl⟩
  | none =>
    cases result with
    | accepted n =>
      dsimp only
      split_ifs <;> exact ⟨rfl, rfl⟩
    | wouldBlock => exact ⟨rfl, rfl⟩
    | interrupted => exact ⟨rfl, rfl⟩
    | failed => exact ⟨rfl, rfl⟩

theorem sendTurn_eq (turn : Handed × SendResult × SendResult) :
    let r := socketSendRawWithId ⟨client, w⟩ turn.1.id turn.1.buffer turn.2.1 turn.2.2
    sendTurn client turn = (r.1.client, r.2) := by
  obtain ⟨f, result₁, result₂⟩ := turn
  obtain ⟨hclient, hstate⟩ := bufferizedSocketSendRaw_client client ∅ w f.id result₁
  have hsecond (s t : Sock) (hst : s.client = t.client) :
      (bufferizedSocketSendRaw s f.buffer result₂).1.client = (bufferizedSocketSendRaw t f.buffer result₂).1.client ∧
        (bufferizedSocketSendRaw s f.buffer result₂).2 = (bufferizedSocketSendRaw t f.buffer result₂).2 := by
    obtain ⟨clientS, ws⟩ := s
    obtain ⟨clientT, wt⟩ := t
    obtain rfl : clientS = clientT := hst
    exact bufferizedSocketSendRaw_client clientS ws wt f.buffer result₂
  obtain ⟨hclient', hstate'⟩ := hsecond _ _ hclient
  simp only [sendTurn, socketSendRawWithId, hstate, hclient', hstate']

theorem ivyFifoWrite_full_iff (ifb : IvyFifoBuffer) {buffer : Text} (hlen : buffer.length ≤ intMax) :
    (ivyFifoWrite ifb buffer).full = false ↔ Admits ifb buffer.length := by
  by_cases hadmits : Admits ifb buffer.length
  · exact iff_of_true (ivyFifoWrite_of_admits ifb buffer hlen hadmits).2 hadmits
  · rw [ivyFifoWrite_of_not_admits ifb buffer hlen hadmits]
    exact iff_of_false Bool.noConfusion hadmits

/-- A header that the FIFO does not take leaves the flag of a full FIFO. -/
theorem hasRoom_iff (ifb : IvyFifoBuffer) {id : Text} (hid : id.length ≤ intMax) (buffer : Text) :
    HasRoom ifb id buffer ↔ Admits (ivyFifoWrite ifb id) buffer.length := by
  unfold HasRoom
  split_ifs with hadmits
  · exact (admits_after hid hadmits buffer.length).symm
  · rw [ivyFifoWrite_of_not_admits ifb id hid hadmits]

section Sock
variable {s : Sock}

theorem bufferizedSocketSendRaw_none (h : s.client.ifb = none) (buffer : Text) (result : SendResult) :
    (bufferizedSocketSendRaw s buffer result).2 ≠ .sendStateFifoFull := by
  unfold bufferizedSocketSendRaw
  rw [h]
  cases result with
  | accepted n =>
    dsimp only
    split_ifs <;> exact SendState.noConfusion
  | _ => exact SendState.noConfusion

theorem bufferizedSocketSendRaw_some {ifb : IvyFifoBuffer} (h : s.client.ifb = some ifb) (buffer : Text)
    (result : SendResult) :
    (bufferizedSocketSendRaw s buffer result).1.client.ifb = some (ivyFifoWrite ifb buffer) ∧
      (bufferizedSocketSendRaw s buffer result).2 =
        if ivyFifoIsFull (ivyFifoWrite ifb buffer) then .sendStateFifoFull else .sendStillCongestion := by
  unfold bufferizedSocketSendRaw
  rw [h]
  exact ⟨rfl, rfl⟩

end Sock

/-- A frame finds the FIFO full exactly if there is no room for its payload. -/
theorem sendTurn_full_iff {turn : Handed × SendResult × SendResult} (hid : turn.1.id.length ≤ intMax)
    (hbuffer : turn.1.buffer.length ≤ intMax) :
    (sendTurn client turn).2 ≠ .sendStateFifoFull ↔ ∀ ifb ∈ client.ifb, HasRoom ifb turn.1.id turn.1.buffer := by
  obtain ⟨f, result₁, result₂⟩ := turn
  have hreports := bufferizedSocketSendRaw_reports ⟨client, ∅⟩ f.id result₁
  cases hifb : client.ifb with
  | none =>
    refine iff_of_true ?_ fun ifb h => absurd h (Option.not_mem_none ifb)
    unfold sendTurn socketSendRawWithId
    dsimp only
    split_ifs with hchange
    · rw [hchange]
      exact SendState.noConfusion
    · apply bufferizedSocketSendRaw_none
      have hstill := mt hreports.change.mpr hchange
      rw [hifb] at hstill
      simpa using hstill
  | some ifb =>
    obtain ⟨hfirst, -⟩ := bufferizedSocketSendRaw_some (s := ⟨client, ∅⟩) hifb f.id result₁
    have hnot : (bufferizedSocketSendRaw ⟨client, ∅⟩ f.id result₁).2 ≠ .sendStateChangeToCongestion := by
      intro hchange
      have hnone := (hreports.change.mp hchange).1
      simp [hifb] at hnone
    have hstate : (sendTurn client (f, result₁, result₂)).2 =
        if ivyFifoIsFull (ivyFifoWrite (ivyFifoWrite ifb f.id) f.buffer) then .sendStateFifoFull
        else .sendStillCongestion := by
      simp only [sendTurn, socketSendRawWithId, if_neg hnot]
      exact (bufferizedSocketSendRaw_some hfirst f.buffer result₂).2
    simp only [Option.mem_some_iff, forall_eq', hasRoom_iff ifb hid, ← ivyFifoWrite_full_iff _ hbuffer, hstate,
      ivyFifoIsFull]
    split_ifs with h <;> simp [h]

theorem roomy_iff {turns : List (Handed × SendResult × SendResult)}
    (hlen : ∀ turn ∈ turns, turn.1.id.length ≤ intMax ∧ turn.1.buffer.length ≤ intMax) :
    Roomy client turns ↔ SendState.sendStateFifoFull ∉ (sendTurns client turns).2 := by
  induction turns generalizing client with
  | nil => simp [Roomy, sendTurns]
  | cons turn rest ih =>
    obtain ⟨hid, hbuffer⟩ := hlen turn List.mem_cons_self
    have hrest := ih (sendTurn client turn).1 fun t ht => hlen t (List.mem_cons_of_mem turn ht)
    rw [Roomy, ← sendTurn_full_iff client hid hbuffer, hrest, sendTurns, List.mem_cons, not_or, ne_comm]

end Send

/-- The two reports are the same exactly if no send finds a full FIFO. -/
theorem filterMap_report_iff (states : List SendState) :
    states.filterMap reportUnique = states.filterMap report ↔ SendState.sendStateFifoFull ∉ states := by
  constructor
  · intro heq hmem
    have hreported : IvyApplicationEvent.ivyApplicationFifoFull ∈ states.filterMap report :=
      List.mem_filterMap.mpr ⟨_, hmem, rfl⟩
    rw [← heq, List.mem_filterMap] at hreported
    obtain ⟨state, -, hstate⟩ := hreported
    cases state <;> simp [reportUnique] at hstate
  · intro hnot
    apply List.filterMap_congr
    intro state hstate
    cases state with
    | sendStateFifoFull => exact absurd hstate hnot
    | _ => rfl

section Net
variable {n : Net} {c : ℕ}

theorem client_congr {m : Net} (h : m.channels_list = n.channels_list) (d : ℕ) :
    (m.sock d).map (·.client) = (n.sock d).map (·.client) := by
  rw [Net.sock, Net.sock, h, Option.map_map, Option.map_map]
  rfl

theorem client_put (n : Net) (c d : ℕ) (s : Sock) :
    ((n.put c s).sock d).map (·.client) =
      if c = d then (n.sock d).map fun _ => s.client else (n.sock d).map (·.client) := by
  have hfind : Keyed.find (·.id) (n.put c s).channels_list d =
      (Keyed.find (·.id) n.channels_list d).map (Net.setClient c s.client) :=
    Keyed.find_map fun ch => by simp only [Net.setClient]; split_ifs <;> rfl
  rw [Net.sock, Net.sock, hfind]
  cases hch : Keyed.find (·.id) n.channels_list d with
  | none => simp
  | some ch =>
    have hid : ch.id = d := Keyed.find_key hch
    subst hid
    simp only [Option.map_some, Net.setClient]
    split_ifs with h h' h' <;> first | rfl | omega

theorem handOver_none {report : SendState → Option IvyApplicationEvent} (hparam : report .sendParamError = none)
    {f : Handed} (h : n.sock f.client = none) : handOver report n f = n := by
  simp only [handOver, Net.socketSendRawWithId, Net.through, h, hparam]

theorem handOver_some {f : Handed} {s : Sock} (h : n.sock f.client = some s)
    (report : SendState → Option IvyApplicationEvent) :
    let q := sendTurn s.client (f, n.results.head, n.results.tail.head)
    (∀ d, ((handOver report n f).sock d).map (·.client) =
      if f.client = d then some q.1 else (n.sock d).map (·.client)) ∧
    (handOver report n f).results = n.results.tail.tail ∧
    (handOver report n f).events = n.events ++ ((report q.2).map fun event => (f.client, event)).toList := by
  intro q
  let r := socketSendRawWithId s f.id f.buffer n.results.head n.results.tail.head
  let m : Net := ({ n with results := n.results.tail.tail } : Net).put f.client r.1
  have hq : q = (r.1.client, r.2) := sendTurn_eq s.client s.wrdy_fds (f, n.results.head, n.results.tail.head)
  have hsend : n.socketSendRawWithId f.client f.id f.buffer = (m, r.2) := by
    simp only [Net.socketSendRawWithId, Net.through, h]
    rfl
  have hclient (d : ℕ) : (m.sock d).map (·.client) =
      if f.client = d then some q.1 else (n.sock d).map (·.client) := by
    rw [client_put, hq]
    by_cases hd : f.client = d
    · subst hd
      rw [if_pos rfl, if_pos rfl]
      change (n.sock f.client).map _ = _
      rw [h, Option.map_some]
    · rw [if_neg hd, if_neg hd]
      exact client_congr rfl d
  have hreport : handOver report n f = match report q.2 with
      | none => m
      | some event => m.deliver f.client event := by
    rw [handOver, hsend, hq]
  rw [hreport]
  cases report q.2 with
  | none => exact ⟨hclient, rfl, (List.append_nil n.events).symm⟩
  | some event =>
    refine ⟨fun d => ?_, rfl, rfl⟩
    exact (client_congr (n := m) rfl d).trans (hclient d)

theorem isOpen_handOver {report : SendState → Option IvyApplicationEvent} (hparam : report .sendParamError = none)
    (n : Net) (f : Handed) : (handOver report n f).isOpen = n.isOpen := by
  cases h : n.sock f.client with
  | none => rw [handOver_none hparam h]
  | some s =>
    funext d
    have hd := (handOver_some h report).1 d
    have hopen (m : Net) : m.isOpen d = ((m.sock d).map (·.client)).isSome := Option.isSome_map.symm
    rw [hopen, hopen, hd]
    split_ifs with hfd
    · rw [← hfd, h]
      rfl
    · rfl

/-- What the frames do to one of the connections, and what is told of it. -/
theorem foldl_handOver {report : SendState → Option IvyApplicationEvent} (hparam : report .sendParamError = none)
    (frames : List Handed) {client : Client} (h : (n.sock c).map (·.client) = some client) :
    let q := sendTurns client (turns n.isOpen c frames n.results)
    ((frames.foldl (handOver report) n).sock c).map (·.client) = some q.1 ∧
      (frames.foldl (handOver report) n).events.filter (·.1 = c) =
        n.events.filter (·.1 = c) ++ (q.2.filterMap report).map fun event => (c, event) := by
  induction frames generalizing n client with
  | nil => exact ⟨h, by simp [turns, sendTurns]⟩
  | cons f rest ih =>
    rw [List.foldl_cons, turns]
    cases hf : n.sock f.client with
    | none =>
      have hne : f.client ≠ c := by
        rintro rfl
        simp [hf] at h
      have hclosed : n.isOpen f.client = false := by rw [Net.isOpen, hf]; rfl
      rw [handOver_none hparam hf, if_neg hne, hclosed]
      exact ih h
    | some s =>
      obtain ⟨hclient, hresults, hevents⟩ := handOver_some hf report
      have hopen : n.isOpen f.client = true := by rw [Net.isOpen, hf]; rfl
      have hclient := hclient c
      rw [hopen, if_pos rfl]
      by_cases hfc : f.client = c
      · subst hfc
        obtain rfl : s.client = client := by simpa [hf] using h
        rw [if_pos rfl] at hclient
        have hrest := ih hclient
        rw [isOpen_handOver hparam, hresults, hevents] at hrest
        rw [if_pos rfl, sendTurns]
        refine ⟨hrest.1, hrest.2.trans ?_⟩
        rw [List.filter_append, List.append_assoc, List.filterMap_cons]
        cases report (sendTurn s.client (f, n.results.head, n.results.tail.head)).2 <;> simp
      · rw [if_neg hfc, h] at hclient
        have hrest := ih hclient
        rw [isOpen_handOver hparam, hresults, hevents] at hrest
        rw [if_neg hfc]
        refine ⟨hrest.1, hrest.2.trans ?_⟩
        rw [List.filter_append]
        cases report (sendTurn s.client (f, n.results.head, n.results.tail.head)).2 <;> simp [hfc]

theorem foldl_handOver_others {report : SendState → Option IvyApplicationEvent}
    (hparam : report .sendParamError = none) {frames : List Handed} (hframes : ∀ f ∈ frames, f.client ≠ c) :
    ((frames.foldl (handOver report) n).sock c).map (·.client) = (n.sock c).map (·.client) := by
  induction frames generalizing n with
  | nil => rfl
  | cons f rest ih =>
    have hne := hframes f List.mem_cons_self
    rw [List.foldl_cons, ih fun g hg => hframes g (List.mem_cons_of_mem f hg)]
    cases hf : n.sock f.client with
    | none => rw [handOver_none hparam hf]
    | some s => rw [(handOver_some hf report).1 c, if_neg hne]

end Net

section Loops
variable (exec : Exec Code) (debug_binary_msg : Bool) (app : Application User)

abbrev observing : Callback Code User := callbackOf exec debug_binary_msg app 0

theorem callClients_observed (a : Agent Code User) (clients : List Subscriber) :
    let frames := clients.map (frame a.bufferArg.contents)
    ∃ user, callClients (observing exec debug_binary_msg app) a clients =
      ⟨{ a with net := frames.foldl (handOver report) a.net, user := user }, frames, frames.length⟩ := by
  induction clients generalizing a with
  | nil => exact ⟨a.user, rfl⟩
  | cons clnt rest ih =>
    have hfirst : ∃ user, callClient (observing exec debug_binary_msg app) a clnt =
        ({ a with net := handOver report a.net (frame a.bufferArg.contents clnt), user := user },
          frame a.bufferArg.contents clnt) := by
      simp only [callClient, handOver, frame]
      cases (a.net.socketSendRawWithId clnt.client (bufferId .msg clnt.id) a.bufferArg.contents).2 <;>
        exact ⟨_, rfl⟩
    obtain ⟨user, hfirst⟩ := hfirst
    obtain ⟨user', hrest⟩ := ih (callClient (observing exec debug_binary_msg app) a clnt).1
    refine ⟨user', ?_⟩
    rw [callClients, hrest, hfirst]
    rfl

theorem regexpCall_observed (a : Agent Code User) (msg : MsgSndDict Code) (message : Text) :
    let frames := owed exec message msg
    ∃ user bufferArg, regexpCall exec (observing exec debug_binary_msg app) a msg message =
      ⟨{ a with
          net := frames.foldl (handOver report) a.net
          user := user
          bufferArg := bufferArg
          sendings := a.sendings ++ [.regexpCall msg message] }, frames, frames.length⟩ := by
  rw [owed_eq]
  unfold regexpCall printed
  cases msg.binding.bind fun code => exec code message with
  | none => exact ⟨a.user, a.bufferArg, rfl⟩
  | some captures =>
    obtain ⟨user, hclients⟩ := callClients_observed exec debug_binary_msg app { a with
      sendings := a.sendings ++ [.regexpCall msg message]
      bufferArg := printArgs a.bufferArg captures } msg.clientList
    rw [(printArgs_contents a.bufferArg captures).1] at hclients
    exact ⟨user, printArgs a.bufferArg captures, hclients⟩

theorem callEntries_observed (a : Agent Code User) (entries : List (MsgSndDict Code)) :
    let frames := owedFrames exec a.buffer.string entries
    let r := callEntries exec (observing exec debug_binary_msg app) a entries
    r.agent.net = frames.foldl (handOver report) a.net ∧ r.handed.flatten = frames ∧ r.match_count = frames.length := by
  induction entries generalizing a with
  | nil => exact ⟨rfl, rfl, rfl⟩
  | cons e rest ih =>
    obtain ⟨user, bufferArg, hfirst⟩ := regexpCall_observed exec debug_binary_msg app a e a.buffer.string
    obtain ⟨hnet, hhanded, hcount⟩ := ih { a with
      net := (owed exec a.buffer.string e).foldl (handOver report) a.net
      user := user
      bufferArg := bufferArg
      sendings := a.sendings ++ [.regexpCall e a.buffer.string] }
    simp only [callEntries, hfirst, owedFrames, List.flatMap_cons, List.foldl_append, List.flatten_cons,
      List.length_append]
    exact ⟨hnet, congrArg _ hhanded, congrArg _ hcount⟩

/-- The second loop does the same for the subscriptions of one client. -/
theorem callClientsUnique_observed (c : ℕ) (a : Agent Code User) (clients : List Subscriber) :
    let frames := toClient c (clients.map (frame a.bufferArgUnique.contents))
    ∃ user, callClientsUnique (observing exec debug_binary_msg app) c a clients =
      ({ a with net := frames.foldl (handOver reportUnique) a.net, user := user }, frames.length) := by
  induction clients generalizing a with
  | nil => exact ⟨a.user, rfl⟩
  | cons clnt rest ih =>
    by_cases hc : c = clnt.client
    · have hfirst : ∃ user, callClientUnique (observing exec debug_binary_msg app) a clnt =
          { a with net := handOver reportUnique a.net (frame a.bufferArgUnique.contents clnt), user := user } := by
        simp only [callClientUnique, handOver, frame]
        cases (a.net.socketSendRawWithId clnt.client (bufferId .msg clnt.id) a.bufferArgUnique.contents).2 <;>
          exact ⟨_, rfl⟩
      obtain ⟨user, hfirst⟩ := hfirst
      obtain ⟨user', hrest⟩ := ih (callClientUnique (observing exec debug_binary_msg app) a clnt)
      have hkeep : toClient c ((clnt :: rest).map (frame a.bufferArgUnique.contents)) =
          frame a.bufferArgUnique.contents clnt :: toClient c (rest.map (frame a.bufferArgUnique.contents)) := by
        rw [List.map_cons, toClient_cons]
        exact if_pos hc.symm
      refine ⟨user', ?_⟩
      rw [hkeep, callClientsUnique, if_neg (not_not.mpr hc), hrest, hfirst]
      rfl
    · obtain ⟨user, hrest⟩ := ih a
      have hskip : toClient c ((clnt :: rest).map (frame a.bufferArgUnique.contents)) =
          toClient c (rest.map (frame a.bufferArgUnique.contents)) := by
        rw [List.map_cons, toClient_cons]
        exact if_neg (Ne.symm hc)
      refine ⟨user, ?_⟩
      rw [hskip, callClientsUnique, if_pos hc, hrest]

theorem regexpCallUnique_observed (c : ℕ) (a : Agent Code User) (msg : MsgSndDict Code) (message : Text) :
    let frames := toClient c (owed exec message msg)
    ∃ user bufferArg, regexpCallUnique exec (observing exec debug_binary_msg app) a msg message c =
      ({ a with net := frames.foldl (handOver reportUnique) a.net, user := user, bufferArgUnique := bufferArg },
        frames.length) := by
  rw [owed_eq]
  unfold regexpCallUnique printed
  cases msg.binding.bind fun code => exec code message with
  | none => exact ⟨a.user, a.bufferArgUnique, rfl⟩
  | some captures =>
    obtain ⟨user, hclients⟩ := callClientsUnique_observed exec debug_binary_msg app c
      { a with bufferArgUnique := printArgs a.bufferArgUnique captures } msg.clientList
    rw [(printArgs_contents a.bufferArgUnique captures).1] at hclients
    exact ⟨user, printArgs a.bufferArgUnique captures, hclients⟩

theorem clientCall_observed (c : ℕ) (a : Agent Code User) (message : Text) :
    let frames := toClient c (owedFrames exec message a.messSndByRegexp.entries)
    let q := clientCall exec (observing exec debug_binary_msg app) a c message
    q.1.net = frames.foldl (handOver reportUnique) a.net ∧ q.2 = frames.length := by
  have hfold (entries : List (MsgSndDict Code)) : ∀ (a : Agent Code User) (count : ℕ),
      let frames := toClient c (owedFrames exec message entries)
      let q := entries.foldl (fun r msgSendDict =>
        let q := regexpCallUnique exec (observing exec debug_binary_msg app) r.1 msgSendDict message c
        (q.1, r.2 + q.2)) (a, count)
      q.1.net = frames.foldl (handOver reportUnique) a.net ∧ q.2 = count + frames.length := by
    induction entries with
    | nil => exact fun a count => ⟨rfl, rfl⟩
    | cons e rest ih =>
      intro a count
      obtain ⟨user, bufferArg, hfirst⟩ := regexpCallUnique_observed exec debug_binary_msg app c a e message
      simp only [List.foldl_cons, hfirst, owedFrames, List.flatMap_cons, toClient, List.filter_append,
        List.foldl_append, List.length_append]
      obtain ⟨hnet, hcount⟩ := ih { a with
        net := (toClient c (owed exec message e)).foldl (handOver reportUnique) a.net, user := user,
        bufferArgUnique := bufferArg } (count + (toClient c (owed exec message e)).length)
      exact ⟨hnet, hcount.trans (Nat.add_assoc _ _ _)⟩
  obtain ⟨hnet, hcount⟩ := hfold a.messSndByRegexp.entries a 0
  exact ⟨hnet, hcount.trans (Nat.zero_add _)⟩

end Loops

def Net.mute (n : Net) : Net := { n with events := [] }

theorem mute_foldl (report report' : SendState → Option IvyApplicationEvent) (frames : List Handed) {n n' : Net}
    (h : n.mute = n'.mute) : (frames.foldl (handOver report) n).mute = (frames.foldl (handOver report') n').mute := by
  induction frames generalizing n n' with
  | nil => exact h
  | cons f rest ih =>
    apply ih
    have hthrough (n : Net) : (n.mute.socketSendRawWithId f.client f.id f.buffer).1 =
        (n.socketSendRawWithId f.client f.id f.buffer).1.mute ∧
        (n.mute.socketSendRawWithId f.client f.id f.buffer).2 = (n.socketSendRawWithId f.client f.id f.buffer).2 := by
      simp only [Net.socketSendRawWithId, Net.through]
      have hsock : n.mute.sock f.client = n.sock f.client := rfl
      rw [hsock]
      cases n.sock f.client <;> exact ⟨rfl, rfl⟩
    have hmute (report : SendState → Option IvyApplicationEvent) (n : Net) :
        (handOver report n f).mute = (n.mute.socketSendRawWithId f.client f.id f.buffer).1 := by
      rw [(hthrough n).1, handOver]
      split <;> rfl
    rw [hmute, hmute, h]

/-- What `ClientCall` does, in an agent `b`, is what `IvySendMsg` does for the client in an agent `a`:
it hands over the same frames in the same order and none to others, counts them, leaves the connection
the same, and tells the application the same of it. -/
structure Agree (exec : Exec Code) (callback : Callback Code User) (debug_binary_msg : Bool)
    (a b : Agent Code User) (m : Format) (c : ℕ) : Prop where
  frames : (clientCall exec callback b c m.message).1.net.mute =
    ((toClient c (ivySendMsg exec callback debug_binary_msg a m).handed.flatten).foldl
      (handOver fun _ => none) b.net).mute
  others : ∀ d, d ≠ c →
    ((clientCall exec callback b c m.message).1.net.sock d).map (·.client) = (b.net.sock d).map (·.client)
  count : (clientCall exec callback b c m.message).2 =
    (toClient c (ivySendMsg exec callback debug_binary_msg a m).handed.flatten).length
  client : ((clientCall exec callback b c m.message).1.net.sock c).map (·.client) =
    ((ivySendMsg exec callback debug_binary_msg a m).agent.net.sock c).map (·.client)
  events : (clientCall exec callback b c m.message).1.net.events.filter (·.1 = c) =
    (ivySendMsg exec callback debug_binary_msg a m).agent.net.events.filter (·.1 = c)

section Agree
variable (exec : Exec Code) (debug_binary_msg : Bool) (app : Application User) (a : Agent Code User) (m : Format)

theorem mem_turns {isOpen : ℕ → Bool} {c : ℕ} {frames : List Handed} {results : Stream' SendResult}
    {turn : Handed × SendResult × SendResult} (h : turn ∈ turns isOpen c frames results) :
    turn.1 ∈ toClient c frames := by
  induction frames generalizing results with
  | nil => exact absurd h List.not_mem_nil
  | cons f rest ih =>
    rw [toClient_cons]
    rw [turns] at h
    by_cases hf : f.client = c
    · rw [if_pos hf] at h ⊢
      rcases List.mem_cons.mp h with rfl | h
      · exact List.mem_cons_self
      · exact List.mem_cons_of_mem f (ih h)
    · rw [if_neg hf] at h ⊢
      exact ih h

theorem ivySendMsg_refused_net (callback : Callback Code User) (h : Refused debug_binary_msg m) :
    (ivySendMsg exec callback debug_binary_msg a m).agent.net = a.net := by
  unfold ivySendMsg
  split_ifs with hfmt
  · rfl
  · obtain ⟨hdebug, hcheck⟩ := h.resolve_left hfmt
    dsimp only
    rw [if_pos (by rw [string_printMessage, hdebug]; exact hcheck)]
    rfl

theorem clientCall_others {c d : ℕ} (hd : d ≠ c) (message : Text) :
    ((clientCall exec (observing exec debug_binary_msg app) a c message).1.net.sock d).map (·.client) =
      (a.net.sock d).map (·.client) := by
  obtain ⟨hnet, -⟩ := clientCall_observed exec debug_binary_msg app c a message
  rw [hnet]
  apply foldl_handOver_others rfl
  intro f hf hfd
  exact hd (hfd.symm.trans (of_decide_eq_true (List.mem_filter.mp hf).2))

/-- What `ClientCall` makes of the connection, and what it tells of it. -/
theorem clientCall_toward {c : ℕ} {client : Client} (hopen : (a.net.sock c).map (·.client) = some client)
    (message : Text) :
    let q := sendTurns client
      (turns a.net.isOpen c (toClient c (owedFrames exec message a.messSndByRegexp.entries)) a.net.results)
    let b := (clientCall exec (observing exec debug_binary_msg app) a c message).1
    (b.net.sock c).map (·.client) = some q.1 ∧
      b.net.events.filter (·.1 = c) =
        a.net.events.filter (·.1 = c) ++ (q.2.filterMap reportUnique).map fun event => (c, event) := by
  obtain ⟨hnet, -⟩ := clientCall_observed exec debug_binary_msg app c a message
  dsimp only
  rw [hnet]
  exact foldl_handOver rfl (toClient c (owedFrames exec message a.messSndByRegexp.entries)) hopen

/-- What the loop of `IvySendMsg` makes of the connection, and what it tells of it. -/
theorem ivySendMsg_toward {c : ℕ} {client : Client} (hopen : (a.net.sock c).map (·.client) = some client)
    (h : ¬ Refused debug_binary_msg m) :
    let q := sendTurns client (turns a.net.isOpen c (owedFrames exec m.message a.messSndByRegexp.entries) a.net.results)
    let sent := ivySendMsg exec (observing exec debug_binary_msg app) debug_binary_msg a m
    sent.handed.flatten = owedFrames exec m.message a.messSndByRegexp.entries ∧
      (sent.agent.net.sock c).map (·.client) = some q.1 ∧
      sent.agent.net.events.filter (·.1 = c) =
        a.net.events.filter (·.1 = c) ++ (q.2.filterMap report).map fun event => (c, event) := by
  have htaken := ivySendMsg_taken exec (observing exec debug_binary_msg app) debug_binary_msg a m h
  obtain ⟨hnet, hhanded, -⟩ := callEntries_observed exec debug_binary_msg app (printMessage a m) a.messSndByRegexp.entries
  rw [string_printMessage, ← htaken] at hnet hhanded
  have hopen' : ((printMessage a m).net.sock c).map (·.client) = some client := hopen
  dsimp only
  rw [hnet]
  exact ⟨hhanded, foldl_handOver rfl (owedFrames exec m.message a.messSndByRegexp.entries) hopen'⟩

/-- A message that is refused is owed to nobody on the first path. -/
theorem agree_refused_iff {c : ℕ} (results : Stream' SendResult) (h : Refused debug_binary_msg m) :
    Agree exec (observing exec debug_binary_msg app) debug_binary_msg a (a.withResults results) m c ↔
      toClient c (owedFrames exec m.message a.messSndByRegexp.entries) = [] := by
  obtain ⟨hnet, hcount⟩ := clientCall_observed exec debug_binary_msg app c (a.withResults results) m.message
  obtain ⟨hnone, -⟩ := ivySendMsg_refused exec (observing exec debug_binary_msg app) debug_binary_msg a m h
  have hsent := ivySendMsg_refused_net exec debug_binary_msg a m (observing exec debug_binary_msg app) h
  have hframes : (a.withResults results).messSndByRegexp = a.messSndByRegexp := rfl
  rw [hframes] at hnet hcount
  constructor
  · intro hagree
    have hlength := hcount.symm.trans hagree.count
    rw [hnone] at hlength
    exact List.length_eq_zero_iff.mp hlength
  · intro hnil
    rw [hnil] at hnet hcount
    constructor
    · rw [hnet, hnone]
      rfl
    · exact fun d hd => clientCall_others exec debug_binary_msg app (a.withResults results) hd m.message
    · rw [hcount, hnone]
      rfl
    · rw [hnet, hsent]
      rfl
    · rw [hnet, hsent]
      rfl

/-- The paths differ in the report of a full FIFO alone. -/
theorem agree_taken_iff {c : ℕ} {client : Client} (hopen : (a.net.sock c).map (·.client) = some client)
    (results : Stream' SendResult)
    (hsame : turns a.net.isOpen c (owedFrames exec m.message a.messSndByRegexp.entries) a.net.results =
      turns a.net.isOpen c (toClient c (owedFrames exec m.message a.messSndByRegexp.entries)) results)
    (h : ¬ Refused debug_binary_msg m) :
    Agree exec (observing exec debug_binary_msg app) debug_binary_msg a (a.withResults results) m c ↔
      SendState.sendStateFifoFull ∉ (sendTurns client
        (turns a.net.isOpen c (owedFrames exec m.message a.messSndByRegexp.entries) a.net.results)).2 := by
  obtain ⟨hnet, hcount⟩ := clientCall_observed exec debug_binary_msg app c (a.withResults results) m.message
  have hopen' : ((a.withResults results).net.sock c).map (·.client) = some client := hopen
  obtain ⟨hclient, hevents⟩ := clientCall_toward exec debug_binary_msg app (a.withResults results) hopen' m.message
  obtain ⟨hhanded, hclient', hevents'⟩ := ivySendMsg_toward exec debug_binary_msg app a m hopen h
  have hturns : turns (a.withResults results).net.isOpen c
      (toClient c (owedFrames exec m.message (a.withResults results).messSndByRegexp.entries))
      (a.withResults results).net.results =
      turns a.net.isOpen c (owedFrames exec m.message a.messSndByRegexp.entries) a.net.results := hsame.symm
  rw [hturns] at hclient hevents
  have hinj : Function.Injective fun event : IvyApplicationEvent => (c, event) := fun _ _ heq => congrArg Prod.snd heq
  rw [← filterMap_report_iff]
  constructor
  · intro hagree
    have heq := hagree.events
    rw [hevents, hevents'] at heq
    exact hinj.list_map (List.append_cancel_left heq)
  · intro heq
    constructor
    · rw [hnet, hhanded]
      exact mute_foldl _ _ _ rfl
    · exact fun d hd => clientCall_others exec debug_binary_msg app (a.withResults results) hd m.message
    · rw [hcount, hhanded]
      rfl
    · rw [hclient, hclient']
    · rw [hevents, hevents', heq]
      rfl

/-- The two paths agree exactly if `IvySendMsg` takes the message, or the client is owed nothing, and no
frame to the client finds a FIFO without room for its payload. The kernel is to answer the sends to the
client alike. -/
theorem paths_agree_iff {c : ℕ} {client : Client} (hopen : (a.net.sock c).map (·.client) = some client)
    (results : Stream' SendResult)
    (hsame : turns a.net.isOpen c (owedFrames exec m.message a.messSndByRegexp.entries) a.net.results =
      turns a.net.isOpen c (toClient c (owedFrames exec m.message a.messSndByRegexp.entries)) results)
    (hlen : ∀ f ∈ toClient c (owedFrames exec m.message a.messSndByRegexp.entries),
      f.id.length ≤ intMax ∧ f.buffer.length ≤ intMax) :
    Agree exec (callbackOf exec debug_binary_msg app 0) debug_binary_msg a (a.withResults results) m c ↔
      (Refused debug_binary_msg m → toClient c (owedFrames exec m.message a.messSndByRegexp.entries) = []) ∧
      Roomy client (turns a.net.isOpen c (owedFrames exec m.message a.messSndByRegexp.entries) a.net.results) := by
  have hlen' : ∀ turn ∈ turns a.net.isOpen c (owedFrames exec m.message a.messSndByRegexp.entries) a.net.results,
      turn.1.id.length ≤ intMax ∧ turn.1.buffer.length ≤ intMax := fun turn hturn => hlen _ (mem_turns hturn)
  by_cases hrefused : Refused debug_binary_msg m
  · have hrefused_iff := agree_refused_iff exec debug_binary_msg app a m (c := c) results hrefused
    constructor
    · intro h
      have hnil := hrefused_iff.mp h
      constructor
      · exact fun _ => hnil
      · rw [hsame, hnil]
        trivial
    · exact fun h => hrefused_iff.mpr (h.1 hrefused)
  · have htaken_iff := agree_taken_iff exec debug_binary_msg app a m hopen results hsame hrefused
    rw [← roomy_iff client hlen'] at htaken_iff
    constructor
    · exact fun h => ⟨fun hr => absurd hr hrefused, htaken_iff.mp h⟩
    · exact fun h => htaken_iff.mpr h.2

end Agree

/-- The first of two subscribers is in congestion, with a FIFO that may have refused a write. -/
def congested (full : Bool) : Agent Unit Unit :=
  { twoSubscribers with
    net := ⟨[⟨1, (connected 5).client⟩, ⟨0, { (connected 4).client with ifb := some { ivyFifoNew with full := full } }⟩],
      {4}, 2, [], Stream'.const (.accepted 64)⟩ }

theorem paths_agree_iff_example :
    let exec : Exec Unit := fun _ message => some [some message]
    let m : Format := ⟨some (ascii "a"), ascii "a"⟩
    let frames := owedFrames exec m.message (congested false).messSndByRegexp.entries
    Agree exec (callbackOf exec false (fun _ _ _ => ((), [])) 0) false (congested false)
        ((congested false).withResults (Stream'.const (.accepted 64))) m 0 ↔
      (Refused false m → toClient 0 frames = []) ∧
      Roomy { (connected 4).client with ifb := some { ivyFifoNew with full := false } }
        (turns (congested false).net.isOpen 0 frames (congested false).net.results) :=
  paths_agree_iff _ _ _ _ _ rfl _ rfl (by decide +kernel)

/-- A FIFO that is full loses the frame on both paths, and only `IvySendMsg` tells the application. -/
theorem fifoFull_not_told :
    let exec : Exec Unit := fun _ message => some [some message]
    let m : Format := ⟨some (ascii "a"), ascii "a"⟩
    let frames := owedFrames exec m.message (congested true).messSndByRegexp.entries
    turns (congested true).net.isOpen 0 frames (congested true).net.results =
        turns (congested true).net.isOpen 0 (toClient 0 frames) (Stream'.const (.accepted 64)) ∧
      ¬ Agree exec (callbackOf exec false (fun _ _ _ => ((), [])) 0) false (congested true)
        ((congested true).withResults (Stream'.const (.accepted 64))) m 0 := by
  intro exec m frames
  refine ⟨rfl, fun h => ?_⟩
  have hevents := h.events
  revert hevents
  decide +kernel

end Ivy.Bus
