import Ivy.Bus.MainLoop
import Ivy.Bus.Paths
import Ivy.Socket.Delivery

/-! A publisher and its subscribers. Each connection is a pipe of what the publisher owes to its
client, whatever happens on the other connections. -/
namespace Ivy.Bus
open Fifo Registry Socket

variable {Code User : Type*}

/-- The messages that a text owes, each with the subscription that it is for. -/
def owedCalls (exec : Exec Code) (message : Text) (d : Dictionary Code) : List (Subscriber × List (Option Text)) :=
  d.entries.flatMap (Registry.regexpCall exec message)

def callMessage (call : Subscriber × List (Option Text)) : Message := .msg call.1.id call.2

def callHanded (call : Subscriber × List (Option Text)) : Handed :=
  frame (args (call.2.map argText) ++ [newline]) call.1

theorem owedFrames_eq (exec : Exec Code) (message : Text) (d : Dictionary Code) :
    owedFrames exec message d.entries = (owedCalls exec message d).map callHanded := by
  unfold owedFrames owedCalls
  rw [List.map_flatMap]
  rfl

section Frames

/-- What a frame is for the pipes; a client that is gone has none. -/
def callEvents (n : Net) (call : Subscriber × List (Option Text)) : List (ℕ × Pipe.Event Message) :=
  match n.sock call.1.client with
  | none => []
  | some s => [(call.1.client, .send (callMessage call) (admits s n.results.head (callMessage call)))]

/-- What the frames of a message are for the pipes, one after the other. -/
def sendEvents (n : Net) : List (Subscriber × List (Option Text)) → List (ℕ × Pipe.Event Message)
  | [] => []
  | call :: rest => callEvents n call ++ sendEvents (handOver report n (callHanded call)) rest

/-- Whenever it is the turn of a frame, it is sendable and goes out whole. -/
def TurnsWhole (n : Net) : List (Subscriber × List (Option Text)) → Prop
  | [] => True
  | call :: rest =>
    (∀ s ∈ n.sock call.1.client, (callMessage call).Sendable ∧
      SentWhole s n.results.head n.results.tail.head (callMessage call)) ∧
    TurnsWhole (handOver report n (callHanded call)) rest

/-- The connections carry the messages of their pipes. What was delivered stays so when a connection is
gone, and nothing was before it was made. -/
structure NetCarries (n : Net) (taken : ℕ → ℕ) (receiver : ℕ → Receiver) (ps : ℕ → Pipe Message) : Prop where
  wired : n.Wired
  carries : ∀ c s, n.sock c = some s → Carries ⟨s, taken c, receiver c⟩ (ps c)
  decoded : ∀ c, Decoded (receiver c).delivered (ps c).delivered
  fresh : ∀ c, n.created ≤ c → taken c = 0 ∧ receiver c = newReceiver ∧ ps c = .empty

variable {n : Net} {taken : ℕ → ℕ} {receiver : ℕ → Receiver} {ps : ℕ → Pipe Message}

theorem sock_put {c : ℕ} {s t : Sock} (hn : n.Wired) (hs : n.sock c = some s) {d : ℕ} {u : Sock}
    (hu : (n.put c t).sock d = some u) : u.wrdy_fds = t.wrdy_fds ∧
      ((d = c ∧ u.client = t.client) ∨
        (d ≠ c ∧ n.sock d = some ⟨u.client, n.wrdy_fds⟩ ∧ u.client.fd ≠ s.client.fd)) := by
  obtain ⟨hmem, hwrdy⟩ := mem_of_sock hu
  refine ⟨hwrdy, ?_⟩
  rcases (mem_put hs t).mp hmem with hself | ⟨hold, hid⟩
  · obtain ⟨rfl, hclient⟩ := Channel.mk.inj hself
    exact .inl ⟨rfl, hclient⟩
  · refine .inr ⟨hid, hn.sock hold, fun heq => hid ?_⟩
    exact congrArg Channel.id (hn.eq_of_fd hold (mem_of_sock hs).1 heq)

theorem NetCarries.below (h : NetCarries n taken receiver ps) {c d : ℕ} {s : Sock} (hs : n.sock c = some s)
    (hd : n.created ≤ d) : d ≠ c := by
  have hbelow : c < n.created := h.wired.below _ (mem_of_sock hs).1
  omega

theorem rewire {s u : Sock} {k : ℕ} {r : Receiver} {p : Pipe Message} (h : Carries ⟨s, k, r⟩ p)
    (hclient : u.client = s.client) (hwaits : u.Waits) : Carries ⟨u, k, r⟩ p := by
  have hwire : s.client.wire <+: u.client.wire := hclient ▸ List.prefix_rfl
  have hstream : u.stream = s.stream := by rw [Sock.stream, Sock.pending, hclient, Sock.stream, Sock.pending]
  exact h.sender hwaits hwire (hstream.trans h.stream) rfl h.sendable

theorem NetCarries.put (h : NetCarries n taken receiver ps) {c : ℕ} {s t : Sock} (hs : n.sock c = some s)
    (hlocal : Local s t) {p : Pipe Message} (hp : Carries ⟨t, taken c, receiver c⟩ p) :
    NetCarries (n.put c t) taken receiver (Function.update ps c p) where
  wired := wired_put h.wired hs hlocal
  carries d u hu := by
    obtain ⟨hwrdy, ⟨rfl, hclient⟩ | ⟨hne, hold, hfd⟩⟩ := sock_put h.wired hs hu
    · obtain rfl : u = t := by
        cases u
        cases t
        exact congrArg₂ Sock.mk hclient hwrdy
      rwa [Function.update_self]
    · have hd := h.carries d _ hold
      have hwaits : u.Waits := by
        rw [Sock.Waits, hwrdy, hlocal.others u.client.fd hfd, (mem_of_sock hs).2]
        exact hd.waits
      rw [Function.update_of_ne hne]
      exact rewire hd rfl hwaits
  decoded d := by
    by_cases hd : d = c
    · subst hd
      rw [Function.update_self]
      exact hp.decoded
    · rw [Function.update_of_ne hd]
      exact h.decoded d
  fresh d hd := by
    rw [Function.update_of_ne (h.below hs hd)]
    exact h.fresh d hd

theorem remove_created (n : Net) (c : ℕ) : (n.remove c).created = n.created := by
  unfold Net.remove
  split <;> rfl

theorem NetCarries.shrink (h : NetCarries n taken receiver ps) {m : Net} (hm : m.Wired)
    (hsub : ∀ ch ∈ m.channels_list, ch ∈ n.channels_list) (hcreated : m.created = n.created) :
    NetCarries m taken receiver ps where
  wired := hm
  carries c s hs := by
    obtain ⟨hmem, hwrdy⟩ := mem_of_sock hs
    have hold := h.wired.sock (hsub _ hmem)
    have hwaits : s.Waits := by
      rw [Sock.Waits, hwrdy]
      exact hm.waits _ hmem
    exact rewire (h.carries c _ hold) rfl hwaits
  decoded := h.decoded
  fresh c hc := h.fresh c (hcreated ▸ hc)

theorem sendMessage_callMessage (s : Sock) (call : Subscriber × List (Option Text)) (result₁ result₂ : SendResult) :
    sendMessage s emptyBuffer result₁ result₂ (callMessage call) =
      (Socket.socketSendRawWithId s (bufferId .msg call.1.id) (args (call.2.map argText) ++ [newline])
        result₁ result₂).1 := by
  rw [← (printArgs_contents emptyBuffer call.2).1]
  rfl

/-- A frame is sent to a connection as its message is, and told of. -/
theorem handOver_eq {n : Net} {call : Subscriber × List (Option Text)} {s : Sock} (hs : n.sock call.1.client = some s) :
    ∃ events, handOver report n (callHanded call) =
      { ({ n with results := n.results.tail.tail } : Net).put call.1.client
          (sendMessage s emptyBuffer n.results.head n.results.tail.head (callMessage call)) with events := events } := by
  rw [sendMessage_callMessage]
  unfold handOver callHanded frame
  simp only [Net.socketSendRawWithId, Net.through, hs]
  split
  · exact ⟨n.events, rfl⟩
  · exact ⟨_, rfl⟩

theorem sendMessage_local (s : Sock) (bufferArg : IvyBuffer) (result₁ result₂ : SendResult) (m : Message) :
    Local s (sendMessage s bufferArg result₁ result₂ m) := by
  cases m with
  | msg id captures => exact (socketSendRawWithId_reports s _ _ result₁ result₂).toLocal
  | control kind id arg => exact (bufferizedSocketSendRaw_reports s _ result₁).toLocal

theorem NetCarries.handOver (h : NetCarries n taken receiver ps) {call : Subscriber × List (Option Text)}
    (hwhole : ∀ s ∈ n.sock call.1.client, (callMessage call).Sendable ∧
      SentWhole s n.results.head n.results.tail.head (callMessage call)) :
    ∃ qs, Machine.run Pipe.stepAt ps (callEvents n call) = some qs ∧
      NetCarries (Bus.handOver report n (callHanded call)) taken receiver qs := by
  unfold callEvents
  cases hs : n.sock call.1.client with
  | none =>
    rw [handOver_none rfl hs]
    exact ⟨ps, rfl, h⟩
  | some s =>
    obtain ⟨hsendable, hsent⟩ := hwhole s hs
    obtain ⟨p, hp, hcarries⟩ := (h.carries _ s hs).send emptyBuffer hsendable hsent
    obtain ⟨events, heq⟩ := handOver_eq hs
    have hput := h.put hs (sendMessage_local s emptyBuffer _ _ _) hcarries
    rw [heq]
    have hwired := hput.wired
    refine ⟨Function.update ps call.1.client p, Pipe.run_stepAt hp, ?_, hput.carries, hput.decoded, hput.fresh⟩
    exact ⟨hwired.ids, hwired.fds, hwired.below, hwired.waits, hwired.wakes⟩

theorem NetCarries.foldl_handOver {calls : List (Subscriber × List (Option Text))}
    (h : NetCarries n taken receiver ps) (hwhole : TurnsWhole n calls) :
    ∃ qs, Machine.run Pipe.stepAt ps (sendEvents n calls) = some qs ∧
      NetCarries ((calls.map callHanded).foldl (Bus.handOver report) n) taken receiver qs := by
  induction calls generalizing n ps with
  | nil => exact ⟨ps, rfl, h⟩
  | cons call rest ih =>
    obtain ⟨qs, hqs, hfirst⟩ := h.handOver hwhole.1
    obtain ⟨rs, hrs, hrest⟩ := ih hfirst hwhole.2
    refine ⟨rs, ?_, hrest⟩
    rw [sendEvents, Machine.run_append, hqs, Option.bind_some, hrs]

end Frames

structure Distribution (Code User : Type*) where
  publisher : Agent Code User
  taken : ℕ → ℕ
  receiver : ℕ → Receiver

namespace Distribution

def start (a : Agent Code User) : Distribution Code User := ⟨a, fun _ => 0, fun _ => newReceiver⟩

def connection (b : Distribution Code User) (c : ℕ) : Option Connection :=
  (b.publisher.net.sock c).map fun s => ⟨s, b.taken c, b.receiver c⟩

end Distribution

/-- What happens on the bus. The lines of the peers change the dictionary in any way. -/
inductive BusEvent (Code : Type*)
  | connect (fd : ℕ)
  | subscriptions (d : Dictionary Code)
  | ivySendMsg (m : Format)
  | writable (c : ℕ) (results : List SendResult)
  | readable (c : ℕ) (n : ℕ)
  | ivyChannelDelete (c : ℕ)

instance (debug_binary_msg : Bool) (m : Format) : Decidable (Refused debug_binary_msg m) :=
  inferInstanceAs (Decidable (_ ∨ _ ∧ _))

section
variable (exec : Exec Code) (debug_binary_msg : Bool) (app : Application User) (cb : ℕ → Interpretation)

def busStep (b : Distribution Code User) : BusEvent Code → Option (Distribution Code User)
  | .connect fd => some { b with publisher := { b.publisher with net := b.publisher.net.ivyChannelAdd fd } }
  | .subscriptions d => some { b with publisher := { b.publisher with messSndByRegexp := d } }
  | .ivySendMsg m => some { b with
      publisher := (ivySendMsg exec (observing exec debug_binary_msg app) debug_binary_msg b.publisher m).agent }
  | .writable c results =>
    -- `select` reports a client only if it waits for that, and a closed one is deleted before
    if ∃ s ∈ b.publisher.net.sock c, s.client.fd ∈ s.wrdy_fds ∧ s.client.tobedeleted = false then
      (handleCongestionWrite (observing exec debug_binary_msg app) b.publisher c results).map fun a =>
        { b with publisher := a }
    else some b
  | .readable c n =>
    match b.connection c with
    | none => some b
    | some k => (connectionStep (cb c) k (.readable n)).map fun k => { b with
        taken := Function.update b.taken c k.taken
        receiver := Function.update b.receiver c k.receiver }
  | .ivyChannelDelete c => some { b with
      publisher := ivyChannelDelete (observing exec debug_binary_msg app) b.publisher c }

def busEvents (b : Distribution Code User) : BusEvent Code → List (ℕ × Pipe.Event Message)
  | .ivySendMsg m =>
    if Refused debug_binary_msg m then []
    else sendEvents b.publisher.net (owedCalls exec m.message b.publisher.messSndByRegexp)
  | .readable c n =>
    match b.connection c with
    | none => []
    | some k => (pipeEvents (cb c) k (.readable n)).map fun e => (c, e)
  | _ => []

def owes (b : Distribution Code User) : BusEvent Code → List (ℕ × Message)
  | .ivySendMsg m =>
    if Refused debug_binary_msg m then []
    else (owedCalls exec m.message b.publisher.messSndByRegexp).map fun call => (call.1.client, callMessage call)
  | _ => []

/-- New descriptors are not in use, and messages are sendable and go out whole. -/
def GoesWhole (b : Distribution Code User) : BusEvent Code → Prop
  | .connect fd => fd ∉ b.publisher.net.channels_list.map (·.client.fd)
  | .ivySendMsg m => ¬ Refused debug_binary_msg m →
    TurnsWhole b.publisher.net (owedCalls exec m.message b.publisher.messSndByRegexp)
  | _ => True

end

/-- The connections of the publisher are pipes. -/
structure Distributes (b : Distribution Code User) (ps : ℕ → Pipe Message) : Prop where
  sound : b.publisher.net.Sound
  net : NetCarries b.publisher.net b.taken b.receiver ps

section Steps
variable {exec : Exec Code} {debug_binary_msg : Bool} {app : Application User} {cb : ℕ → Interpretation}
  {b : Distribution Code User} {ps : ℕ → Pipe Message}

theorem Distributes.connect (h : Distributes b ps) {fd : ℕ} (hfd : fd ∉ b.publisher.net.channels_list.map (·.client.fd)) :
    Distributes { b with publisher := { b.publisher with net := b.publisher.net.ivyChannelAdd fd } } ps where
  sound := ivyChannelAdd_sound h.sound hfd
  net := by
    have hsound := ivyChannelAdd_sound h.sound hfd
    refine ⟨hsound.toWired, fun c s hs => ?_, h.net.decoded, fun c hc => h.net.fresh c (Nat.le_of_succ_le hc)⟩
    obtain ⟨hmem, hwrdy⟩ := mem_of_sock hs
    have hwaits : s.Waits := by
      rw [Sock.Waits, hwrdy]
      exact hsound.waits _ hmem
    rcases List.mem_cons.mp hmem with hnew | hold
    · obtain ⟨rfl, hclient⟩ := Channel.mk.inj hnew
      obtain ⟨htaken, hreceiver, hp⟩ := h.net.fresh _ le_rfl
      dsimp only
      rw [htaken, hreceiver, hp]
      exact rewire (carries_new fd) hclient hwaits
    · exact rewire (h.net.carries c _ (h.sound.sock hold)) rfl hwaits

theorem Distributes.ivySendMsg (h : Distributes b ps) {m : Format} (hwhole : GoesWhole exec debug_binary_msg b (.ivySendMsg m)) :
    ∃ qs, Machine.run Pipe.stepAt ps (busEvents exec debug_binary_msg cb b (.ivySendMsg m)) = some qs ∧
      Distributes { b with publisher :=
        (Bus.ivySendMsg exec (observing exec debug_binary_msg app) debug_binary_msg b.publisher m).agent } qs := by
  have hsound := (ivySendMsg_moves (callbackOf_safe exec debug_binary_msg app 0) exec debug_binary_msg b.publisher
    h.sound m).sound
  unfold busEvents
  dsimp only
  split_ifs with hrefused
  · refine ⟨ps, rfl, hsound, ?_⟩
    dsimp only
    rw [ivySendMsg_refused_net exec debug_binary_msg b.publisher m _ hrefused]
    exact h.net
  · obtain ⟨qs, hqs, hcarries⟩ := h.net.foldl_handOver (hwhole hrefused)
    obtain ⟨hnet, -, -⟩ := callEntries_observed exec debug_binary_msg app (printMessage b.publisher m)
      b.publisher.messSndByRegexp.entries
    rw [string_printMessage, owedFrames_eq, ← ivySendMsg_taken exec _ debug_binary_msg b.publisher m hrefused] at hnet
    refine ⟨qs, hqs, hsound, ?_⟩
    dsimp only
    rw [hnet]
    exact hcarries

theorem Distributes.writable (h : Distributes b ps) (c : ℕ) (results : List SendResult) :
    ∃ t, busStep exec debug_binary_msg app cb b (.writable c results) = some t ∧ Distributes t ps := by
  unfold busStep
  dsimp only
  split_ifs with hw
  · obtain ⟨s, hmem, hfd, -⟩ := hw
    have hs : b.publisher.net.sock c = some s := hmem
    have hcarries := h.net.carries c s hs
    have hisSome : s.client.ifb.isSome := hcarries.waits.mpr hfd
    obtain ⟨t, decongested, hrun, hlocal, -⟩ := handleCongestionWrite_reports hisSome results
    obtain ⟨u, b', hu, hstream, hwaits⟩ := Socket.handleCongestionWrite_stream hcarries.waits hfd results
    obtain ⟨rfl, rfl⟩ := Prod.mk.inj (Option.some.inj (hrun.symm.trans hu))
    have ht : Carries ⟨t, b.taken c, b.receiver c⟩ (ps c) :=
      hcarries.sender hwaits (handleCongestionWrite_wire hrun) (hstream.trans hcarries.stream) rfl hcarries.sendable
    have hput := h.net.put hs hlocal ht
    rw [Function.update_eq_self] at hput
    have hcong : b.publisher.net.Congested c s.client.fd := ⟨_, (mem_of_sock hs).1, rfl, rfl, hisSome⟩
    obtain ⟨a, ha, hsound, -⟩ := handleCongestionWrite_sound (callbackOf_safe exec debug_binary_msg app 0) b.publisher
      h.sound hcong results
    refine ⟨{ b with publisher := a }, by rw [ha]; rfl, hsound, ?_⟩
    simp only [handleCongestionWrite, hs, hrun, Option.map_some] at ha
    obtain rfl := Option.some.inj ha
    apply hput.shrink hsound.toWired
    · cases decongested <;> exact fun ch hch => hch
    · cases decongested <;> rfl
  · exact ⟨b, rfl, h⟩

theorem Distributes.readable (hcb : ∀ c, (cb c).WritesInside) (h : Distributes b ps) (c n : ℕ) :
    ∃ t qs, busStep exec debug_binary_msg app cb b (.readable c n) = some t ∧
      Machine.run Pipe.stepAt ps (busEvents exec debug_binary_msg cb b (.readable c n)) = some qs ∧ Distributes t qs := by
  cases hs : b.publisher.net.sock c with
  | none =>
    have hnone : b.connection c = none := by rw [Distribution.connection, hs, Option.map_none]
    simp only [busStep, busEvents, hnone]
    exact ⟨b, ps, rfl, rfl, h⟩
  | some s =>
    have hsome : b.connection c = some ⟨s, b.taken c, b.receiver c⟩ := by
      rw [Distribution.connection, hs, Option.map_some]
    obtain ⟨k, p, hk, hp, hcarries⟩ := (h.net.carries c s hs).readable (hcb c) n
    have hsender : k.sender = s := by
      unfold connectionStep at hk
      dsimp only at hk
      split_ifs at hk
      · obtain rfl := Option.some.inj hk
        rfl
      · obtain rfl := Option.some.inj hk
        rfl
    simp only [busStep, busEvents, hsome, hk, Option.map_some]
    refine ⟨_, Function.update ps c p, rfl, Pipe.run_stepAt hp, h.sound, h.sound.toWired, ?_, ?_, ?_⟩
    · intro d u hu
      by_cases hd : d = c
      · subst hd
        obtain rfl : s = u := Option.some.inj (hs.symm.trans hu)
        dsimp only
        rw [Function.update_self, Function.update_self, Function.update_self]
        exact hsender ▸ hcarries
      · dsimp only
        rw [Function.update_of_ne hd, Function.update_of_ne hd, Function.update_of_ne hd]
        exact h.net.carries d u hu
    · intro d
      by_cases hd : d = c
      · subst hd
        dsimp only
        rw [Function.update_self, Function.update_self]
        exact hcarries.decoded
      · dsimp only
        rw [Function.update_of_ne hd, Function.update_of_ne hd]
        exact h.net.decoded d
    · intro d hd
      have hne := h.net.below hs hd
      dsimp only
      rw [Function.update_of_ne hne, Function.update_of_ne hne, Function.update_of_ne hne]
      exact h.net.fresh d hd

theorem Distributes.ivyChannelDelete (h : Distributes b ps) (c : ℕ) :
    Distributes { b with publisher :=
      Bus.ivyChannelDelete (observing exec debug_binary_msg app) b.publisher c } ps where
  sound := by
    have htold := (deliver_moves h.sound c .ivyApplicationDisconnected (by decide) (by decide)).sound
    exact remove_sound htold c
  net := by
    have htold := (deliver_moves h.sound c .ivyApplicationDisconnected (by decide) (by decide)).sound
    apply h.net.shrink (remove_sound htold c).toWired
    · intro ch hch
      change ch ∈ ((b.publisher.net.deliver c .ivyApplicationDisconnected).remove c).channels_list at hch
      unfold Net.remove at hch
      split at hch
      · exact hch
      · exact (List.mem_filter.mp hch).1
    · exact remove_created _ c

/-- Each step on the bus is made of steps of the pipes. -/
theorem Distributes.step (hcb : ∀ c, (cb c).WritesInside) (h : Distributes b ps) {e : BusEvent Code}
    (he : GoesWhole exec debug_binary_msg b e) :
    ∃ t qs, busStep exec debug_binary_msg app cb b e = some t ∧
      Machine.run Pipe.stepAt ps (busEvents exec debug_binary_msg cb b e) = some qs ∧ Distributes t qs := by
  cases e with
  | connect fd => exact ⟨_, ps, rfl, rfl, h.connect he⟩
  | subscriptions d => exact ⟨_, ps, rfl, rfl, h.sound, h.net⟩
  | ivySendMsg m =>
    obtain ⟨qs, hqs, hdistributes⟩ := h.ivySendMsg he
    exact ⟨_, qs, rfl, hqs, hdistributes⟩
  | writable c results =>
    obtain ⟨t, ht, hdistributes⟩ := h.writable c results
    exact ⟨t, ps, ht, rfl, hdistributes⟩
  | readable c n => exact h.readable hcb c n
  | ivyChannelDelete c => exact ⟨_, ps, rfl, rfl, h.ivyChannelDelete c⟩

theorem distributes_start {a : Agent Code User} {results : Stream' SendResult} (ha : a.net = .initial results) :
    Distributes (.start a) fun _ => .empty where
  sound := by
    have hnet : (Distribution.start a).publisher.net = .initial results := ha
    rw [hnet]
    exact initial_sound results
  net := by
    have hnet : (Distribution.start a).publisher.net = .initial results := ha
    rw [hnet]
    refine ⟨(initial_sound results).toWired, fun c s hs => ?_, fun _ => List.Forall₂.nil, fun c _ => ⟨rfl, rfl, rfl⟩⟩
    exact absurd (mem_of_sock hs).1 List.not_mem_nil

end Steps

section Owed
variable {exec : Exec Code} {debug_binary_msg : Bool} {app : Application User} {cb : ℕ → Interpretation}

def messagesTo (c : ℕ) (ms : List (ℕ × Message)) : List Message :=
  ms.filterMap fun m => if m.1 = c then some m.2 else none

theorem messagesTo_append (c : ℕ) (ms ms' : List (ℕ × Message)) :
    messagesTo c (ms ++ ms') = messagesTo c ms ++ messagesTo c ms' := List.filterMap_append

def Within (c : ℕ) (es : List (ℕ × Pipe.Event Message)) (ms : List (ℕ × Message)) : Prop :=
  (Pipe.sent (Pipe.eventsAt c es)).Sublist (messagesTo c ms)

theorem Within.append {c : ℕ} {es es' : List (ℕ × Pipe.Event Message)} {ms ms' : List (ℕ × Message)}
    (h : Within c es ms) (h' : Within c es' ms') : Within c (es ++ es') (ms ++ ms') := by
  unfold Within
  rw [Pipe.eventsAt_append, Pipe.sent_append, messagesTo_append]
  exact List.Sublist.append h h'

theorem within_sendEvents (n : Net) (calls : List (Subscriber × List (Option Text))) (c : ℕ) :
    Within c (sendEvents n calls) (calls.map fun call => (call.1.client, callMessage call)) := by
  induction calls generalizing n with
  | nil => exact .slnil
  | cons call rest ih =>
    have hfirst : Within c (callEvents n call) [(call.1.client, callMessage call)] := by
      unfold callEvents Within
      cases n.sock call.1.client with
      | none => exact List.nil_sublist _
      | some s =>
        by_cases hc : call.1.client = c
        · simp [Pipe.eventsAt, Pipe.sent, messagesTo, hc]
        · simp [Pipe.eventsAt, Pipe.sent, messagesTo, hc]
    exact hfirst.append (ih _)

theorem within_owes (b : Distribution Code User) (e : BusEvent Code) (c : ℕ) :
    Within c (busEvents exec debug_binary_msg cb b e) (owes exec debug_binary_msg b e) := by
  cases e with
  | ivySendMsg m =>
    unfold busEvents owes
    dsimp only
    split_ifs
    · exact .slnil
    · exact within_sendEvents _ _ c
  | readable d n =>
    have hdelivers : ∀ k : Connection, Within c ((pipeEvents (cb d) k (.readable n)).map fun e => (d, e)) [] := by
      intro k
      unfold Within pipeEvents
      dsimp only
      by_cases hd : d = c
      · split_ifs <;> simp [Pipe.eventsAt, Pipe.sent, messagesTo, hd]
      · split_ifs <;> simp [Pipe.eventsAt, Pipe.sent, messagesTo, hd]
    simp only [busEvents, owes]
    cases b.connection d with
    | none => exact .slnil
    | some k => exact hdelivers k
  | _ => exact .slnil

/-- Every client of the bus gets the messages that are owed to it, those that its socket takes, in their
order and each once, whatever happens to the other clients. -/
theorem bus_delivery (hcb : ∀ c, (cb c).WritesInside) {a : Agent Code User} {results : Stream' SendResult}
    (ha : a.net = .initial results) {es : List (BusEvent Code)}
    (hwhole : Machine.Guarded (busStep exec debug_binary_msg app cb) (GoesWhole exec debug_binary_msg) (.start a) es) :
    ∃ b ps, Machine.run (busStep exec debug_binary_msg app cb) (.start a) es = some b ∧
      Machine.run Pipe.stepAt (fun _ => .empty) (Machine.labels (busStep exec debug_binary_msg app cb)
        (busEvents exec debug_binary_msg cb) (.start a) es) = some ps ∧
      ∀ c, (ps c).all.Sublist (messagesTo c (Machine.labels (busStep exec debug_binary_msg app cb)
          (owes exec debug_binary_msg) (.start a) es)) ∧
        Decoded (b.receiver c).delivered (ps c).delivered ∧
        ∀ k, b.connection c = some k → k.sender.pending = [] → k.taken = k.sender.client.wire.length →
          (ps c).onTheWay = [] := by
  obtain ⟨b, ps, hb, hps, hdistributes⟩ := Machine.simulation (distributes_start ha)
    (fun b ps e hR he => hR.step hcb he) (Machine.guarded_both hwhole fun _ => Pipe.empty)
  refine ⟨b, ps, hb, hps, fun c => ⟨?_, hdistributes.net.decoded c, fun k hk => ?_⟩⟩
  · have hall : (ps c).all = Pipe.admitted (Pipe.eventsAt c (Machine.labels (busStep exec debug_binary_msg app cb)
        (busEvents exec debug_binary_msg cb) (.start a) es)) := Pipe.run_all (Pipe.run_eventsAt hps c)
    rw [hall]
    apply (Pipe.admitted_sublist _).trans
    exact Machine.labels_related (R := Within c) .slnil (fun _ _ _ _ => Within.append)
      (fun b e => within_owes b e c) (.start a) es
  · obtain ⟨s, hs, rfl⟩ := Option.map_eq_some_iff.mp hk
    exact (hdistributes.net.carries c s hs).arrived

/-- A client connects, subscribes, and is sent a message that it reads. -/
private def oneSubscriber : List (BusEvent Unit) :=
  [.connect 4, .subscriptions ⟨[⟨0, ascii "(.*)", [⟨0, 7⟩], some ()⟩], 1, by simp, by simp, by simp⟩,
    .ivySendMsg ⟨some (ascii "a"), ascii "a"⟩, .readable 0 64]

theorem bus_delivery_example :
    let exec : Exec Unit := fun _ message => some [some message]
    let app : Application Unit := fun _ _ _ => ((), [])
    let a : Agent Unit Unit :=
      ⟨.initial (Stream'.const (.accepted 64)), .empty, emptyBuffer, emptyBuffer, emptyBuffer, (), []⟩
    ∃ (b : Distribution Unit Unit) (ps : ℕ → Pipe Message),
      Machine.run (busStep exec false app fun _ => stamp) (.start a) oneSubscriber = some b ∧
      Decoded (b.receiver 0).delivered (ps 0).delivered := by
  intro exec app a
  have hclean : ∀ capture ∈ [some (ascii "a")], Clean capture := by decide
  have hwhole : Machine.Guarded (busStep exec false app fun _ => stamp) (GoesWhole exec false) (.start a)
      oneSubscriber := by
    refine ⟨List.not_mem_nil, fun b hb => ⟨trivial, fun b' hb' => ⟨fun _ => ?_,
      fun _ _ => ⟨trivial, fun _ _ => trivial⟩⟩⟩⟩
    obtain rfl := Option.some.inj hb
    obtain rfl := Option.some.inj hb'
    refine ⟨fun s hs => ?_, trivial⟩
    obtain rfl := Option.some.inj hs
    exact ⟨⟨by decide, hclean, by decide⟩, 0, rfl, by decide⟩
  obtain ⟨b, ps, hb, -, hall⟩ := bus_delivery (fun _ => stamp_writesInside) rfl hwhole
  exact ⟨b, ps, hb, (hall 0).2.1⟩

end Owed
end Ivy.Bus
