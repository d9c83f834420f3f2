import Ivy.Bus.Senders
import Ivy.Lib.Alternate
import Ivy.Socket.Report

/-! Congestion, as the senders report it: the FIFO of a connection, its wake-up and the last
event that the application was told of agree, whatever the callback sends. -/
namespace Ivy.Bus
open Fifo Registry Socket IvyApplicationEvent

def Net.congestionEvents (n : Net) (c : ℕ) : List IvyApplicationEvent :=
  (n.events.filter fun e =>
    e.1 = c ∧ (e.2 = ivyApplicationCongestion ∨ e.2 = ivyApplicationDecongestion)).map Prod.snd

/-- What the application is told of next about a client. -/
def nextEvent (client : Client) : IvyApplicationEvent :=
  if client.ifb.isSome then ivyApplicationDecongestion else ivyApplicationCongestion

/-- A FIFO waits for a writable event, and only the FIFO of an open connection does. -/
structure Net.Wired (n : Net) : Prop where
  ids : (n.channels_list.map (·.id)).Nodup
  fds : (n.channels_list.map (·.client.fd)).Nodup
  below : ∀ ch ∈ n.channels_list, ch.id < n.created
  waits : ∀ ch ∈ n.channels_list, ch.client.ifb.isSome ↔ ch.client.fd ∈ n.wrdy_fds
  wakes : ∀ fd ∈ n.wrdy_fds, ∃ ch ∈ n.channels_list, ch.client.fd = fd

/-- The FIFO of an open connection and the last event that the application was told of agree. -/
structure Net.Told (n : Net) : Prop where
  fresh : ∀ c, n.created ≤ c → n.congestionEvents c = []
  alternates : ∀ c,
    Alternates ivyApplicationCongestion ivyApplicationDecongestion (n.congestionEvents c)
  told : ∀ ch ∈ n.channels_list,
    turn ivyApplicationCongestion ivyApplicationDecongestion (n.congestionEvents ch.id) =
      nextEvent ch.client

structure Net.Sound (n : Net) : Prop extends n.Wired, n.Told

def Net.Congested (n : Net) (c fd : ℕ) : Prop :=
  ∃ ch ∈ n.channels_list, ch.id = c ∧ ch.client.fd = fd ∧ ch.client.ifb.isSome

/-- What senders and callbacks do: a connection that is congested stays so. -/
structure Moves (n t : Net) : Prop where
  sound : t.Sound
  keeps : ∀ c fd, n.Congested c fd → t.Congested c fd

theorem Moves.refl {n : Net} (h : n.Sound) : Moves n n := ⟨h, fun _ _ => id⟩

theorem Moves.trans {n t u : Net} (hnt : Moves n t) (htu : Moves t u) : Moves n u :=
  ⟨htu.sound, fun c fd h => htu.keeps c fd (hnt.keeps c fd h)⟩

theorem congestionEvents_deliver (n : Net) (c c' : ℕ) (event : IvyApplicationEvent) :
    (n.deliver c event).congestionEvents c' = n.congestionEvents c' ++
      if c = c' ∧ (event = ivyApplicationCongestion ∨ event = ivyApplicationDecongestion) then
        [event] else [] := by
  unfold Net.deliver Net.congestionEvents
  rw [List.filter_append, List.map_append, List.filter_cons, List.filter_nil]
  split_ifs <;> simp_all

theorem congestionEvents_nextEvent (n : Net) (c c' : ℕ) (client : Client) :
    (n.deliver c (nextEvent client)).congestionEvents c' =
      n.congestionEvents c' ++ if c' = c then [nextEvent client] else [] := by
  have hcongestion : nextEvent client = ivyApplicationCongestion ∨
      nextEvent client = ivyApplicationDecongestion := by
    unfold nextEvent
    split_ifs <;> simp
  rw [congestionEvents_deliver]
  simp only [hcongestion, and_true, eq_comm (a := c)]

/-- The turn passes when the FIFO is made or dropped and the application is told so. -/
theorem turn_nextEvent {client client' : Client} (hflip : client'.ifb.isSome = !client.ifb.isSome)
    {events : List IvyApplicationEvent}
    (h : turn ivyApplicationCongestion ivyApplicationDecongestion events = nextEvent client) :
    turn ivyApplicationCongestion ivyApplicationDecongestion (events ++ [nextEvent client]) =
      nextEvent client' := by
  have hne : ivyApplicationCongestion ≠ ivyApplicationDecongestion := by decide
  have hswap := turn_swap hne events
  rw [turn_concat]
  unfold nextEvent at h ⊢
  rw [hflip]
  cases hs : client.ifb.isSome with
  | true => exact hswap.2 (by rw [h, hs]; rfl)
  | false => exact hswap.1 (by rw [h, hs]; rfl)

section Put
variable {n : Net} {c : ℕ} {s : Sock}

theorem mem_of_sock (h : n.sock c = some s) :
    (⟨c, s.client⟩ : Channel) ∈ n.channels_list ∧ s.wrdy_fds = n.wrdy_fds := by
  obtain ⟨ch, hfind, rfl⟩ := Option.map_eq_some_iff.mp h
  have hmem := Keyed.find_mem hfind
  have hid := Keyed.find_key hfind
  subst hid
  exact ⟨hmem, rfl⟩

theorem mem_put (h : n.sock c = some s) (t : Sock) {ch : Channel} :
    ch ∈ (n.put c t).channels_list ↔
      ch = ⟨c, t.client⟩ ∨ (ch ∈ n.channels_list ∧ ch.id ≠ c) := by
  have hself := (mem_of_sock h).1
  have hput : (n.put c t).channels_list = n.channels_list.map (Net.setClient c t.client) := rfl
  rw [hput, List.mem_map]
  constructor
  · rintro ⟨old, hold, rfl⟩
    by_cases hid : old.id = c
    · left
      simp [Net.setClient, hid]
    · right
      simp [Net.setClient, hid, hold]
  · rintro (rfl | ⟨hold, hid⟩)
    · exact ⟨_, hself, by simp [Net.setClient]⟩
    · exact ⟨ch, hold, by simp [Net.setClient, hid]⟩

section Wired
variable (hn : n.Wired)
include hn

theorem Net.Wired.sock {ch : Channel} (hmem : ch ∈ n.channels_list) :
    n.sock ch.id = some ⟨ch.client, n.wrdy_fds⟩ := by
  rw [Net.sock, (Keyed.find_eq_some hn.ids).mpr ⟨hmem, rfl⟩, Option.map_some]

theorem Net.Wired.client_eq (h : n.sock c = some s) {ch : Channel} (hmem : ch ∈ n.channels_list)
    (hid : ch.id = c) : ch.client = s.client := by
  have hsame := hn.sock hmem
  rw [hid, h] at hsame
  obtain rfl := Option.some.inj hsame
  rfl

/-- Descriptors tell connections apart. -/
theorem Net.Wired.eq_of_fd {ch ch' : Channel} (hch : ch ∈ n.channels_list)
    (hch' : ch' ∈ n.channels_list) (h : ch.client.fd = ch'.client.fd) : ch = ch' :=
  List.inj_on_of_nodup_map hn.fds hch hch' h

theorem put_fds (h : n.sock c = some s) {t : Sock} (hfd : t.client.fd = s.client.fd) :
    (n.put c t).channels_list.map (·.client.fd) = n.channels_list.map (·.client.fd) := by
  have hput : (n.put c t).channels_list = n.channels_list.map (Net.setClient c t.client) := rfl
  rw [hput, List.map_map]
  refine List.map_congr_left fun ch hch => ?_
  by_cases hid : ch.id = c
  · have hclient := hn.client_eq h hch hid
    simp [Net.setClient, hid, hclient, hfd]
  · simp [Net.setClient, hid]

/-- A local step of one connection disturbs no other. -/
theorem wired_put (h : n.sock c = some s) {t : Sock} (hlocal : Local s t) : (n.put c t).Wired := by
  obtain ⟨hself, hwrdy⟩ := mem_of_sock h
  refine ⟨?_, by rw [put_fds hn h hlocal.fd]; exact hn.fds, ?_, ?_, ?_⟩
  · refine Keyed.nodup_map (fun ch => ?_) hn.ids
    unfold Net.setClient
    split_ifs <;> rfl
  · intro ch hch
    rcases (mem_put h t).mp hch with rfl | ⟨hold, -⟩
    · have hbelow := hn.below _ hself
      exact hbelow
    · exact hn.below ch hold
  · intro ch hch
    have hset : (n.put c t).wrdy_fds = t.wrdy_fds := rfl
    rw [hset]
    rcases (mem_put h t).mp hch with rfl | ⟨hold, hid⟩
    · have hs : s.Waits := by
        rw [Sock.Waits, hwrdy]
        exact hn.waits _ hself
      exact hlocal.waits hs
    · have hfd : ch.client.fd ≠ s.client.fd := fun heq =>
        hid (congrArg Channel.id (hn.eq_of_fd hold hself heq))
      rw [hlocal.others _ hfd, hwrdy]
      exact hn.waits ch hold
  · intro fd hfd
    by_cases hown : fd = s.client.fd
    · exact ⟨⟨c, t.client⟩, (mem_put h t).mpr (.inl rfl), hlocal.fd.trans hown.symm⟩
    · have hold : fd ∈ n.wrdy_fds := by
        rw [← hwrdy]
        exact (hlocal.others fd hown).mp hfd
      obtain ⟨ch, hch, rfl⟩ := hn.wakes fd hold
      have hid : ch.id ≠ c := fun hid => hown (by rw [hn.client_eq h hch hid])
      exact ⟨ch, (mem_put h t).mpr (.inr ⟨hch, hid⟩), rfl⟩

end Wired
end Put

section Moves
variable {n : Net} (hn : n.Sound)
include hn

/-- Any other event leaves the congestion events as they are. -/
theorem deliver_moves (c : ℕ) (event : IvyApplicationEvent) (hc : event ≠ ivyApplicationCongestion)
    (hd : event ≠ ivyApplicationDecongestion) : Moves n (n.deliver c event) := by
  have hevents : ∀ c', (n.deliver c event).congestionEvents c' = n.congestionEvents c' := by
    intro c'
    rw [congestionEvents_deliver, if_neg (by simp [hc, hd]), List.append_nil]
  refine ⟨⟨⟨hn.ids, hn.fds, hn.below, hn.waits, hn.wakes⟩, ?_, ?_, ?_⟩, fun _ _ => id⟩
  · exact fun c' hc' => (hevents c').trans (hn.fresh c' hc')
  · intro c'
    rw [hevents]
    exact hn.alternates c'
  · intro ch hch
    rw [hevents]
    exact hn.told ch hch

variable {c : ℕ} {s t : Sock} (h : n.sock c = some s) (hlocal : Local s t)
include h hlocal

theorem congested_put {c' fd : ℕ} (hother : c' ≠ c ∨ t.client.ifb.isSome)
    (hcong : n.Congested c' fd) : (n.put c t).Congested c' fd := by
  obtain ⟨ch, hch, rfl, rfl, hsome⟩ := hcong
  by_cases hid : ch.id = c
  · have hclient := hn.client_eq h hch hid
    exact ⟨⟨c, t.client⟩, (mem_put h t).mpr (.inl rfl), hid.symm,
      hlocal.fd.trans (by rw [hclient]), hother.resolve_left (absurd hid)⟩
  · exact ⟨ch, (mem_put h t).mpr (.inr ⟨hch, hid⟩), rfl, rfl, hsome⟩

/-- A step that neither makes nor drops the FIFO needs no event. -/
theorem put_moves (hsame : t.client.ifb.isSome = s.client.ifb.isSome) : Moves n (n.put c t) := by
  obtain ⟨hself, -⟩ := mem_of_sock h
  refine ⟨⟨wired_put hn.toWired h hlocal, hn.fresh, hn.alternates, ?_⟩, ?_⟩
  · intro ch hch
    rcases (mem_put h t).mp hch with rfl | ⟨hold, -⟩
    · rw [nextEvent, hsame]
      exact hn.told _ hself
    · exact hn.told ch hold
  · intro c' fd hcong
    refine congested_put hn h hlocal ?_ hcong
    by_cases hid : c' = c
    · obtain ⟨ch, hch, rfl, -, hsome⟩ := hcong
      rw [hsame, ← hn.client_eq h hch hid]
      exact .inr hsome
    · exact .inl hid

/-- A step that makes or drops the FIFO is sound together with its event. -/
theorem put_deliver_sound (hflip : t.client.ifb.isSome = !s.client.ifb.isSome) :
    ((n.put c t).deliver c (nextEvent s.client)).Sound := by
  obtain ⟨hself, -⟩ := mem_of_sock h
  have hbelow : c < n.created := hn.below _ hself
  have hturn : turn ivyApplicationCongestion ivyApplicationDecongestion (n.congestionEvents c) =
    nextEvent s.client := hn.told _ hself
  have hwired := wired_put hn.toWired h hlocal
  have hevents : ∀ c', ((n.put c t).deliver c (nextEvent s.client)).congestionEvents c' =
      n.congestionEvents c' ++ if c' = c then [nextEvent s.client] else [] :=
    fun c' => congestionEvents_nextEvent (n.put c t) c c' s.client
  have hself' := (hevents c).trans (by rw [if_pos rfl])
  have hothers : ∀ c', c' ≠ c → ((n.put c t).deliver c (nextEvent s.client)).congestionEvents c' =
      n.congestionEvents c' := by
    intro c' hid
    rw [hevents, if_neg hid, List.append_nil]
  refine ⟨⟨hwired.ids, hwired.fds, hwired.below, hwired.waits, hwired.wakes⟩, ?_, ?_, ?_⟩
  · intro c' hc'
    have hle : n.created ≤ c' := hc'
    rw [hothers c' (by omega)]
    exact hn.fresh c' hle
  · intro c'
    by_cases hid : c' = c
    · rw [hid, hself', alternates_concat]
      exact ⟨hn.alternates c, hturn.symm⟩
    · rw [hothers c' hid]
      exact hn.alternates c'
  · intro ch hch
    rcases (mem_put h t).mp hch with rfl | ⟨hold, hid⟩
    · rw [hself']
      exact turn_nextEvent hflip hturn
    · rw [hothers _ hid]
      exact hn.told ch hold

omit h hlocal in
/-- A send that changes the connection to congestion is sound with its event, any other without. -/
theorem through_moves (send : Sock → SendResult → SendResult → Sock × SendState)
    (hsend : ∀ s r₁ r₂, Reports s (send s r₁ r₂).1 (send s r₁ r₂).2) (c : ℕ) :
    ((n.through c send).2 = .sendStateChangeToCongestion →
      Moves n ((n.through c send).1.deliver c ivyApplicationCongestion)) ∧
    ((n.through c send).2 ≠ .sendStateChangeToCongestion → Moves n (n.through c send).1) := by
  unfold Net.through
  cases h : n.sock c with
  | none => exact ⟨fun hchange => by simp at hchange, fun _ => .refl hn⟩
  | some s =>
    have hreports := hsend s n.results.head n.results.tail.head
    have hn' : { n with results := n.results.tail.tail : Net }.Sound :=
      ⟨⟨hn.ids, hn.fds, hn.below, hn.waits, hn.wakes⟩, ⟨hn.fresh, hn.alternates, hn.told⟩⟩
    have h' : { n with results := n.results.tail.tail : Net }.sock c = some s := h
    dsimp only
    constructor
    · intro hchange
      obtain ⟨hnone, hsome⟩ := hreports.change.mp hchange
      have hs : s.client.ifb.isSome = false := by simpa using hnone
      have hsound := put_deliver_sound hn' h' hreports.toLocal (by rw [hs, hsome]; rfl)
      rw [nextEvent, hs] at hsound
      exact ⟨hsound, fun c' fd => congested_put hn' h' hreports.toLocal (.inr hsome)⟩
    · intro hstill
      have hsame : (send s n.results.head n.results.tail.head).1.client.ifb.isSome =
          s.client.ifb.isSome := by
        have hkeeps := hreports.keeps
        have hnot := mt hreports.change.mpr hstill
        revert hkeeps hnot
        cases s.client.ifb <;> cases (send s n.results.head n.results.tail.head).1.client.ifb <;> simp
      have hmoves := put_moves hn' h' hreports.toLocal hsame
      exact ⟨hmoves.sound, hmoves.keeps⟩

end Moves

variable {Code User : Type*}

/-- A callback that leaves the connections sound. -/
def Callback.Safe (callback : Callback Code User) : Prop :=
  ∀ a c event, a.net.Sound → Moves a.net (callback a c event).net

def SoundMoves (a b : Agent Code User) : Prop := a.net.Sound → Moves a.net b.net

theorem SoundMoves.refl (a : Agent Code User) : SoundMoves a a := fun h => .refl h

theorem SoundMoves.trans (a b c : Agent Code User) (hab : SoundMoves a b) (hbc : SoundMoves b c) :
    SoundMoves a c := fun h => (hab h).trans (hbc (hab h).sound)

section Senders
variable {callback : Callback Code User} (hcallback : callback.Safe)
include hcallback

theorem applicationCallback_moves (a : Agent Code User) {c : ℕ} {event : IvyApplicationEvent}
    (h : (a.net.deliver c event).Sound) :
    Moves (a.net.deliver c event) (applicationCallback callback a c event).net :=
  hcallback { a with net := a.net.deliver c event } c event h

theorem reportState_moves (a : Agent Code User) {n : Net} {c : ℕ} {state : SendState}
    (hchange : state = .sendStateChangeToCongestion → Moves n (a.net.deliver c ivyApplicationCongestion))
    (hstill : state ≠ .sendStateChangeToCongestion → Moves n a.net) :
    Moves n (reportState callback a c state).net := by
  cases state with
  | sendStateChangeToCongestion =>
    have htold := hchange rfl
    exact htold.trans (applicationCallback_moves hcallback a htold.sound)
  | sendStateFifoFull =>
    have hmoves := hstill (by decide)
    have htold := deliver_moves hmoves.sound c ivyApplicationFifoFull (by decide) (by decide)
    exact (hmoves.trans htold).trans (applicationCallback_moves hcallback a htold.sound)
  | _ => exact hstill (by decide)

theorem msgSendTo_moves (a : Agent Code User) (h : a.net.Sound) (c : ℕ) (msgtype : MsgType)
    (id : ℤ) (message : Text) :
    Moves a.net (msgSendTo callback a c msgtype id message).1.net := by
  have hsend := through_moves h
    (fun s result _ => socketSendRaw s (msgFrame msgtype id message) result)
    (fun s r₁ _ => bufferizedSocketSendRaw_reports s _ r₁) c
  exact reportState_moves hcallback _ hsend.1 hsend.2

theorem callClient_moves (a : Agent Code User) (h : a.net.Sound) (clnt : Subscriber) :
    Moves a.net (callClient callback a clnt).1.net := by
  have hsend := through_moves h
    (fun s result₁ result₂ =>
      socketSendRawWithId s (bufferId .msg clnt.id) a.bufferArg.contents result₁ result₂)
    (fun s r₁ r₂ => socketSendRawWithId_reports s _ _ r₁ r₂) clnt.client
  exact reportState_moves hcallback _ hsend.1 hsend.2

theorem callClients_moves (a : Agent Code User) (h : a.net.Sound) (clients : List Subscriber) :
    Moves a.net (callClients callback a clients).agent.net :=
  callClients_rule (R := SoundMoves) SoundMoves.refl SoundMoves.trans
    (fun a clnt h => callClient_moves hcallback a h clnt) a clients h

theorem regexpCall_moves (exec : Exec Code) (a : Agent Code User) (h : a.net.Sound)
    (msg : MsgSndDict Code) (message : Text) :
    Moves a.net (regexpCall exec callback a msg message).agent.net := by
  unfold regexpCall
  cases msg.binding.bind fun code => exec code message with
  | none => exact .refl h
  | some captures =>
    exact callClients_moves hcallback { a with
      sendings := a.sendings ++ [.regexpCall msg message]
      bufferArg := printArgs a.bufferArg captures } h _

theorem callEntries_moves (exec : Exec Code) (a : Agent Code User) (h : a.net.Sound)
    (entries : List (MsgSndDict Code)) :
    Moves a.net (callEntries exec callback a entries).agent.net := by
  induction entries generalizing a with
  | nil => exact .refl h
  | cons e rest ih =>
    have hfirst := regexpCall_moves hcallback exec a h e a.buffer.string
    exact hfirst.trans (ih _ hfirst.sound)

theorem ivySendMsg_moves (exec : Exec Code) (debug_binary_msg : Bool) (a : Agent Code User)
    (h : a.net.Sound) (m : Format) :
    Moves a.net (ivySendMsg exec callback debug_binary_msg a m).agent.net := by
  unfold ivySendMsg
  split_ifs
  · exact .refl h
  · dsimp only
    split_ifs
    · exact .refl h
    · exact callEntries_moves hcallback exec (printMessage a m) h _

theorem callClientUnique_moves (a : Agent Code User) (h : a.net.Sound) (clnt : Subscriber) :
    Moves a.net (callClientUnique callback a clnt).net := by
  have hsend := through_moves h
    (fun s result₁ result₂ =>
      socketSendRawWithId s (bufferId .msg clnt.id) a.bufferArgUnique.contents result₁ result₂)
    (fun s r₁ r₂ => socketSendRawWithId_reports s _ _ r₁ r₂) clnt.client
  unfold callClientUnique
  dsimp only
  split_ifs with hchange
  · have htold := hsend.1 hchange
    exact htold.trans (applicationCallback_moves hcallback { a with net := _ } htold.sound)
  · exact hsend.2 hchange

theorem clientCall_moves (exec : Exec Code) (a : Agent Code User) (h : a.net.Sound) (clnt : ℕ)
    (message : Text) : Moves a.net (clientCall exec callback a clnt message).1.net :=
  clientCall_rule (R := SoundMoves) SoundMoves.refl SoundMoves.trans
    (fun a clnt h => callClientUnique_moves hcallback a h clnt) (fun _ _ h => .refl h)
    exec a clnt message h

end Senders

theorem socketClose_moves {n : Net} (h : n.Sound) (c : ℕ) : Moves n (n.socketClose c) := by
  unfold Net.socketClose
  cases hs : n.sock c with
  | none => exact .refl h
  | some s => exact put_moves h hs (socketClose_local s) rfl

theorem perform_moves {callback : Callback Code User} (hcallback : callback.Safe)
    (exec : Exec Code) (debug_binary_msg : Bool) (a : Agent Code User) (h : a.net.Sound) (x : Action) :
    Moves a.net (perform exec callback debug_binary_msg a x).net := by
  cases x with
  | ivySendMsg m => exact ivySendMsg_moves hcallback exec debug_binary_msg a h m
  | clientCall clnt message => exact clientCall_moves hcallback exec a h clnt message
  | msgSendTo clnt msgtype id message => exact msgSendTo_moves hcallback a h clnt msgtype id message
  | socketClose clnt => exact socketClose_moves h clnt

/-- However deep an application nests its sends, it leaves the connections sound. -/
theorem callbackOf_safe (exec : Exec Code) (debug_binary_msg : Bool) (app : Application User)
    (depth : ℕ) : (callbackOf exec debug_binary_msg app depth : Callback Code User).Safe := by
  induction depth with
  | zero => exact fun _ _ _ h => .refl h
  | succ depth ih =>
    intro a c event h
    refine List.foldlRecOn (motive := fun b : Agent Code User => Moves a.net b.net) _ _ (.refl h) ?_
    intro b hb x _
    exact hb.trans (perform_moves ih exec debug_binary_msg b hb.sound x)

end Ivy.Bus
