import Ivy.Bus.Congestion
import Ivy.Lib.Machine

/-! `IvyMainLoop`: closed channels are deleted, `select` waits, and the handlers run. -/
namespace Ivy.Bus
open Fifo Registry Socket IvyApplicationEvent

variable {Code User : Type*}

section
variable (callback : Callback Code User)

/-- `DeleteSocket` tells the application and drops the subscriptions before the channel goes. -/
def ivyChannelDelete (a : Agent Code User) (c : ℕ) : Agent Code User :=
  let a := applicationCallback callback a c ivyApplicationDisconnected
  { a with
    net := a.net.remove c
    messSndByRegexp := delOneClientFromDictionary a.messSndByRegexp c }

def channelDefferedDelete : Agent Code User → List Channel → Agent Code User
  | a, [] => a
  | a, channel :: next =>
    let a :=
      if (a.net.sock channel.id).any (·.client.tobedeleted) then ivyChannelDelete callback a channel.id
      else a
    channelDefferedDelete a next

/-- `none` is the use of a null `ifb`. -/
def handleCongestionWrite (a : Agent Code User) (c : ℕ) (results : List SendResult) :
    Option (Agent Code User) :=
  match a.net.sock c with
  | none => some a
  | some s =>
    (Socket.handleCongestionWrite s results).map fun r =>
      let a := { a with net := a.net.put c r.1 }
      if r.2 then applicationCallback callback a c ivyApplicationDecongestion else a

/-- `results` is what `send()` does for the FIFO of each client. -/
def ivyChannelHandleWrite (current : Finset ℕ) (results : ℕ → List SendResult) :
    Agent Code User → List Channel → Option (Agent Code User)
  | a, [] => some a
  | a, channel :: next =>
    if channel.client.fd ∈ current then
      (handleCongestionWrite callback a channel.id (results channel.id)).bind fun a =>
        ivyChannelHandleWrite current results a next
    else ivyChannelHandleWrite current results a next

end

/-- An agent in its main loop; `wrset` is what `select` has reported as writable. -/
structure MainLoop (Code User : Type*) where
  agent : Agent Code User
  wrset : Finset ℕ

/-- What the main loop and the handlers that it runs do. Timers, hooks and read handlers act
as the application does; the lines of the peers also change the dictionary. -/
inductive LoopEvent (Code : Type*)
  | connect (fd : ℕ)
  | act (x : Action)
  | subscriptions (d : Dictionary Code)
  | defferedDelete
  | select (ready : Finset ℕ)
  | handleWrite (results : ℕ → List SendResult)

def loopStep (exec : Exec Code) (debug_binary_msg : Bool) (callback : Callback Code User)
    (s : MainLoop Code User) : LoopEvent Code → Option (MainLoop Code User)
  | .connect fd => some { s with agent := { s.agent with net := s.agent.net.ivyChannelAdd fd } }
  | .act x => some { s with agent := perform exec callback debug_binary_msg s.agent x }
  | .subscriptions d => some { s with agent := { s.agent with messSndByRegexp := d } }
  | .defferedDelete =>
    some ⟨channelDefferedDelete callback s.agent s.agent.net.channels_list, ∅⟩
  | .select ready => some { s with wrset := s.agent.net.wrdy_fds ∩ ready }
  | .handleWrite results =>
    (ivyChannelHandleWrite callback s.wrset results s.agent s.agent.net.channels_list).map
      fun a => ⟨a, ∅⟩

/-- The kernel gives a new connection a descriptor that is not in use. -/
def FreshDescriptor (s : MainLoop Code User) : LoopEvent Code → Prop
  | .connect fd => fd ∉ s.agent.net.channels_list.map (·.client.fd)
  | _ => True

instance (s : MainLoop Code User) : ∀ e, Decidable (FreshDescriptor s e)
  | .connect fd =>
    inferInstanceAs (Decidable (fd ∉ s.agent.net.channels_list.map fun ch => ch.client.fd))
  | .act _ => .isTrue trivial
  | .subscriptions _ => .isTrue trivial
  | .defferedDelete => .isTrue trivial
  | .select _ => .isTrue trivial
  | .handleWrite _ => .isTrue trivial

/-- No queued byte waits without a wake-up, no wake-up comes without a FIFO, and the application
is told of congestion and decongestion in turn. -/
structure CongestionSound (n : Net) : Prop where
  waits : ∀ ch ∈ n.channels_list, ch.client.ifb ≠ none ↔ ch.client.fd ∈ n.wrdy_fds
  wakes : ∀ fd ∈ n.wrdy_fds, ∃ ch ∈ n.channels_list, ch.client.fd = fd
  alternates : ∀ c,
    Alternates ivyApplicationCongestion ivyApplicationDecongestion (n.congestionEvents c)

theorem Net.Sound.congestionSound {n : Net} (h : n.Sound) : CongestionSound n where
  waits ch hch := by
    rw [← h.waits ch hch]
    cases ch.client.ifb <;> simp
  wakes := h.wakes
  alternates := h.alternates

/-- What `select` has reported is still congested. -/
structure MainLoop.Sound (s : MainLoop Code User) : Prop where
  net : s.agent.net.Sound
  writable : ∀ fd ∈ s.wrset, ∃ c, s.agent.net.Congested c fd

section Net
variable {n : Net} (h : n.Sound)
include h

theorem ivyChannelAdd_sound {fd : ℕ} (hfd : fd ∉ n.channels_list.map (·.client.fd)) :
    (n.ivyChannelAdd fd).Sound := by
  have hnew : n.congestionEvents n.created = [] := h.fresh _ le_rfl
  have hids : n.created ∉ n.channels_list.map (·.id) := by
    intro hmem
    obtain ⟨ch, hch, hid⟩ := List.mem_map.mp hmem
    exact absurd hid (Nat.ne_of_lt (h.below ch hch))
  have hidle : fd ∉ n.wrdy_fds := by
    intro hwait
    obtain ⟨ch, hch, hchfd⟩ := h.wakes fd hwait
    exact hfd (List.mem_map.mpr ⟨ch, hch, hchfd⟩)
  refine ⟨⟨List.nodup_cons.mpr ⟨hids, h.ids⟩, List.nodup_cons.mpr ⟨hfd, h.fds⟩, ?_, ?_, ?_⟩,
    fun c hc => h.fresh c (Nat.le_of_succ_le hc), h.alternates, ?_⟩
  · intro ch hch
    rcases List.mem_cons.mp hch with rfl | hold
    · exact Nat.lt_succ_self _
    · exact Nat.lt_succ_of_lt (h.below ch hold)
  · intro ch hch
    rcases List.mem_cons.mp hch with rfl | hold
    · have hwaits : (⟨(connected fd).client, n.wrdy_fds⟩ : Sock).Waits := by
        simpa [Sock.Waits, connected] using hidle
      exact hwaits
    · exact h.waits ch hold
  · intro fd' hfd'
    obtain ⟨ch, hch, heq⟩ := h.wakes fd' hfd'
    exact ⟨ch, List.mem_cons_of_mem _ hch, heq⟩
  · intro ch hch
    rcases List.mem_cons.mp hch with rfl | hold
    · have hevents : (n.ivyChannelAdd fd).congestionEvents n.created = [] := hnew
      rw [hevents]
      rfl
    · exact h.told ch hold

theorem remove_sound (c : ℕ) : (n.remove c).Sound := by
  unfold Net.remove
  cases hs : n.sock c with
  | none => exact h
  | some s =>
    have hsub : (n.channels_list.filter (·.id ≠ c)).Sublist n.channels_list := List.filter_sublist
    have hother : ∀ ch ∈ n.channels_list.filter (·.id ≠ c),
        ch ∈ n.channels_list ∧ ch.client.fd ≠ s.client.fd := by
      intro ch hch
      obtain ⟨hmem, hid⟩ := List.mem_filter.mp hch
      refine ⟨hmem, fun heq => ?_⟩
      have hsame := h.eq_of_fd hmem (mem_of_sock hs).1 heq
      rw [hsame] at hid
      simp at hid
    refine ⟨⟨h.ids.sublist (hsub.map _), h.fds.sublist (hsub.map _), ?_, ?_, ?_⟩, h.fresh,
      h.alternates, fun ch hch => h.told ch (hother ch hch).1⟩
    · exact fun ch hch => h.below ch (hother ch hch).1
    · intro ch hch
      obtain ⟨hmem, hfd⟩ := hother ch hch
      rw [Finset.mem_erase, h.waits ch hmem]
      exact ⟨fun hw => ⟨hfd, hw⟩, And.right⟩
    · intro fd hfd
      obtain ⟨hne, hw⟩ := Finset.mem_erase.mp hfd
      obtain ⟨ch, hch, rfl⟩ := h.wakes fd hw
      have hid : ch.id ≠ c := fun hid => hne (by rw [h.client_eq hs hch hid])
      exact ⟨ch, List.mem_filter.mpr ⟨hch, by simpa using hid⟩, rfl⟩

end Net

section Loop
variable {callback : Callback Code User} (hcallback : callback.Safe)
include hcallback

theorem channelDefferedDelete_sound (a : Agent Code User) (h : a.net.Sound) (channels : List Channel) :
    (channelDefferedDelete callback a channels).net.Sound := by
  induction channels generalizing a with
  | nil => exact h
  | cons channel next ih =>
    refine ih _ ?_
    split_ifs
    · have htold := (deliver_moves h channel.id ivyApplicationDisconnected
        (by decide) (by decide)).sound
      exact remove_sound (applicationCallback_moves hcallback a htold).sound channel.id
    · exact h

/-- A congested connection can be drained, and the others stay as congested as they are. -/
theorem handleCongestionWrite_sound (a : Agent Code User) (h : a.net.Sound) {c fd : ℕ}
    (hcong : a.net.Congested c fd) (results : List SendResult) :
    ∃ b, handleCongestionWrite callback a c results = some b ∧ b.net.Sound ∧
      ∀ c' fd', c' ≠ c → a.net.Congested c' fd' → b.net.Congested c' fd' := by
  obtain ⟨ch, hch, rfl, -, hsome⟩ := hcong
  have hs := h.sock hch
  obtain ⟨t, decongested, hrun, hlocal, hdrop⟩ :=
    handleCongestionWrite_reports (s := ⟨ch.client, a.net.wrdy_fds⟩) hsome results
  have hhandle : handleCongestionWrite callback a ch.id results = some (if decongested = true then
      applicationCallback callback { a with net := a.net.put ch.id t } ch.id ivyApplicationDecongestion
      else { a with net := a.net.put ch.id t }) := by
    simp only [handleCongestionWrite, hs, hrun, Option.map_some]
  refine ⟨_, hhandle, ?_⟩
  cases decongested with
  | false =>
    have hstill : t.client.ifb.isSome := by
      cases hifb : t.client.ifb <;> simp_all
    have hmoves := put_moves h hs hlocal (by rw [hstill, hsome])
    exact ⟨hmoves.sound, fun c' fd' _ => hmoves.keeps c' fd'⟩
  | true =>
    have hnone : t.client.ifb.isSome = false := by
      have hifb := hdrop.mp rfl
      simpa using hifb
    have htold := put_deliver_sound h hs hlocal (by rw [hnone, hsome]; rfl)
    rw [nextEvent, if_pos hsome] at htold
    have hcalled := applicationCallback_moves hcallback { a with net := a.net.put ch.id t } htold
    exact ⟨hcalled.sound, fun c' fd' hid hcong =>
      hcalled.keeps c' fd' (congested_put h hs hlocal (.inl hid) hcong)⟩

/-- Every channel of the list is visited once, so each FIFO is there when its turn comes. -/
theorem ivyChannelHandleWrite_sound (current : Finset ℕ) (results : ℕ → List SendResult)
    (a : Agent Code User) (h : a.net.Sound) (channels : List Channel)
    (hids : (channels.map (·.id)).Nodup)
    (hcong : ∀ ch ∈ channels, ch.client.fd ∈ current → a.net.Congested ch.id ch.client.fd) :
    ∃ b, ivyChannelHandleWrite callback current results a channels = some b ∧ b.net.Sound := by
  induction channels generalizing a with
  | nil => exact ⟨a, rfl, h⟩
  | cons channel next ih =>
    obtain ⟨hid, hids⟩ := List.nodup_cons.mp hids
    unfold ivyChannelHandleWrite
    split_ifs with hready
    · obtain ⟨b, hb, hsound, hothers⟩ := handleCongestionWrite_sound hcallback a h
        (hcong channel (by simp) hready) (results channel.id)
      rw [hb, Option.bind_some]
      refine ih b hsound hids fun ch hch hchfd => hothers _ _ ?_ (hcong ch (by simp [hch]) hchfd)
      exact fun heq => hid (List.mem_map.mpr ⟨ch, hch, heq⟩)
    · exact ih a h hids fun ch hch => hcong ch (by simp [hch])

theorem loopStep_sound (exec : Exec Code) (debug_binary_msg : Bool) (s : MainLoop Code User)
    (e : LoopEvent Code) (h : s.Sound) (hfresh : FreshDescriptor s e) :
    ∃ t, loopStep exec debug_binary_msg callback s e = some t ∧ t.Sound := by
  have hmoves : ∀ a : Agent Code User, Moves s.agent.net a.net →
      MainLoop.Sound { s with agent := a } := by
    intro a ha
    refine ⟨ha.sound, fun fd hfd => ?_⟩
    obtain ⟨c, hc⟩ := h.writable fd hfd
    exact ⟨c, ha.keeps c fd hc⟩
  cases e with
  | connect fd =>
    refine ⟨_, rfl, ivyChannelAdd_sound h.net hfresh, fun fd' hfd' => ?_⟩
    obtain ⟨c, ch, hch, hcong⟩ := h.writable fd' hfd'
    exact ⟨c, ch, List.mem_cons_of_mem _ hch, hcong⟩
  | act x => exact ⟨_, rfl, hmoves _ (perform_moves hcallback exec debug_binary_msg s.agent h.net x)⟩
  | subscriptions d => exact ⟨_, rfl, hmoves _ (.refl h.net)⟩
  | defferedDelete =>
    exact ⟨_, rfl, channelDefferedDelete_sound hcallback s.agent h.net _, by simp⟩
  | select ready =>
    refine ⟨_, rfl, h.net, fun fd hfd => ?_⟩
    have hwait := (Finset.mem_inter.mp hfd).1
    obtain ⟨ch, hch, rfl⟩ := h.net.wakes fd hwait
    exact ⟨ch.id, ch, hch, rfl, rfl, (h.net.waits ch hch).mpr hwait⟩
  | handleWrite results =>
    have hcong : ∀ ch ∈ s.agent.net.channels_list, ch.client.fd ∈ s.wrset →
        s.agent.net.Congested ch.id ch.client.fd := by
      intro ch hch hfd
      obtain ⟨c, ch', hch', rfl, hsame, hsome⟩ := h.writable _ hfd
      obtain rfl := h.net.eq_of_fd hch' hch hsame
      exact ⟨ch', hch, rfl, rfl, hsome⟩
    obtain ⟨b, hb, hsound⟩ := ivyChannelHandleWrite_sound hcallback s.wrset results s.agent h.net
      _ h.net.ids hcong
    exact ⟨⟨b, ∅⟩, by rw [loopStep, hb]; rfl, hsound, by simp⟩

end Loop

theorem initial_sound (results : Stream' SendResult) : (Net.initial results).Sound := by
  refine ⟨⟨?_, ?_, ?_, ?_, ?_⟩, ?_, ?_, ?_⟩ <;> simp [Net.initial, Net.congestionEvents, Alternates]

/-- Congestion is managed soundly in every run of the main loop, which never drains a FIFO that
is not there. -/
theorem congestion_sound (exec : Exec Code) (debug_binary_msg : Bool) (app : Application User)
    (depth : ℕ) (a : Agent Code User) {results : Stream' SendResult} (ha : a.net = .initial results)
    (events : List (LoopEvent Code))
    (hfresh : Machine.Guarded (loopStep exec debug_binary_msg
      (callbackOf exec debug_binary_msg app depth)) FreshDescriptor ⟨a, ∅⟩ events) :
    ∃ s, Machine.run (loopStep exec debug_binary_msg (callbackOf exec debug_binary_msg app depth))
      ⟨a, ∅⟩ events = some s ∧ CongestionSound s.agent.net := by
  have h₀ : (⟨a, ∅⟩ : MainLoop Code User).Sound := ⟨by rw [ha]; exact initial_sound results, by simp⟩
  have hcallback : (callbackOf exec debug_binary_msg app depth : Callback Code User).Safe :=
    callbackOf_safe exec debug_binary_msg app depth
  obtain ⟨s, hrun, hsound⟩ :=
    Machine.run_invariant h₀ (loopStep_sound hcallback exec debug_binary_msg) hfresh
  exact ⟨s, hrun, hsound.net.congestionSound⟩

/-- The application answers every event of a connection with a message to it. -/
theorem congestion_sound_example :
    let app : Application Unit := fun _ c _ => ((), [.msgSendTo c .directMsg 1 (ascii "hi")])
    ∃ s : MainLoop Unit Unit, Machine.run
      (loopStep (fun _ _ => none) false (callbackOf (fun _ _ => none) false app 3))
      ⟨⟨.initial (Stream'.const .wouldBlock), .empty, emptyBuffer, emptyBuffer, emptyBuffer, (), []⟩, ∅⟩
      [.connect 4, .connect 5, .act (.msgSendTo 0 .ping 1 []), .select {4, 5},
        .handleWrite fun _ => [.accepted 64], .act (.socketClose 0), .defferedDelete, .connect 4] =
      some s ∧ CongestionSound s.agent.net := by
  intro app
  refine congestion_sound _ _ _ _ _ rfl _ ?_
  decide +kernel

end Ivy.Bus
