import Ivy.Agent.Effects
import Ivy.Loop.Handler

/-! What the handlers do to the connections, and the rule by which a property of the agent holds in
every run. -/
namespace Ivy.Agent
open Socket Registry

variable {Code User : Type*}

/-- Nothing changes that a property of the connections is about. -/
structure SameCore (w w' : World Code User) : Prop where
  sock : ∀ c, w'.user.sock c = w.user.sock c
  freed : ∀ c, w'.user.memory c = none ↔ w.user.memory c = none
  registry : w'.user.registry = w.user.registry
  records : w'.user.records = w.user.records
  brk : w'.channels.brk = w.channels.brk
  log : ∃ extra, w'.user.log = w.user.log ++ extra ∧ ∀ e ∈ extra, e.plain = true

/-- A new connection that `SendService` sets up. -/
structure Connects (addresses : Addresses) (w w' : World Code User) : Prop where
  memory : w'.user.memory =
    Function.update w.user.memory w.channels.brk (some (.client ⟨addresses, true⟩))
  records : w'.user.records = Function.update w.user.records w.channels.brk ⟨0, 1, false⟩
  clients : ∀ c, w'.user.registry.allClients.find c = none ↔
    c ≠ w.channels.brk ∧ w.user.registry.allClients.find c = none
  dictionary : w'.user.registry.messSndByRegexp = w.user.registry.messSndByRegexp
  channels : ∃ fd, w'.channels = w.channels.ivyChannelAdd fd () true
  log : ∃ extra, w'.user.log = w.user.log ++ extra ∧ ∀ e ∈ extra, e.plain = true

/-- A new connection that `ClientCreate` rejects. -/
structure Rejects (addresses : Addresses) (w w' : World Code User) : Prop where
  memory : w'.user.memory =
    Function.update w.user.memory w.channels.brk (some (.client ⟨addresses, false⟩))
  records : w'.user.records = w.user.records
  registry : w'.user.registry = w.user.registry
  channels : ∃ fd, w'.channels =
    (w.channels.ivyChannelAdd fd () true).ivyChannelRemove w.channels.brk
  log : w'.user.log = w.user.log ++ [.rejected w.channels.brk]

/-- A socket that is deleted. -/
structure Deletes (c : ℕ) (w w' : World Code User) : Prop where
  alive : w.user.memory c ≠ none
  memory : w'.user.memory = Function.update w.user.memory c none
  records : w'.user.records = w.user.records
  clients : ∀ c', w'.user.registry.allClients.find c' = none ↔
    (c' = c ∧ w.user.sock c ≠ none) ∨ w.user.registry.allClients.find c' = none
  keeps : ∀ c' id r, c' ≠ c → ⟨c', id⟩ ∈ w.user.registry.messSndByRegexp.subs r →
    ⟨c', id⟩ ∈ w'.user.registry.messSndByRegexp.subs r
  channels : w'.channels = w.channels
  log : w'.user.log = w.user.log ++ (w.user.sock c).elim [] (fun sock => [.applicationCallback c
    (if sock.data then some c else none) .ivyApplicationDisconnected]) ++ [.deleteSocket c]

theorem find_of_connect {compile : Compile Code} {s t : Registry.State Code} {c : ℕ}
    (ht : step compile s (.connect c) = some t) :
    ∃ h : s.allClients.find c = none, t = { s with allClients := s.allClients.add c h } := by
  simp only [step] at ht
  split at ht
  · rename_i h
    exact ⟨h, (Option.some.inj ht).symm⟩
  · simp at ht

theorem readyCalls_one (a : Setup Code User) (c : ℕ) (dict : Dictionary Code) :
    readyCalls a c 1 dict = [] := by
  unfold readyCalls
  cases a.ready_message <;> rfl

theorem Connects.brk {addresses : Addresses} {w w' : World Code User} (h : Connects addresses w w') :
    w'.channels.brk = w.channels.brk + 1 := by
  obtain ⟨fd, hchannels⟩ := h.channels
  rw [hchannels]
  rfl

theorem Rejects.brk {addresses : Addresses} {w w' : World Code User} (h : Rejects addresses w w') :
    w'.channels.brk = w.channels.brk + 1 := by
  obtain ⟨fd, hchannels⟩ := h.channels
  rw [hchannels]
  rfl

section Connections
variable {a : Setup Code User} {fd : ℕ} {addresses : Addresses} {w w' : World Code User}

theorem sock_newClient : (newClient fd addresses w).user.sock w.channels.brk = some ⟨addresses, false⟩ := by
  simp [Data.sock, newClient, Data.setMemory]

theorem serve_connects (hw : serve a w.channels.brk (newClient fd addresses w) = some w') :
    Connects addresses w w' := by
  obtain ⟨d, hd, rfl⟩ := Option.map_eq_some_iff.mp hw
  obtain ⟨reg, hreg, hcount⟩ := Option.bind_eq_some_iff.mp hd
  obtain ⟨hnone, rfl⟩ := find_of_connect hreg
  obtain ⟨sent, htold, hsent⟩ := chats_handshake a w.channels.brk
    { (newClient fd addresses w).user.setRecord w.channels.brk ⟨0, 0, false⟩ with
      registry := { (newClient fd addresses w).user.registry with
        allClients := (newClient fd addresses w).user.registry.allClients.add w.channels.brk hnone }
      ping_timestamp := Function.update (newClient fd addresses w).user.ping_timestamp w.channels.brk ⟨.clear, 0⟩ }
  have hcounted := countReady_counted hcount
  have hrecords : d.records = Function.update w.user.records w.channels.brk ⟨0, 1, false⟩ := by
    rw [hcounted.records, htold.records]
    simp [Data.setRecord, newClient, Data.setMemory]
  have hmemory : d.memory =
      Function.update w.user.memory w.channels.brk (some (.client ⟨addresses, false⟩)) :=
    hcounted.memory.trans htold.memory
  have hregistry : d.registry = _ := hcounted.registry.trans htold.registry
  obtain ⟨extra, hlog, hplain⟩ := hcounted.log
  have hset : socketSetData w.channels.brk d =
      d.setMemory w.channels.brk (some (.client ⟨addresses, true⟩)) := by
    simp [socketSetData, Data.sock, hmemory]
  rw [hset]
  refine ⟨?_, hrecords, fun c => ?_, ?_, ⟨fd, rfl⟩, sent ++ extra, ?_, List.forall_mem_append.mpr ⟨hsent, hplain⟩⟩
  · change Function.update d.memory w.channels.brk _ = _
    rw [hmemory, Function.update_idem]
  · change d.registry.allClients.find c = none ↔ _
    rw [hregistry, Clients.find_add]
    split_ifs with hc
    · simp [hc]
    · simp [Ne.symm hc, newClient, Data.setMemory]
  · change d.registry.messSndByRegexp = _
    rw [hregistry]
    rfl
  · have hone : readyCalls a w.channels.brk 1 = fun _ => [] := funext (readyCalls_one a _)
    refine hlog.trans ?_
    rw [htold.records, htold.log]
    simp [Data.setRecord, newClient, Data.setMemory, hone]

theorem clientCreate_cases (hw : clientCreate a w.channels.brk (newClient fd addresses w) = some w') :
    Connects addresses w w' ∨ Rejects addresses w w' := by
  unfold clientCreate at hw
  rw [sock_newClient, Option.bind_some] at hw
  split at hw
  · exact .inl (serve_connects hw)
  · obtain rfl := Option.some.inj hw
    exact .inr ⟨rfl, rfl, rfl, ⟨fd, rfl⟩, rfl⟩

theorem deleteSocket_deletes {c : ℕ} (hw : deleteSocket a c w = some w') : Deletes c w w' := by
  unfold deleteSocket at hw
  dsimp only at hw
  have hnotClient (hsock : w.user.sock c = none) (halive : w.user.memory c ≠ none)
      (hw' : w' = { w with user := (w.user.record (.deleteSocket c)).setMemory c none }) : Deletes c w w' := by
    subst hw'
    refine ⟨halive, rfl, rfl, fun c' => ?_, fun _ _ _ _ hmem => hmem, rfl, ?_⟩
    · simp [hsock, Data.setMemory, Data.record]
    · simp [hsock, Data.setMemory, Data.record]
  split at hw
  · simp at hw
  · rename_i sock hmem
    have hsock : w.user.sock c = some sock := by rw [Data.sock, hmem]
    obtain ⟨d, hd, rfl⟩ := Option.map_eq_some_iff.mp hw
    obtain ⟨reg, hreg, rfl⟩ := Option.map_eq_some_iff.mp hd
    obtain ⟨hclients, hkeeps⟩ := delOneClient_done hreg
    refine ⟨by simp [hmem], rfl, rfl, fun c' => ?_, hkeeps, rfl, ?_⟩
    · have hgone : reg.allClients.find c' = none ↔ c' = c ∨ w.user.registry.allClients.find c' = none :=
        hclients c'
      exact hgone.trans (by simp [hsock])
    · simp [hsock, Data.setMemory, Data.record, Data.callback]
  · rename_i hmem
    exact hnotClient (by rw [Data.sock, hmem]) (by simp [hmem]) (Option.some.inj hw).symm
  · rename_i hmem
    exact hnotClient (by rw [Data.sock, hmem]) (by simp [hmem]) (Option.some.inj hw).symm

end Connections

/-- The lines that a read completes. -/
def completed (c : ℕ) (received : Received) (d : Data Code User) : List Text :=
  match received with
  | .error => []
  | .bytes data => if data = [] then [] else (cut newline (d.held c ++ data)).1

/-- These are the lines that the receive buffer in memory gives, and it holds the rest. -/
theorem completed_eq_delivered {cb : Interpretation} (hcb : cb.WritesInside) {r : Receiver} (hr : r.Fits)
    {data : List UInt8} (hpos : 0 < data.length) (hle : data.length ≤ nbToRead r) {c : ℕ}
    {d : Data Code User} (hheld : d.held c = r.held) :
    (Socket.handleSocket cb r (.bytes data)).delivered = r.delivered ++ completed c (.bytes data) d ∧
      (Socket.handleSocket cb r (.bytes data)).held = (cut newline (d.held c ++ data)).2 := by
  obtain ⟨-, ls, hdelivered, hlines⟩ := handleSocket_spec hcb hr hpos hle
  obtain ⟨hls, htail⟩ := hlines.unique (lines_cut newline (r.held ++ data))
  have hne : data ≠ [] := List.ne_nil_of_length_pos hpos
  rw [completed, if_neg hne, hheld, hdelivered, hls, htail]
  exact ⟨rfl, rfl⟩

def OnLines (a : Setup Code User) (P : ℕ → World Code User → Text → Prop) (w : World Code User) :
    Loop.Handler Unit Env → Prop
  | .read env ch => w.user.sock ch.id ≠ none →
      Machine.Guarded (receive a ch.id) (P ch.id) w (completed ch.id env.received w.user)
  | _ => True

def OnDelete (D : World Code User → ℕ → Prop) (w : World Code User) : Loop.Handler Unit Env → Prop
  | .delete _ ch => D w ch.id
  | _ => True

instance (a : Setup Code User) (P : ℕ → World Code User → Text → Prop) [∀ c w line, Decidable (P c w line)]
    (w : World Code User) : ∀ h, Decidable (OnLines a P w h)
  | .read _ _ => inferInstanceAs (Decidable (_ ≠ none → _))
  | .delete _ _ | .write _ _ | .hook _ => inferInstanceAs (Decidable True)

instance (D : World Code User → ℕ → Prop) [∀ w c, Decidable (D w c)] (w : World Code User) :
    ∀ h, Decidable (OnDelete D w h)
  | .delete _ ch => inferInstanceAs (Decidable (D w ch.id))
  | .read _ _ | .write _ _ | .hook _ => inferInstanceAs (Decidable True)

/-- What an invariant of the connections has to withstand, lines that meet `P` and deletions that
meet `D`. -/
structure Withstands (a : Setup Code User) (P : ℕ → World Code User → Text → Prop)
    (D : World Code User → ℕ → Prop) (I : World Code User → Prop) : Prop where
  core : ∀ w w', I w → SameCore w w' → I w'
  line : ∀ c w line w', I w → P c w line → receive a c w line = some w' → I w'
  connects : ∀ addresses w w', I w → Connects addresses w w' → I w'
  rejects : ∀ addresses w w', I w → Rejects addresses w w' → I w'
  deletes : ∀ c w w', I w → D w c → Deletes c w w' → I w'

section Core
variable {a : Setup Code User} {c : ℕ} {w w' : World Code User}

theorem sameCore_channels (l : Loop.Channels Unit) (hbrk : l.brk = w.channels.brk) :
    SameCore w { w with channels := l } :=
  ⟨fun _ => rfl, fun _ => Iff.rfl, rfl, rfl, hbrk, [], (List.append_nil _).symm, by simp⟩

theorem sameCore_socketClose : SameCore w (socketClose c w) := sameCore_channels _ rfl

theorem sameCore_held (held : ℕ → List UInt8) : SameCore w { w with user := { w.user with held := held } } :=
  ⟨fun _ => rfl, fun _ => Iff.rfl, rfl, rfl, rfl, [], (List.append_nil _).symm, by simp⟩

theorem sameCore_callback {e : Entry Code} (he : e.plain = true) :
    SameCore w { w with user := w.user.callback a e } :=
  ⟨fun _ => rfl, fun _ => Iff.rfl, rfl, rfl, rfl, [e], rfl, by simpa using he⟩

theorem handleSocket_cases {interpretation : World Code User → Text → Option (World Code User)}
    {received : Received} (hw : handleSocket c interpretation received w = some w') :
    w' = socketClose c w ∨ ∃ v held, w' = { v with user := { v.user with held := held } } ∧
      Machine.run interpretation w (completed c received w.user) = some v := by
  unfold handleSocket at hw
  split at hw
  · exact .inl (Option.some.inj hw).symm
  · split_ifs at hw with hempty
    · exact .inl (Option.some.inj hw).symm
    · obtain ⟨v, hv, rfl⟩ := Option.map_eq_some_iff.mp hw
      exact .inr ⟨v, _, rfl, by simpa [completed, hempty] using hv⟩

theorem broadcastReceive_cases {line : Text} (hw : broadcastReceive a c w line = some w') :
    ∃ v, (v = w ∨ ∃ connects, v = { w with user := { w.user with connects := connects } }) ∧
      (w' = v ∨ ∃ addresses, Connects addresses v w') := by
  unfold broadcastReceive at hw
  split at hw
  · dsimp only at hw
    split_ifs at hw
    · exact ⟨w, .inl rfl, .inl (Option.some.inj hw).symm⟩
    · refine ⟨{ w with user := { w.user with connects := w.user.connects.tail } }, .inr ⟨_, rfl⟩, ?_⟩
      split at hw
      · exact .inl (Option.some.inj hw).symm
      · exact .inr ⟨_, serve_connects hw⟩
  · simp at hw

theorem sameCore_connects (connects : Stream' (Option (ℕ × Endpoint))) :
    SameCore w { w with user := { w.user with connects := connects } } :=
  ⟨fun _ => rfl, fun _ => Iff.rfl, rfl, rfl, rfl, [], (List.append_nil _).symm, by simp⟩

theorem sameCore_sender {sender : ℕ} (hmem : w.user.memory c = some (.broadcast sender)) (sender' : ℕ) :
    SameCore w { w with user := w.user.setMemory c (some (.broadcast sender')) } := by
  refine ⟨fun c' => ?_, fun c' => ?_, rfl, rfl, rfl, [], (List.append_nil _).symm, by simp⟩
  · by_cases hc : c' = c
    · simp [Data.sock, Data.setMemory, hc, hmem]
    · simp [Data.sock, Data.setMemory, hc]
  · by_cases hc : c' = c
    · simp [Data.setMemory, hc, hmem]
    · simp [Data.setMemory, hc]

theorem foldl_congest (congested : List ℕ) (w : World Code User) :
    ∃ l : Loop.Channels Unit, l.channels_list = w.channels.channels_list ∧ l.brk = w.channels.brk ∧
      congested.foldl congest w = { w with channels := l } := by
  induction congested generalizing w with
  | nil => exact ⟨w.channels, rfl, rfl, rfl⟩
  | cons c congested ih =>
    rw [List.foldl_cons]
    unfold congest
    split_ifs
    · obtain ⟨l, hlist, hbrk, heq⟩ := ih { w with channels := w.channels.ivyChannelAddWritableEvent c }
      obtain ⟨hlist', hbrk'⟩ := w.channels.ivyChannelAddWritableEvent_same c
      exact ⟨l, hlist.trans hlist', hbrk.trans hbrk', heq⟩
    · exact ih w

theorem sameCore_congest (congested : List ℕ) (w : World Code User) :
    SameCore w (congested.foldl congest w) := by
  obtain ⟨l, -, hbrk, heq⟩ := foldl_congest congested w
  rw [heq]
  exact sameCore_channels l hbrk

end Core

section Rule
variable {a : Setup Code User} {P : ℕ → World Code User → Text → Prop} {D : World Code User → ℕ → Prop}
  {I : World Code User → Prop} (hI : Withstands a P D I) {w w' : World Code User}
include hI

theorem Withstands.lines {c : ℕ} {lines : List Text} (h : I w)
    (hP : Machine.Guarded (receive a c) (P c) w lines)
    (hrun : Machine.run (receive a c) w lines = some w') : I w' :=
  Machine.run_guarded (I := fun _ => I) h (fun _ w line w' h hP hw => hI.line c w line w' h hP hw) hP hrun

theorem Withstands.read {c : ℕ} {env : Env} (h : I w)
    (hP : w.user.sock c ≠ none →
      Machine.Guarded (receive a c) (P c) w (completed c env.received w.user))
    (hw : handleRead a c env w = some w') : I w' := by
  unfold handleRead at hw
  split at hw
  · simp at hw
  · unfold handleServer at hw
    split at hw
    · obtain rfl := Option.some.inj hw
      exact h
    · rcases clientCreate_cases hw with hconnects | hrejects
      · exact hI.connects _ w w' h hconnects
      · exact hI.rejects _ w w' h hrejects
  · rename_i sender hmem
    have hsender := hI.core _ _ h (sameCore_sender hmem env.sender)
    rcases handleSocket_cases hw with rfl | ⟨v, held, rfl, hv⟩
    · exact hI.core _ _ hsender sameCore_socketClose
    · refine hI.core _ _ ?_ (sameCore_held held)
      refine Machine.run_reaches (I := fun _ => I) hsender (fun _ u line u' hu hstep => ?_) hv
      obtain ⟨x, hx, hu'⟩ := broadcastReceive_cases hstep
      have hIx : I x := by
        rcases hx with rfl | ⟨connects, rfl⟩
        · exact hu
        · exact hI.core _ _ hu (sameCore_connects connects)
      rcases hu' with rfl | ⟨addresses, hconnects⟩
      · exact hIx
      · exact hI.connects addresses x u' hIx hconnects
  · rename_i sock hmem
    have hsock : w.user.sock c ≠ none := by simp [Data.sock, hmem]
    rcases handleSocket_cases hw with rfl | ⟨v, held, rfl, hv⟩
    · exact hI.core _ _ h sameCore_socketClose
    · exact hI.core _ _ (hI.lines h (hP hsock) hv) (sameCore_held held)

theorem Withstands.write {c : ℕ} {env : Env} (h : I w) (hw : handleWrite a c env w = some w') : I w' := by
  obtain ⟨sock, hsock, rfl⟩ := Option.map_eq_some_iff.mp hw
  unfold handleCongestionWrite
  split
  · exact hI.core _ _ h sameCore_socketClose
  · exact h
  · have hclear := hI.core _ _ h (sameCore_channels (w.channels.ivyChannelClearWritableEvent c)
      (Loop.Channels.ivyChannelClearWritableEvent_same c).2)
    exact hI.core _ _ hclear (sameCore_callback (by simp [Entry.plain]))

theorem Withstands.call {h : Loop.Handler Unit Env} (hw : I w) (hP : OnLines a P w h) (hD : OnDelete D w h)
    (hcall : (program a).call h w = some w') : I w' := by
  cases h with
  | delete env ch => exact hI.deletes ch.id w w' hw hD (deleteSocket_deletes hcall)
  | read env ch => exact hI.read hw hP hcall
  | write env ch => exact hI.write hw hcall
  | hook env =>
    obtain rfl := Option.some.inj hcall
    have hcongest := hI.core _ _ hw (sameCore_congest env.congested w)
    exact hI.core _ _ hcongest (sameCore_callback rfl)

theorem Withstands.unlink (c fd : ℕ) (h : I w) : I { w with channels := w.channels.unlink c fd } :=
  hI.core _ _ h (sameCore_channels _ rfl)

/-- An invariant of the connections holds in every run whose lines meet `P` and whose deletions
meet `D`. -/
theorem Withstands.run {o : Opened User} {events : List (Loop.Event Env)}
    {s : Loop.State Unit (Data Code User)} (h₀ : I (ivyStart o))
    (hG : Machine.Guarded (Loop.step (program a)) (Loop.OnHandler fun w h => OnLines a P w h ∧ OnDelete D w h)
      (Loop.started (ivyStart o)) events)
    (hrun : Agent.run a o events = some s) : I s.world :=
  Loop.run_world (fun _ c fd h => hI.unlink c fd h) (fun _ _ _ h _ hG hcall => hI.call h hG.1 hG.2 hcall) h₀ hG hrun

end Rule

section Always
variable {a : Setup Code User} {I : World Code User → Prop}
  (hI : Withstands a (fun _ _ _ => True) (fun _ _ => True) I) {o : Opened User}
  {events : List (Loop.Event Env)}

theorem met_always (a : Setup Code User) (w : World Code User) (h : Loop.Handler Unit Env) :
    OnLines a (fun _ _ _ => True) w h ∧ OnDelete (fun _ _ => True) w h := by
  cases h with
  | read env ch => exact ⟨fun _ => Machine.guarded_of_forall fun _ _ _ => trivial, trivial⟩
  | delete | write | hook => exact ⟨trivial, trivial⟩

include hI

theorem Withstands.handler {h : Loop.Handler Unit Env} {w w' : World Code User} (hw : I w)
    (hcall : (program a).call h w = some w') : I w' :=
  hI.call hw (met_always a w h).1 (met_always a w h).2 hcall

/-- An invariant of the connections that needs no condition holds in every run. -/
theorem Withstands.always {s : Loop.State Unit (Data Code User)} (h₀ : I (ivyStart o))
    (hrun : Agent.run a o events = some s) : I s.world := by
  apply hI.run h₀ _ hrun
  exact Machine.guarded_of_forall fun s _ _ h _ => met_always a s.world h

theorem Withstands.meets {P : ℕ → World Code User → Text → Prop} (hP : ∀ c w line, I w → P c w line)
    {w : World Code User} (hw : I w) (h : Loop.Handler Unit Env) : OnLines a P w h := by
  cases h with
  | read env ch =>
    intro _
    have hall : Machine.Guarded (receive a ch.id) (fun _ _ => True) w (completed ch.id env.received w.user) :=
      Machine.guarded_of_forall fun _ _ _ => trivial
    exact hall.imp hw (fun w line w' h hP hw' => hI.line ch.id w line w' h hP hw') fun w line h _ => hP _ w line h
  | delete | write | hook => trivial

theorem Withstands.onLines {P : ℕ → World Code User → Text → Prop} (hP : ∀ c w line, I w → P c w line)
    (h₀ : I (ivyStart o)) :
    Machine.Guarded (Loop.step (program a)) (Loop.OnHandler (OnLines a P)) (Loop.started (ivyStart o)) events := by
  have hall : Machine.Guarded (Loop.step (program a)) (Loop.OnHandler fun _ _ => True)
      (Loop.started (ivyStart o)) events := Machine.guarded_of_forall fun _ _ _ _ _ => trivial
  exact Loop.guarded_imp (fun w c fd h => hI.unlink c fd h) (fun _ _ _ hw _ _ hcall => hI.handler hw hcall)
    (fun _ h hw _ _ => hI.meets hP hw h) h₀ hall

end Always

/-- An agent whose application does nothing. -/
def plainAgent : Setup Unit Unit where
  order := .little
  compile _ := .ok ()
  exec _ _ := some []
  ivyBindingFilter _ := true
  applicationPort := 5001
  applicationName := ascii "A"
  applicationID := ascii "a"
  ready_message := some (ascii "A ready")
  application_pong_callback := true
  react _ user msg_recv := (user, msg_recv)
  pings _ _ := []

/-- It accepts on the descriptor 3 and hears hellos on 4, and all that it sends goes out. -/
def opened : Opened Unit where
  serverFd := 3
  broadcastFd := 4
  msg_recv := []
  connects n := some (6 + n, ⟨1, 50000⟩)
  states := Stream'.const .sendOk
  now := Stream'.const ⟨1, 0⟩
  user := ()

def nothing : Env := ⟨.error, 0, none, .pending, []⟩

def reads (data : List UInt8) : Env := { nothing with received := .bytes data }

/-- A connection from the host 2. -/
def accepts (fd : ℕ) (port : UInt16) : Env :=
  { nothing with accepted := some ⟨fd, ⟨1, 5001⟩, ⟨2, port⟩⟩ }

/-- A turn over so many channels, of which those with the descriptors are readable. -/
def turn (channels : ℕ) (readable : Finset ℕ) (envs : List Env) (channels' : ℕ) : List (Loop.Event Env) :=
  let walk (n : ℕ) : List (Loop.Event Env) := List.replicate (n + 1) (.next nothing)
  .enter false :: walk channels ++ [.select (some ⟨readable, ∅, ∅⟩), .next nothing] ++ walk channels ++
    envs.map .next ++ [.next nothing] ++ walk channels'

end Ivy.Agent
