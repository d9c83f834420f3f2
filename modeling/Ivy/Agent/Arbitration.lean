import Ivy.Agent.Duplicates
import Mathlib.Logic.ExistsUnique

/-! Two agents that have each opened a connection to the other. Both lines of a pair announce an agent that
is connected already, and `Receive` is to close one of the two connections at both ends. -/
namespace Ivy.Agent
open Socket Registry

/-- An agent: its host, the port that it accepts on and the port that it connects from. -/
structure Party where
  order : ByteOrder
  host : ℕ
  applicationPort : UInt16
  ephemeralPort : UInt16
  /-- No peer has the address `0.0.0.0`. -/
  host_ne_zero : host ≠ 0

namespace Party

def listens (p : Party) : Endpoint := ⟨p.host, p.applicationPort⟩

def connects (p : Party) : Endpoint := ⟨p.host, p.ephemeralPort⟩

/-- The connection that the party opened, as it sees it. -/
def opened (p peer : Party) : Addresses := connectedTo p.connects peer.listens

def accepted (p peer : Party) : Addresses := acceptedFrom p.order p.listens peer.connects

end Party

/-- Who opened a connection. -/
inductive Opener
  | a
  | b
  deriving DecidableEq

variable {Code User : Type*}

/-- An agent with the connection that it opened and the one that it accepted. -/
structure Side (Code User : Type*) where
  setup : Setup Code User
  opened : ℕ
  accepted : ℕ

/-- The target of the lines that announce an application. -/
def pick (a : Setup Code User) (c : ℕ) (w : World Code User) (line : Text) : Option ℕ :=
  match w.user.request c line with
  | .control .startRegexp id _ => (announces c (UInt16.ofInt id) w).user.target a.order c
  | _ => none

namespace Side
variable (s : Side Code User) (me : Opener)

def client (c : Opener) : ℕ := if c = me then s.opened else s.accepted

/-- The agent receives lines, each on one of the two connections. -/
def run (w : World Code User) (lines : List (Opener × Text)) : Option (World Code User) :=
  Machine.run (fun w line => receive s.setup (s.client me line.1) w line.2) w lines

/-- The targets that the agent picks meanwhile. -/
def picks : World Code User → List (Opener × Text) → List ℕ
  | _, [] => []
  | w, line :: rest =>
    (pick s.setup (s.client me line.1) w line.2).toList ++
      (receive s.setup (s.client me line.1) w line.2).elim [] fun w => picks w rest

end Side

/-- Both agents pick one and the same connection, and one connection is left open at both ends. -/
structure Agree (A B : Side Code User) (w v w' v' : World Code User) (linesA linesB : List (Opener × Text)) :
    Prop where
  target : ∃ c, (A.picks .a w linesA ≠ [] ∧ ∀ t ∈ A.picks .a w linesA, t = A.client .a c) ∧
    (B.picks .b v linesB ≠ [] ∧ ∀ t ∈ B.picks .b v linesB, t = B.client .b c)
  survivor : ∃! c, Open w' (A.client .a c) ∧ Open v' (B.client .b c)

/-- `Receive` takes the line for a `StartRegexp`, if it does not ignore it. -/
def IsStart (line : Text) : Prop :=
  ∃ id arg, ∀ msg_recv cursors, (Ivy.receive false msg_recv cursors line).2 = .control .startRegexp id arg

/-- The addresses of the two connections. -/
structure Ends (p peer : Party) (s : Side Code User) (w : World Code User) : Prop where
  opened : w.user.addresses s.opened = some (p.opened peer)
  accepted : w.user.addresses s.accepted = some (p.accepted peer)

structure Holds (p peer : Party) (s : Side Code User) (w : World Code User) : Prop extends Ends p peer s w where
  open_opened : Open w s.opened
  open_accepted : Open w s.accepted

/-- No other connection was accepted from the peer's host. -/
def Alone (peer : Party) (s : Side Code User) (w : World Code User) : Prop :=
  ∀ c ∈ w.user.clients, c ≠ s.opened → c ≠ s.accepted → ∀ x ∈ w.user.addresses c, x.fromAddr.host ≠ peer.host

section Lines
variable {p peer : Party} {s : Side Code User} {me : Opener} {w w' : World Code User}

theorem addresses_of_memory (hmemory : w'.user.memory = w.user.memory) (c : ℕ) :
    w'.user.addresses c = w.user.addresses c := by
  rw [Data.addresses, sock_of_memory (congrFun hmemory c), Data.addresses]

theorem Ends.of_eq (h : Ends p peer s w) (hmemory : w'.user.memory = w.user.memory) : Ends p peer s w' where
  opened := by rw [addresses_of_memory hmemory, h.opened]
  accepted := by rw [addresses_of_memory hmemory, h.accepted]

theorem Alone.of_eq (h : Alone peer s w) (hclients : w'.user.clients = w.user.clients)
    (hmemory : w'.user.memory = w.user.memory) : Alone peer s w' := by
  intro c hc
  rw [addresses_of_memory hmemory]
  exact h c (hclients ▸ hc)

theorem Ends.ne (h : Ends p peer s w) : s.opened ≠ s.accepted := by
  intro heq
  have hsame : p.opened peer = p.accepted peer := Option.some.inj (h.opened.symm.trans (heq ▸ h.accepted))
  exact peer.host_ne_zero (congrArg (fun x : Addresses => x.fromAddr.host) hsame).symm

/-- The connection that was opened has no recorded port, and no recorded host for which it could be found. -/
theorem Ends.target (h : Ends p peer s w) (c : Opener) (port : UInt16) {order : ByteOrder} {target : ℕ}
    (htarget : (announces (s.client me c) port w).user.target order (s.client me c) = some target) :
    ∃ o ∈ w.user.clients, o ≠ s.opened ∧ o ≠ s.accepted ∧ (∃ x ∈ w.user.addresses o, x.fromAddr.host = peer.host) ∧
      (target = o ∨ target = s.accepted) := by
  obtain ⟨clnt, o, other, before, after, hclnt, hport, hclients, -, hclash, hyields⟩ := target_eq_some.mp htarget
  have hclnt : w.user.addresses (s.client me c) = some clnt := hclnt
  have hother : w.user.addresses o = some other := hclash.addresses
  have hmem : o ∈ w.user.clients := by
    have hclients : w.user.clients = before ++ o :: after := hclients
    simp [hclients]
  have haccepted : s.client me c = s.accepted := by
    unfold Side.client at hclnt ⊢
    split_ifs at hclnt ⊢
    · obtain rfl := Option.some.inj (h.opened.symm.trans hclnt)
      exact absurd rfl hport
    · rfl
  rw [haccepted, h.accepted] at hclnt
  obtain rfl := Option.some.inj hclnt
  have hhost : other.fromAddr.host = peer.host := hclash.host
  refine ⟨o, hmem, fun ho => ?_, haccepted ▸ hclash.ne, ⟨other, hother, hhost⟩, ?_⟩
  · rw [ho, h.opened] at hother
    obtain rfl := Option.some.inj hother
    exact peer.host_ne_zero hhost.symm
  · rw [hyields, haccepted]
    split_ifs
    · exact .inl rfl
    · exact .inr rfl

theorem request_of_isStart {line : Text} (hstart : IsStart line) (w : World Code User) (c : ℕ) :
    w.user.request c line = .ignored ∨ ∃ id arg, w.user.request c line = .control .startRegexp id arg := by
  obtain ⟨id, arg, hrequest⟩ := hstart
  cases hignore : (w.user.records c).ignore_subsequent_msg with
  | true =>
    left
    rw [Data.request, hignore]
    rfl
  | false =>
    right
    rw [Data.request, hignore]
    exact ⟨id, arg, hrequest _ _⟩

/-- A `StartRegexp` closes what it picks, and nothing else changes that matters here. -/
theorem receive_isStart {a : Setup Code User} {c : ℕ} {line : Text} (hstart : IsStart line)
    (hw : receive a c w line = some w') : w'.user.clients = w.user.clients ∧ w'.user.memory = w.user.memory ∧
      w'.channels = (pick a c w line).elim w.channels w.channels.ivyChannelRemove := by
  have hserved : w.user.Served c := (receive_handles hw).1
  unfold pick
  rcases request_of_isStart hstart w c with hrequest | ⟨id, arg, hrequest⟩
  · rw [hrequest]
    unfold Agent.receive at hw
    dsimp only at hw
    rw [if_pos hserved, hrequest] at hw
    obtain rfl := Option.some.inj hw
    exact ⟨rfl, rfl, rfl⟩
  · rw [hrequest]
    obtain ⟨v, hv, hclients, hmemory, -, hchannels⟩ := receive_startRegexp (a := a) hserved hrequest
    obtain rfl := Option.some.inj (hw.symm.trans hv)
    exact ⟨hclients, hmemory, hchannels⟩

/-- What an agent picks is not the connection that it opened, and is nothing if there are just the two. -/
theorem Ends.pick (h : Ends p peer s w) (c : Opener) (line : Text) :
    pick s.setup (s.client me c) w line ≠ some s.opened ∧
      (Alone peer s w → pick s.setup (s.client me c) w line = none) := by
  have hfound {target : ℕ} (hpick : Agent.pick s.setup (s.client me c) w line = some target) :
      target ≠ s.opened ∧ ¬ Alone peer s w := by
    unfold Agent.pick at hpick
    split at hpick
    · obtain ⟨o, ho, hopened, haccepted, ⟨x, hx, hhost⟩, htarget⟩ := h.target c _ hpick
      refine ⟨?_, fun halone => halone o ho hopened haccepted x hx hhost⟩
      rcases htarget with rfl | rfl
      · exact hopened
      · exact h.ne.symm
    · cases hpick
  refine ⟨fun hpick => (hfound hpick).1 rfl, fun halone => ?_⟩
  rw [Option.eq_none_iff_forall_ne_some]
  exact fun target hpick => (hfound hpick).2 halone

theorem Ends.run (h : Ends p peer s w) {lines : List (Opener × Text)} (hlines : ∀ line ∈ lines, IsStart line.2)
    (hrun : s.run me w lines = some w') : s.opened ∉ s.picks me w lines := by
  induction lines generalizing w with
  | nil => exact List.not_mem_nil
  | cons line rest ih =>
    obtain ⟨v, hv, hrest⟩ := Option.bind_eq_some_iff.mp hrun
    have hv : receive s.setup (s.client me line.1) w line.2 = some v := hv
    obtain ⟨-, hmemory, -⟩ := receive_isStart (hlines line List.mem_cons_self) hv
    have hlater := ih (h.of_eq hmemory) (fun l hl => hlines l (List.mem_cons_of_mem line hl)) hrest
    rw [Side.picks, hv, Option.elim_some, List.mem_append, Option.mem_toList]
    exact not_or.mpr ⟨(h.pick line.1 line.2).1, hlater⟩

theorem Holds.run (h : Holds p peer s w) (halone : Alone peer s w) {lines : List (Opener × Text)}
    (hlines : ∀ line ∈ lines, IsStart line.2) (hrun : s.run me w lines = some w') :
    s.picks me w lines = [] ∧ ∀ c, Open w' (s.client me c) := by
  induction lines generalizing w with
  | nil =>
    obtain rfl := Option.some.inj hrun
    refine ⟨rfl, fun c => ?_⟩
    unfold Side.client
    split_ifs
    · exact h.open_opened
    · exact h.open_accepted
  | cons line rest ih =>
    obtain ⟨v, hv, hrest⟩ := Option.bind_eq_some_iff.mp hrun
    have hv : receive s.setup (s.client me line.1) w line.2 = some v := hv
    obtain ⟨hclients, hmemory, hchannels⟩ := receive_isStart (hlines line List.mem_cons_self) hv
    have hpick : pick s.setup (s.client me line.1) w line.2 = none := (h.toEnds.pick line.1 line.2).2 halone
    rw [hpick] at hchannels
    have hopen (c : ℕ) (hc : Open w c) : Open v c := by
      rw [Open, hchannels]
      exact hc
    have hv' : Holds p peer s v :=
      ⟨h.toEnds.of_eq hmemory, hopen _ h.open_opened, hopen _ h.open_accepted⟩
    obtain ⟨hpicks, hend⟩ := ih hv' (halone.of_eq hclients hmemory)
      (fun l hl => hlines l (List.mem_cons_of_mem line hl)) hrest
    refine ⟨?_, hend⟩
    rw [Side.picks, hpick, hv]
    exact hpicks

end Lines

instance (p peer : Party) (s : Side Code User) (w : World Code User) : Decidable (Holds p peer s w) :=
  decidable_of_iff
    (w.user.addresses s.opened = some (p.opened peer) ∧ w.user.addresses s.accepted = some (p.accepted peer) ∧
      Open w s.opened ∧ Open w s.accepted)
    ⟨fun ⟨hopened, haccepted, ho, ha⟩ => ⟨⟨hopened, haccepted⟩, ho, ha⟩,
      fun h => ⟨h.opened, h.accepted, h.open_opened, h.open_accepted⟩⟩

instance (peer : Party) (s : Side Code User) (w : World Code User) : Decidable (Alone peer s w) :=
  inferInstanceAs (Decidable (∀ c ∈ w.user.clients, _ → _ → ∀ x ∈ w.user.addresses c, _))

/-- The agent that `plainAgent` meets, on the host 2. -/
def otherAgent : Setup Unit Unit :=
  { plainAgent with applicationPort := 5000, applicationName := ascii "B", applicationID := ascii "b" }

def partyA : Party := ⟨.little, 1, 5001, 50000, by decide⟩

def partyB : Party := ⟨.little, 2, 5000, 40000, by decide⟩

/-- Both have opened the connection 2 for the hello of the other one, and have accepted the connection 3. -/
def sideA : Side Unit Unit := ⟨plainAgent, 2, 3⟩

def sideB : Side Unit Unit := ⟨otherAgent, 2, 3⟩

def meetsA : Option (World Unit Unit) :=
  (run plainAgent opened (turn 2 {3, 4}
    [{ reads (ascii "3 5000 b B\n") with sender := 2 }, accepts 5 40000] 4)).map (·.world)

def meetsB : Option (World Unit Unit) :=
  (run otherAgent { opened with connects := fun n => some (6 + n, ⟨2, 40000⟩) } (turn 2 {3, 4}
    [{ reads (ascii "3 5001 a A\n") with sender := 1 },
      { nothing with accepted := some ⟨5, ⟨2, 5000⟩, ⟨1, 50000⟩⟩ }] 4)).map (·.world)

/-- The lines `6 5000` and `6 5001`, on the connections that the agents opened and then on the others. -/
def startsA : List (Opener × Text) :=
  [(.a, ascii "6 5000\x02B"), (.b, ascii "6 5000\x02B")]

def startsB : List (Opener × Text) :=
  [(.b, ascii "6 5001\x02A"), (.a, ascii "6 5001\x02A")]

theorem isStart_starts : (∀ line ∈ startsA, IsStart line.2) ∧ ∀ line ∈ startsB, IsStart line.2 := by
  have hB : IsStart (ascii "6 5000\x02B") := ⟨5000, ascii "B", fun _ _ => rfl⟩
  have hA : IsStart (ascii "6 5001\x02A") := ⟨5001, ascii "A", fun _ _ => rfl⟩
  simp [startsA, startsB, hA, hB]

/-- The two hold the connections, and all four lines are handled. -/
theorem meets_starts : ∃ w ∈ meetsA, ∃ v ∈ meetsB, (Holds partyA partyB sideA w ∧ Alone partyB sideA w) ∧
    (Holds partyB partyA sideB v ∧ Alone partyA sideB v) ∧
    (∃ w', sideA.run .a w startsA = some w') ∧ ∃ v', sideB.run .b v startsB = some v' := by
  have hA : meetsA.any (fun w => (Holds partyA partyB sideA w ∧ Alone partyB sideA w) ∧
      (sideA.run .a w startsA).isSome) = true := by decide +kernel
  have hB : meetsB.any (fun v => (Holds partyB partyA sideB v ∧ Alone partyA sideB v) ∧
      (sideB.run .b v startsB).isSome) = true := by decide +kernel
  obtain ⟨w, hw, hsomeA⟩ := (Option.any_eq_true _ _).mp hA
  obtain ⟨v, hv, hsomeB⟩ := (Option.any_eq_true _ _).mp hB
  obtain ⟨hholdsA, hrunA⟩ := of_decide_eq_true hsomeA
  obtain ⟨hholdsB, hrunB⟩ := of_decide_eq_true hsomeB
  exact ⟨w, hw, v, hv, hholdsA, hholdsB, Option.isSome_iff_exists.mp hrunA, Option.isSome_iff_exists.mp hrunB⟩

end Ivy.Agent
