import Ivy.Agent.Attempt
import Ivy.Discovery.Groups

/-! Agents that start on one bus in any order. Each one opens its server, binds its broadcast socket and
says hello; then it connects to the agents whose hellos it hears. -/
namespace Ivy.Bus
open Ivy.Agent Discovery Socket

structure Starter where
  host : ℕ
  applicationPort : UInt16
  rand : UInt32 → Int32
  curtime : UInt64
  applicationName : CString
  inet_pton : Text → Option (Vector UInt8 16)
  uninit : Option Text
  getenv : Option CString
  bus : Option CString

namespace Starter

def app (c : Starter) : Discovery.Application where
  applicationPort := c.applicationPort
  applicationID := genApplicationUniqueIdentifier c.rand c.curtime c.applicationPort
  applicationName := c.applicationName.bytes

def actions (c : Starter) : Option (List Discovery.Action) := ivyStart c.app c.inet_pton c.uninit c.getenv c.bus

def supervisionPort (c : Starter) : UInt16 := Discovery.supervisionPort c.getenv c.bus

/-- Where its server listens. -/
def endpoint (c : Starter) : Endpoint := ⟨c.host, c.applicationPort⟩

/-- The server has a port, and the name is one that a hello can hold. -/
structure Announceable (c : Starter) : Prop where
  port_ne_zero : c.applicationPort ≠ 0
  name_field : Field endsName 2048 c.applicationName.bytes
  name_first : startsBlank c.applicationName.bytes = false

def Sends (c : Starter) (network : Network) : Prop :=
  ∃ actions, c.actions = some actions ∧ ∃ a ∈ actions, a.request.network = some network

/-- Started in the same millisecond, with the same port and the same pseudo-random number. -/
def SameStart (c c' : Starter) : Prop :=
  c.curtime = c'.curtime ∧ c.applicationPort = c'.applicationPort ∧
    c.rand c.curtime.toUInt32 = c'.rand c.curtime.toUInt32

theorem sameStart_iff {c c' : Starter} : c.app.applicationID = c'.app.applicationID ↔ SameStart c c' :=
  genApplicationUniqueIdentifier_eq_iff

theorem terminated (c : Starter) : c.app.Terminated where
  applicationID h := by
    rcases mem_genApplicationUniqueIdentifier _ _ _ h with h | h | h <;> exact absurd h (by decide)
  applicationName := c.applicationName.noZero

theorem Announceable.app {c : Starter} (h : c.Announceable) : c.app.Announceable where
  port_ne_zero := h.port_ne_zero
  id_field := field_genApplicationUniqueIdentifier _ _ _
  name_field := h.name_field
  name_first := h.name_first

end Starter

inductive Phase
  | down
  | listening
  | bound
  deriving DecidableEq

structure Packet (κ : Type*) where
  sender : κ
  text : Text
  deriving DecidableEq

/-- An agent that starts, with what is left of the loop over the networks. -/
structure Node (κ : Type*) where
  phase : Phase
  todo : List SocketRequest
  groups : List Network
  inbox : List (Packet κ)
  receiver : Receiver
  attempts : List Endpoint

variable {κ : Type*}

def Node.down : Node κ := ⟨.down, [], [], [], newReceiver, []⟩

/-- The broadcast socket gets what is sent to the network. -/
def Node.Hears (n : Node κ) (network : Network) : Prop :=
  n.phase = .bound ∧ (network.isGroup = true → network ∈ n.groups)

instance (n : Node κ) (network : Network) : Decidable (n.Hears network) := inferInstanceAs (Decidable (_ ∧ _))

/-- `HandleSocket` on one datagram, with the connections that `BroadcastReceive` attempts. -/
def Node.read (n : Node κ) (applicationID : Text) (host : ℕ) (text : Text) (rest : List (Packet κ)) : Node κ :=
  let receiver := receiveDatagram n.receiver text
  let lines := receiver.delivered.drop n.receiver.delivered.length
  { n with
    inbox := rest
    receiver := receiver
    attempts := n.attempts ++ lines.filterMap (attempt applicationID host) }

/-- What happens next at one of the agents. -/
inductive MeshEvent (κ : Type*)
  | listen (k : κ)
  | bind (k : κ)
  | request (k : κ)
  | read (k : κ)
  deriving DecidableEq

section
variable (c : κ → Starter) (lan : Network → κ → κ → Bool)

/-- A datagram gets to the sockets that hear its network and are bound to its port. -/
def deliver (sender : κ) (network : Network) (port : UInt16) (text : Text) (s : κ → Node κ) : κ → Node κ := fun j =>
  if (s j).Hears network ∧ (c j).supervisionPort = port ∧ lan network sender j = true then
    { s j with inbox := (s j).inbox ++ [⟨sender, text⟩] }
  else s j

variable [DecidableEq κ]

/-- `IvyStart` does not read; the main loop comes after it. -/
def meshStep (s : κ → Node κ) : MeshEvent κ → Option (κ → Node κ)
  | .listen k => if (s k).phase = .down then some (Function.update s k { s k with phase := .listening }) else none
  | .bind k =>
    if (s k).phase = .listening then
      (c k).actions.map fun actions =>
        Function.update s k { s k with phase := .bound, todo := actions.map Discovery.Action.request }
    else none
  | .request k =>
    match (s k).todo with
    | [] => none
    | .join network :: rs =>
      some (Function.update s k { s k with todo := rs, groups := network :: (s k).groups })
    | .send network port text :: rs =>
      some (deliver c lan k network port text (Function.update s k { s k with todo := rs }))
  | .read k =>
    if (s k).phase = .bound ∧ (s k).todo = [] then
      match (s k).inbox with
      | [] => none
      | ⟨sender, text⟩ :: rest =>
        some (Function.update s k ((s k).read (c k).app.applicationID (c sender).host text rest))
    else none

end

/-- The agent has said all its hellos, and has read all those that it got. -/
structure Node.Settled (n : Node κ) : Prop where
  phase : n.phase = .bound
  todo : n.todo = []
  inbox : n.inbox = []

instance [DecidableEq κ] (n : Node κ) : Decidable n.Settled :=
  decidable_of_iff (n.phase = .bound ∧ n.todo = [] ∧ n.inbox = [])
    ⟨fun h => ⟨h.1, h.2.1, h.2.2⟩, fun h => ⟨h.phase, h.todo, h.inbox⟩⟩

/-- On one bus: the two say hello to a network on which each gets what the other sends. -/
structure Neighbours (c : κ → Starter) (lan : Network → κ → κ → Bool) (i j : κ) : Prop where
  port : (c i).supervisionPort = (c j).supervisionPort
  network : ∃ network, (c i).Sends network ∧ (c j).Sends network ∧ lan network i j = true ∧ lan network j i = true

section Reading

/-- Reading the hello of an agent leads to one attempt, unless the identifiers are the same. -/
theorem Node.read_hello {n : Node κ} (hquiet : Quiet n.receiver) {c : Starter} (hc : c.Announceable)
    (applicationID : Text) (rest : List (Packet κ)) :
    Quiet (n.read applicationID c.host c.app.hello rest).receiver ∧
      (n.read applicationID c.host c.app.hello rest).attempts =
        n.attempts ++ if c.app.applicationID = applicationID then [] else [c.endpoint] := by
  obtain ⟨hdelivered, hstays⟩ := hquiet.receives hc.app.singleLine
  have hattempt := attempt_line c.terminated hc.app applicationID c.host
  refine ⟨hstays, ?_⟩
  unfold Node.read
  dsimp only
  rw [hdelivered, List.drop_left, List.filterMap_cons, hattempt]
  split_ifs <;> rfl

end Reading

structure Own (c : Starter) (n : Node κ) : Prop where
  quiet : Quiet n.receiver
  prepared : Prepared n.groups n.todo
  announces : ∀ r ∈ n.todo, r.Announces c.app c.supervisionPort
  fresh : n.phase ≠ .bound → n.todo = [] ∧ n.groups = []

/-- What came to an agent came from agents that are on the bus. -/
structure Heard (c : κ → Starter) (s : κ → Node κ) (k : κ) : Prop where
  inbox : ∀ p ∈ (s k).inbox, p.text = (c p.sender).app.hello ∧ (s p.sender).phase = .bound
  attempts : ∀ e ∈ (s k).attempts, ∃ j, e = (c j).endpoint ∧ ¬ Starter.SameStart (c j) (c k) ∧ (s j).phase = .bound

theorem Own.bound {c : Starter} {n : Node κ} (h : Own c n) (htodo : n.todo ≠ []) : n.phase = .bound := by
  by_contra hphase
  exact htodo (h.fresh hphase).1

theorem Own.send {c : Starter} {n : Node κ} (h : Own c n) {network : Network} {port : UInt16} {text : Text}
    {rs : List SocketRequest} (htodo : n.todo = .send network port text :: rs) :
    n.Hears network ∧ port = c.supervisionPort ∧ text = c.app.hello := by
  have hprepared := h.prepared
  rw [htodo] at hprepared
  have hannounces := h.announces _ (htodo ▸ List.mem_cons_self)
  exact ⟨⟨h.bound (by simp [htodo]), hprepared.1⟩, hannounces⟩

section Steps
variable [DecidableEq κ] {c : κ → Starter} {lan : Network → κ → κ → Bool} {s t : κ → Node κ}

/-- The steps that are defined, and where they lead. -/
inductive Steps (c : κ → Starter) (lan : Network → κ → κ → Bool) (s : κ → Node κ) :
    MeshEvent κ → (κ → Node κ) → Prop
  | listen {k : κ} (hphase : (s k).phase = .down) :
    Steps c lan s (.listen k) (Function.update s k { s k with phase := .listening })
  | bind {k : κ} {actions : List Discovery.Action} (hphase : (s k).phase = .listening) (hactions : (c k).actions = some actions) :
    Steps c lan s (.bind k)
      (Function.update s k { s k with phase := .bound, todo := actions.map Discovery.Action.request })
  | join {k : κ} {network : Network} {rs : List SocketRequest} (htodo : (s k).todo = .join network :: rs) :
    Steps c lan s (.request k)
      (Function.update s k { s k with todo := rs, groups := network :: (s k).groups })
  | send {k : κ} {network : Network} {port : UInt16} {text : Text} {rs : List SocketRequest}
      (htodo : (s k).todo = .send network port text :: rs) :
    Steps c lan s (.request k)
      (deliver c lan k network port text (Function.update s k { s k with todo := rs }))
  | read {k sender : κ} {text : Text} {rest : List (Packet κ)} (hphase : (s k).phase = .bound)
      (htodo : (s k).todo = []) (hinbox : (s k).inbox = ⟨sender, text⟩ :: rest) :
    Steps c lan s (.read k)
      (Function.update s k ((s k).read (c k).app.applicationID (c sender).host text rest))

theorem steps_of_meshStep {e : MeshEvent κ} (h : meshStep c lan s e = some t) : Steps c lan s e t := by
  unfold meshStep at h
  cases e with
  | listen k =>
    dsimp only at h
    split_ifs at h with hphase
    exact Option.some.inj h ▸ .listen hphase
  | bind k =>
    dsimp only at h
    split_ifs at h with hphase
    obtain ⟨actions, hactions, rfl⟩ := Option.map_eq_some_iff.mp h
    exact .bind hphase hactions
  | request k =>
    dsimp only at h
    split at h
    · exact absurd h.symm (Option.some_ne_none t)
    · exact Option.some.inj h ▸ .join ‹_›
    · exact Option.some.inj h ▸ .send ‹_›
  | read k =>
    dsimp only at h
    split_ifs at h with hready
    split at h
    · exact absurd h.symm (Option.some_ne_none t)
    · exact Option.some.inj h ▸ .read hready.1 hready.2 ‹_›

end Steps

section Invariant
variable {c : κ → Starter} {lan : Network → κ → κ → Bool} {s t : κ → Node κ}

theorem deliver_eq (sender : κ) (network : Network) (port : UInt16) (text : Text) (s : κ → Node κ) (j : κ) :
    deliver c lan sender network port text s j = { s j with
      inbox := (s j).inbox ++
        if (s j).Hears network ∧ (c j).supervisionPort = port ∧ lan network sender j = true then [⟨sender, text⟩]
        else [] } := by
  unfold deliver
  split_ifs
  · rfl
  · rw [List.append_nil]

theorem Own.deliver {j : κ} (h : Own (c j) (s j)) (sender : κ) (network : Network) (port : UInt16) (text : Text) :
    Own (c j) (deliver c lan sender network port text s j) := by
  rw [deliver_eq]
  exact ⟨h.quiet, h.prepared, h.announces, h.fresh⟩

theorem Heard.deliver {j : κ} (h : Heard c s j) {sender : κ} (hsender : (s sender).phase = .bound)
    (network : Network) (port : UInt16) : Heard c (deliver c lan sender network port (c sender).app.hello s) j where
  inbox p hp := by
    rw [deliver_eq] at hp
    rw [deliver_eq]
    rcases List.mem_append.mp hp with hp | hp
    · exact h.inbox p hp
    · split_ifs at hp
      · rw [List.mem_singleton.mp hp]
        exact ⟨rfl, hsender⟩
      · exact absurd hp List.not_mem_nil
  attempts e he := by
    rw [deliver_eq] at he
    obtain ⟨i, hi⟩ := h.attempts e he
    exact ⟨i, by rwa [deliver_eq]⟩

structure Sane (c : κ → Starter) (s : κ → Node κ) : Prop where
  own : ∀ k, Own (c k) (s k)
  heard : ∀ k, Heard c s k

theorem sane_down : Sane c fun _ => Node.down where
  own _ := ⟨quiet_newReceiver, trivial, fun _ h => absurd h List.not_mem_nil, fun _ => ⟨rfl, rfl⟩⟩
  heard _ := ⟨fun _ h => absurd h List.not_mem_nil, fun _ h => absurd h List.not_mem_nil⟩

variable [DecidableEq κ]

theorem own_update {k : κ} {n : Node κ} (h : ∀ j, Own (c j) (s j)) (hn : Own (c k) n) (j : κ) :
    Own (c j) (Function.update s k n j) :=
  (Function.forall_update_iff s fun j n => Own (c j) n).mpr ⟨hn, fun j _ => h j⟩ j

theorem bound_update {k : κ} {n : Node κ} (hphase : (s k).phase = .bound → n.phase = .bound) {j : κ}
    (hj : (s j).phase = .bound) : (Function.update s k n j).phase = .bound := by
  by_cases hjk : j = k
  · subst hjk
    rw [Function.update_self]
    exact hphase hj
  · rwa [Function.update_of_ne hjk]

theorem heard_update {k : κ} {n : Node κ} (h : ∀ j, Heard c s j)
    (hphase : (s k).phase = .bound → n.phase = .bound) (hinbox : ∀ p ∈ n.inbox, p ∈ (s k).inbox)
    (hattempts : ∀ e ∈ n.attempts, e ∈ (s k).attempts ∨
      ∃ j, e = (c j).endpoint ∧ ¬ Starter.SameStart (c j) (c k) ∧ (s j).phase = .bound) (j : κ) :
    Heard c (Function.update s k n) j := by
  have hold : (∀ p ∈ (Function.update s k n j).inbox, p ∈ (s j).inbox) ∧
      ∀ e ∈ (Function.update s k n j).attempts, e ∈ (s j).attempts ∨
        ∃ i, e = (c i).endpoint ∧ ¬ Starter.SameStart (c i) (c j) ∧ (s i).phase = .bound := by
    by_cases hjk : j = k
    · subst hjk
      rw [Function.update_self]
      exact ⟨hinbox, hattempts⟩
    · rw [Function.update_of_ne hjk]
      exact ⟨fun _ hp => hp, fun _ he => Or.inl he⟩
  constructor
  · intro p hp
    obtain ⟨htext, hsender⟩ := (h j).inbox p (hold.1 p hp)
    exact ⟨htext, bound_update hphase hsender⟩
  · intro e he
    obtain ⟨i, hi, hsame, hbound⟩ := (hold.2 e he).elim ((h j).attempts e) id
    exact ⟨i, hi, hsame, bound_update hphase hbound⟩

theorem Sane.step (hc : ∀ k, (c k).Announceable) (h : Sane c s) {e : MeshEvent κ} (hstep : Steps c lan s e t) :
    Sane c t := by
  cases hstep with
  | @listen k hphase =>
    have hnew := h.own k
    have hnot : (s k).phase ≠ .bound := by simp [hphase]
    exact ⟨own_update h.own ⟨hnew.quiet, hnew.prepared, hnew.announces, fun _ => hnew.fresh hnot⟩,
      heard_update h.heard (fun hbound => absurd hbound hnot) (fun _ hp => hp) fun _ he => Or.inl he⟩
  | @bind k actions hphase hactions =>
    obtain ⟨networks, hrequests⟩ := ivyStart_requests hactions
    refine ⟨own_update h.own ⟨(h.own k).quiet, ?_, ?_, fun hnot => absurd rfl hnot⟩,
      heard_update h.heard (fun _ => rfl) (fun _ hp => hp) fun _ he => Or.inl he⟩
    · dsimp only
      rw [hrequests]
      exact prepared_hellos _ _ networks _
    · dsimp only
      rw [hrequests]
      exact announces_hellos _ _ networks
  | @join k network rs htodo =>
    have hold := h.own k
    have hbound := hold.bound (by simp [htodo])
    have hprepared := hold.prepared
    have hannounces := hold.announces
    rw [htodo] at hprepared hannounces
    exact ⟨own_update h.own ⟨hold.quiet, hprepared, fun r hr => hannounces r (List.mem_cons_of_mem _ hr),
        fun hnot => absurd hbound hnot⟩,
      heard_update h.heard (fun _ => hbound) (fun _ hp => hp) fun _ he => Or.inl he⟩
  | @send k network port text rs htodo =>
    have hold := h.own k
    obtain ⟨⟨hbound, -⟩, -, rfl⟩ := hold.send htodo
    have hprepared := hold.prepared
    have hannounces := hold.announces
    rw [htodo] at hprepared hannounces
    have hown := own_update h.own (n := { s k with todo := rs }) ⟨hold.quiet, hprepared.2,
      fun r hr => hannounces r (List.mem_cons_of_mem _ hr), fun hnot => absurd hbound hnot⟩
    have hheard := heard_update h.heard (n := { s k with todo := rs }) (fun _ => hbound) (fun _ hp => hp)
      fun _ he => Or.inl he
    have hstill := bound_update (s := s) (k := k) (j := k) (n := { s k with todo := rs }) (fun _ => hbound) hbound
    exact ⟨fun j => (hown j).deliver _ _ _ _, fun j => (hheard j).deliver hstill _ _⟩
  | @read k sender text rest hphase htodo hinbox =>
    have hold := h.own k
    obtain ⟨htext, hsender⟩ := (h.heard k).inbox ⟨sender, text⟩ (hinbox ▸ List.mem_cons_self)
    obtain rfl : text = (c sender).app.hello := htext
    obtain ⟨hquiet, hattempts⟩ := Node.read_hello hold.quiet (hc sender) (c k).app.applicationID rest
    refine ⟨own_update h.own ⟨hquiet, hold.prepared, hold.announces, hold.fresh⟩,
      heard_update h.heard id (fun p hp => hinbox ▸ List.mem_cons_of_mem _ hp) fun e he => ?_⟩
    rw [hattempts] at he
    rcases List.mem_append.mp he with he | he
    · exact Or.inl he
    · split_ifs at he with hsame
      · exact absurd he List.not_mem_nil
      · exact Or.inr ⟨sender, List.mem_singleton.mp he, fun h => hsame (Starter.sameStart_iff.mpr h), hsender⟩

end Invariant

end Ivy.Bus
