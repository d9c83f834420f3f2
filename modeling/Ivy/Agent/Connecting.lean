import Ivy.Agent.Lifetime
import Ivy.Agent.Ready
import Mathlib.Data.Finset.Card

/-! The attempts to connect to the agents that say hello, and what those that fail leave behind. -/
namespace Ivy.Agent
open Socket Registry

inductive Outcome
  | socketFails
  | connectFails (fd : ℕ)
  | connects (fd : ℕ) (localEnd : Endpoint)
  deriving DecidableEq

namespace Outcome

def succeeds : Outcome → Bool
  | .connects _ _ => true
  | .socketFails | .connectFails _ => false

/-- The descriptor that `socket()` returns. -/
def handle : Outcome → Option ℕ
  | .socketFails => none
  | .connectFails fd => some fd
  | .connects fd _ => some fd

/-- What the handlers of the agent see of it. -/
def connection : Outcome → Option (ℕ × Endpoint)
  | .socketFails | .connectFails _ => none
  | .connects fd localEnd => some (fd, localEnd)

end Outcome

/-- A node of `clients_list`; its address names the channel too. -/
structure ClientNode where
  client : ℕ
  fd : ℕ
  app_uuid : Text
  deriving DecidableEq

/-- The agent, the open descriptors of its process, and `clients_list`. -/
structure Process (Code User : Type*) where
  world : World Code User
  descriptors : Finset ℕ
  clients_list : List ClientNode

/-- A datagram of one line, its sender, and the end of the attempt that it leads to. -/
structure Datagram where
  sender : ℕ
  line : Text
  outcome : Outcome

structure Traces where
  descriptors : Finset ℕ
  clients_list : List ClientNode
  channels_list : List (Loop.Channel Unit)
  allClients : Clients

variable {Code User : Type*}

namespace Process

def traces (p : Process Code User) : Traces :=
  ⟨p.descriptors, p.clients_list, p.world.channels.channels_list, p.world.user.registry.allClients⟩

def socketConnectAddr (outcome : Outcome) (remote : Endpoint) (p : Process Code User) :
    Process Code User × Option ℕ :=
  match outcome with
  | .socketFails => (p, none)
  -- `handle` is not closed
  | .connectFails fd => ({ p with descriptors := insert fd p.descriptors }, none)
  | .connects fd localEnd =>
    let client := p.world.channels.brk
    ({ world := newClient fd (connectedTo localEnd remote) p.world
       descriptors := insert fd p.descriptors
       clients_list := ⟨client, fd, ascii "init by SocketConnectAddr"⟩ :: p.clients_list }, some client)

def socketSetUuid (client : ℕ) (uuid : Text) (clients_list : List ClientNode) : List ClientNode :=
  clients_list.map fun n => if n.client = client then { n with app_uuid := uuid } else n

/-- `BroadcastReceive` on a datagram; `SocketSetData` does nothing to `NULL`. -/
def broadcastReceive (a : Setup Code User) (p : Process Code User) (d : Datagram) :
    Option (Process Code User) :=
  let r := Discovery.ivyParseDiscovery (cString d.line) 128 2048 ⟨0, 0, fun _ => 0, fun _ => 0⟩
  let appid := stringAt (Block.read r.2.appid 0 128) 0
  if r.1 = false ∨ r.2.version ≠ ivyMajorVersion ∨ appid = a.applicationID then some p
  else
    match p.socketConnectAddr d.outcome ⟨d.sender, r.2.port⟩ with
    | (p, none) => some p
    | (p, some app) => (serve a app p.world).map fun w =>
      { p with world := w, clients_list := socketSetUuid app appid p.clients_list }

/-- The line is a well-formed hello of this protocol, from another agent. -/
def Hello (a : Setup Code User) (line : Text) : Prop :=
  let r := Discovery.ivyParseDiscovery (cString line) 128 2048 ⟨0, 0, fun _ => 0, fun _ => 0⟩
  r.1 = true ∧ r.2.version = ivyMajorVersion ∧
    stringAt (Block.read r.2.appid 0 128) 0 ≠ a.applicationID

instance (a : Setup Code User) (line : Text) : Decidable (Hello a line) :=
  inferInstanceAs (Decidable (_ ∧ _))

/-- `socket()` returns a descriptor that is not open. -/
def Unopened (p : Process Code User) (d : Datagram) : Prop := ∀ fd ∈ d.outcome.handle, fd ∉ p.descriptors

instance (p : Process Code User) (d : Datagram) : Decidable (Unopened p d) :=
  inferInstanceAs (Decidable (∀ fd ∈ d.outcome.handle, fd ∉ p.descriptors))

/-- The traces after the datagrams are those of the attempts that succeed. -/
def OnlySuccesses (a : Setup Code User) (p : Process Code User) (ds : List Datagram) : Prop :=
  ∃ t u, Machine.run (broadcastReceive a) p ds = some t ∧
    Machine.run (broadcastReceive a) p (ds.filter (·.outcome.succeeds)) = some u ∧ t.traces = u.traces

/-- Each attempt that fails leaves the traces as they were. -/
def FailuresPass (a : Setup Code User) (p : Process Code User) (ds : List Datagram) : Prop :=
  Machine.Guarded (broadcastReceive a) (fun s d => d.outcome.succeeds = false →
    ∃ t, broadcastReceive a s d = some t ∧ t.traces = s.traces) p ds

/-- The address of a new connection is that of no record. -/
def Sound (p : Process Code User) : Prop :=
  ∀ c, p.world.channels.brk ≤ c → p.world.user.registry.allClients.find c = none

theorem sound_of_run {a : Setup Code User} {o : Opened User} {events : List (Loop.Event Env)}
    {s : Loop.State Unit (Data Code User)} (hrun : run a o events = some s) (descriptors : Finset ℕ)
    (clients_list : List ClientNode) : Sound ⟨s.world, descriptors, clients_list⟩ := by
  have hkept : ∀ c, Accounted s.world c :=
    (accounted_withstands a).always (accounted_ivyStart o) hrun
  intro c hc
  by_contra hlinked
  exact ((hkept c).fresh hc).2.1 hlinked

theorem serve_defined (a : Setup Code User) {w : World Code User} (fd : ℕ) (addresses : Addresses)
    (h : w.user.registry.allClients.find w.channels.brk = none) :
    ∃ w', serve a w.channels.brk (newClient fd addresses w) = some w' := by
  have hfind : (newClient fd addresses w).user.registry.allClients.find w.channels.brk = none := h
  have hsend : sendService a w.channels.brk (newClient fd addresses w).user ≠ none := by
    unfold sendService
    rw [step_connect hfind, Option.bind_some]
    apply countReady_defined
    have hrecords (d : Data Code User) : (handshake a w.channels.brk d).records = d.records := by
      obtain ⟨_, htold, -⟩ := chats_handshake a w.channels.brk d
      exact htold.records
    rw [hrecords]
    simp [Data.setRecord]
  obtain ⟨d, hd⟩ := Option.ne_none_iff_exists'.mp hsend
  exact ⟨_, congrArg (Option.map _) hd⟩

section
variable {a : Setup Code User} {p : Process Code User} {d : Datagram}

/-- A hello leads to an attempt. -/
theorem broadcastReceive_hello (h : Hello a d.line) : ∃ remote appid, broadcastReceive a p d =
    match p.socketConnectAddr d.outcome remote with
    | (p, none) => some p
    | (p, some app) => (serve a app p.world).map fun w =>
      { p with world := w, clients_list := socketSetUuid app appid p.clients_list } := by
  obtain ⟨hparse, hversion, happid⟩ := h
  refine ⟨_, _, if_neg ?_⟩
  rw [hparse]
  simp [hversion, happid]

theorem world_broadcastReceive {c : ℕ} (hc : p.world.user.memory c = some (.broadcast d.sender))
    (h : Hello a d.line) : (broadcastReceive a p d).map (·.world) =
      Agent.broadcastReceive a c { p.world with
        user := { p.world.user with connects := Stream'.cons d.outcome.connection p.world.user.connects } }
        d.line := by
  obtain ⟨hparse, hversion, happid⟩ := h
  unfold broadcastReceive Agent.broadcastReceive
  dsimp only
  rw [hc]
  dsimp only
  rw [if_neg (by simp [hparse, hversion, happid]), if_neg (by simp [hparse, hversion, happid])]
  cases d.outcome with
  | socketFails => rfl
  | connectFails fd => rfl
  | connects fd localEnd => exact (Option.map_map _ _ _).trans (congrFun Option.map_id _)

theorem broadcastReceive_socketFails (h : Hello a d.line) (houtcome : d.outcome = .socketFails) :
    broadcastReceive a p d = some p := by
  obtain ⟨remote, appid, heq⟩ := broadcastReceive_hello (p := p) h
  rw [heq, houtcome]
  rfl

theorem broadcastReceive_connectFails {fd : ℕ} (h : Hello a d.line) (houtcome : d.outcome = .connectFails fd) :
    broadcastReceive a p d = some { p with descriptors := insert fd p.descriptors } := by
  obtain ⟨remote, appid, heq⟩ := broadcastReceive_hello (p := p) h
  rw [heq, houtcome]
  rfl

theorem broadcastReceive_connects {fd : ℕ} {localEnd : Endpoint} (hp : p.Sound) (h : Hello a d.line)
    (houtcome : d.outcome = .connects fd localEnd) :
    ∃ t, broadcastReceive a p d = some t ∧ t.Sound ∧ t.descriptors = insert fd p.descriptors := by
  obtain ⟨remote, appid, heq⟩ := broadcastReceive_hello (p := p) h
  obtain ⟨w, hw⟩ := serve_defined a fd (connectedTo localEnd remote) (hp _ (Nat.le_refl _))
  have hconnects := serve_connects hw
  rw [heq, houtcome]
  refine ⟨_, congrArg (Option.map _) hw, fun c hc => ?_, rfl⟩
  have hc : w.channels.brk ≤ c := hc
  rw [hconnects.brk] at hc
  exact (hconnects.clients c).mpr ⟨by omega, hp c (by omega)⟩

theorem broadcastReceive_defined (hp : p.Sound) (h : Hello a d.line) :
    ∃ t, broadcastReceive a p d = some t ∧ t.Sound ∧
      t.descriptors = d.outcome.handle.elim p.descriptors (insert · p.descriptors) := by
  cases houtcome : d.outcome with
  | socketFails => exact ⟨p, broadcastReceive_socketFails h houtcome, hp, rfl⟩
  | connectFails fd => exact ⟨_, broadcastReceive_connectFails h houtcome, hp, rfl⟩
  | connects fd localEnd => exact broadcastReceive_connects hp h houtcome

end

private theorem card_opened_le (descriptors : Finset ℕ) (handle : Option ℕ) :
    (handle.elim descriptors (insert · descriptors)).card ≤
      descriptors.card + if handle.isSome then 1 else 0 := by
  cases handle with
  | none => exact Nat.le_refl _
  | some fd => exact Finset.card_insert_le fd descriptors

private theorem card_opened {descriptors : Finset ℕ} {handle : Option ℕ} (h : ∀ fd ∈ handle, fd ∉ descriptors) :
    (handle.elim descriptors (insert · descriptors)).card =
      descriptors.card + if handle.isSome then 1 else 0 := by
  cases handle with
  | none => rfl
  | some fd => exact Finset.card_insert_of_notMem (h fd rfl)

section
variable {a : Setup Code User} {p : Process Code User} {ds : List Datagram}

theorem card_descriptors_le (hp : p.Sound) (hhello : ∀ d ∈ ds, Hello a d.line) :
    ∃ t, Machine.run (broadcastReceive a) p ds = some t ∧
      t.descriptors.card ≤ p.descriptors.card + ds.countP (·.outcome.handle.isSome) := by
  have hguard : Machine.Guarded (broadcastReceive a) (fun _ d => Hello a d.line) p ds :=
    Machine.guarded_of_forall fun _ => hhello
  let I (past : List Datagram) (s : Process Code User) : Prop := s.Sound ∧
    s.descriptors.card ≤ p.descriptors.card + past.countP (·.outcome.handle.isSome)
  have hstep : ∀ past s d, I past s → Hello a d.line →
      ∃ t, broadcastReceive a s d = some t ∧ I (past ++ [d]) t := by
    intro past s d hs hd
    obtain ⟨t, ht, hsound, hdescriptors⟩ := broadcastReceive_defined hs.1 hd
    refine ⟨t, ht, hsound, ?_⟩
    have hle := card_opened_le s.descriptors d.outcome.handle
    have hold := hs.2
    rw [hdescriptors, List.countP_append, List.countP_singleton]
    omega
  obtain ⟨t, ht, -, hcard⟩ := Machine.run_history (I := I) ⟨hp, Nat.le_add_right _ _⟩ hstep hguard
  exact ⟨t, ht, hcard⟩

/-- The process keeps every descriptor that it gets. -/
theorem card_descriptors (hp : p.Sound) (hhello : ∀ d ∈ ds, Hello a d.line)
    (hfresh : Machine.Guarded (broadcastReceive a) Unopened p ds) :
    ∃ t, Machine.run (broadcastReceive a) p ds = some t ∧
      t.descriptors.card = p.descriptors.card + ds.countP (·.outcome.handle.isSome) := by
  let I (past : List Datagram) (s : Process Code User) : Prop := s.Sound ∧
    s.descriptors.card = p.descriptors.card + past.countP (·.outcome.handle.isSome)
  have hstep : ∀ past s d, I past s → Unopened s d ∧ Hello a d.line →
      ∃ t, broadcastReceive a s d = some t ∧ I (past ++ [d]) t := by
    intro past s d hs hd
    obtain ⟨t, ht, hsound, hdescriptors⟩ := broadcastReceive_defined hs.1 hd.2
    refine ⟨t, ht, hsound, ?_⟩
    have heq := card_opened hd.1
    have hold := hs.2
    rw [hdescriptors, List.countP_append, List.countP_singleton]
    omega
  obtain ⟨t, ht, -, hcard⟩ := Machine.run_history (I := I) ⟨hp, rfl⟩ hstep (hfresh.and_forall hhello)
  exact ⟨t, ht, hcard⟩

theorem run_filter_succeeds (hhello : ∀ d ∈ ds, Hello a d.line)
    (h : ∀ d ∈ ds, ∀ fd, d.outcome ≠ .connectFails fd) :
    Machine.run (broadcastReceive a) p (ds.filter (·.outcome.succeeds)) =
      Machine.run (broadcastReceive a) p ds := by
  induction ds generalizing p with
  | nil => rfl
  | cons d ds ih =>
    rw [List.forall_mem_cons] at hhello h
    cases houtcome : d.outcome with
    | socketFails =>
      rw [List.filter_cons_of_neg (by simp [houtcome, Outcome.succeeds]), ih hhello.2 h.2, Machine.run,
        broadcastReceive_socketFails hhello.1 houtcome]
      rfl
    | connectFails fd => exact absurd houtcome (h.1 fd)
    | connects fd localEnd =>
      rw [List.filter_cons_of_pos (by simp [houtcome, Outcome.succeeds])]
      exact congrArg (Option.bind _) (funext fun t => ih hhello.2 h.2)

theorem onlySuccesses_iff (hp : p.Sound) (hhello : ∀ d ∈ ds, Hello a d.line)
    (hfresh : Machine.Guarded (broadcastReceive a) Unopened p ds) :
    OnlySuccesses a p ds ↔ ∀ d ∈ ds, ∀ fd, d.outcome ≠ .connectFails fd := by
  obtain ⟨t, ht, hcard⟩ := card_descriptors hp hhello hfresh
  constructor
  · rintro ⟨t', u, ht', hu, htraces⟩
    obtain rfl := Option.some.inj (ht.symm.trans ht')
    have hhello' (d : Datagram) (hd : d ∈ ds.filter (·.outcome.succeeds)) : Hello a d.line :=
      hhello d (List.mem_of_mem_filter hd)
    obtain ⟨u', hu', hle⟩ := card_descriptors_le hp hhello'
    obtain rfl := Option.some.inj (hu.symm.trans hu')
    have hsame : t.descriptors = u.descriptors := congrArg Traces.descriptors htraces
    have hcount : ds.countP (·.outcome.handle.isSome) ≤
        (ds.filter (·.outcome.succeeds)).countP (·.outcome.handle.isSome) := by
      rw [hsame] at hcard
      omega
    intro d hd fd houtcome
    -- the filter drops the descriptor of this attempt
    obtain ⟨before, after, rfl⟩ := List.append_of_mem hd
    have hbefore := (List.filter_sublist (p := (·.outcome.succeeds)) (l := before)).countP_le
      (p := (·.outcome.handle.isSome))
    have hafter := (List.filter_sublist (p := (·.outcome.succeeds)) (l := after)).countP_le
      (p := (·.outcome.handle.isSome))
    rw [List.filter_append, List.filter_cons_of_neg (by simp [houtcome, Outcome.succeeds]),
      List.countP_append, List.countP_append, List.countP_cons_of_pos (by simp [houtcome, Outcome.handle])]
      at hcount
    omega
  · intro h
    exact ⟨t, t, ht, (run_filter_succeeds hhello h).trans ht, rfl⟩

theorem failuresPass_iff (hp : p.Sound) (hhello : ∀ d ∈ ds, Hello a d.line)
    (hfresh : Machine.Guarded (broadcastReceive a) Unopened p ds) :
    FailuresPass a p ds ↔ ∀ d ∈ ds, ∀ fd, d.outcome ≠ .connectFails fd := by
  constructor
  · intro h
    induction ds generalizing p with
    | nil => exact fun d hd => absurd hd List.not_mem_nil
    | cons d ds ih =>
      rw [List.forall_mem_cons] at hhello
      obtain ⟨t, ht, hsound, -⟩ := broadcastReceive_defined hp hhello.1
      refine List.forall_mem_cons.mpr ⟨fun fd houtcome => ?_, ih hsound hhello.2 (hfresh.2 t ht) (h.2 t ht)⟩
      have hunopened : fd ∉ p.descriptors := hfresh.1 fd (by rw [houtcome]; rfl)
      obtain ⟨u, hu, htraces⟩ := h.1 (by rw [houtcome]; rfl)
      rw [broadcastReceive_connectFails hhello.1 houtcome] at hu
      obtain rfl := Option.some.inj hu
      have hsame : insert fd p.descriptors = p.descriptors := congrArg Traces.descriptors htraces
      exact hunopened (hsame ▸ Finset.mem_insert_self fd p.descriptors)
  · intro h
    apply Machine.guarded_of_forall
    intro s d hd hfails
    cases houtcome : d.outcome with
    | socketFails => exact ⟨s, broadcastReceive_socketFails (hhello d hd) houtcome, rfl⟩
    | connectFails fd => exact absurd houtcome (h d hd fd)
    | connects fd localEnd => simp [houtcome, Outcome.succeeds] at hfails

/-- A sequence of hellos leaves the traces of the attempts that succeed, and every other attempt none,
exactly if no `connect()` fails. -/
theorem failures_leave_no_trace_iff (hp : p.Sound) (hhello : ∀ d ∈ ds, Hello a d.line)
    (hfresh : Machine.Guarded (broadcastReceive a) Unopened p ds) :
    OnlySuccesses a p ds ∧ FailuresPass a p ds ↔ ∀ d ∈ ds, ∀ fd, d.outcome ≠ .connectFails fd := by
  rw [onlySuccesses_iff hp hhello hfresh, failuresPass_iff hp hhello hfresh, and_self]

end

/-- The agent after `IvyStart`, with the standard descriptors open. -/
def justStarted : Process Unit Unit := ⟨ivyStart opened, {0, 1, 2, 3, 4}, [⟨1, 4, []⟩]⟩

theorem sound_justStarted : justStarted.Sound :=
  @sound_of_run _ _ plainAgent opened [] _ rfl _ _

/-- There is no socket for the first hello, and the host of the second accepts. -/
def noSocketThenAccepted : List Datagram :=
  [⟨2, ascii "3 5000 b B", .socketFails⟩, ⟨3, ascii "3 5000 c C", .connects 5 ⟨1, 50000⟩⟩]

theorem failures_leave_no_trace_example :
    OnlySuccesses plainAgent justStarted noSocketThenAccepted ∧
      FailuresPass plainAgent justStarted noSocketThenAccepted :=
  (failures_leave_no_trace_iff sound_justStarted (by decide) (by decide)).mpr
    (by simp [noSocketThenAccepted])

/-- The host of a hello refuses the connection, and the descriptor 5 stays open. -/
theorem refused_connection_leaks :
    let refused : List Datagram := [⟨2, ascii "3 5000 b B", .connectFails 5⟩]
    (∀ d ∈ refused, Hello plainAgent d.line) ∧
      Machine.Guarded (broadcastReceive plainAgent) Unopened justStarted refused ∧
      ¬ (OnlySuccesses plainAgent justStarted refused ∧ FailuresPass plainAgent justStarted refused) := by
  intro refused
  have hhello : ∀ d ∈ refused, Hello plainAgent d.line := by decide
  have hfresh : Machine.Guarded (broadcastReceive plainAgent) Unopened justStarted refused := by decide
  refine ⟨hhello, hfresh, fun h => ?_⟩
  have hnone := (failuresPass_iff sound_justStarted hhello hfresh).mp h.2
  exact hnone _ (List.mem_singleton_self _) 5 rfl

end Process
end Ivy.Agent
