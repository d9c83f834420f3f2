import Ivy.Lib.Machine
import Ivy.Loop.Channel

/-! `IvyMainLoop` and `IvyIdle`, one visit of a channel at a time. -/
namespace Ivy.Loop

/-- The channels and everything else that the handlers work on. -/
structure World (Data User : Type*) where
  channels : Channels Data
  user : User

/-- The functions behind the channels, the hooks and the timers. `Env` is what the system
gives them; `none` is a behaviour that C leaves undefined. -/
structure Program (Data User Env : Type*) where
  handleDelete : Env → Channel Data → World Data User → Option (World Data User)
  handleRead : Env → Channel Data → World Data User → Option (World Data User)
  handleWrite : Env → Channel Data → World Data User → Option (World Data User)
  hook : Env → World Data User → Option (World Data User)

/-- `rdset`, `wrset` and `exset`. -/
structure FdSets where
  rdset : Finset ℕ
  wrset : Finset ℕ
  exset : Finset ℕ

/-- Where the loop stands. `next` is what `IVY_LIST_EACH_SAFE` has still to visit. -/
inductive Pc
  | top
  | channelDefferedDelete (next : List ℕ)
  | select
  | selected (sets : FdSets)
  | ivyChannelHandleExcpt (next : List ℕ) (sets : FdSets)
  | ivyChannelHandleRead (next : List ℕ) (sets : FdSets)
  | ivyChannelHandleWrite (next : List ℕ) (sets : FdSets)

/-- What the loop calls. A descriptor is passed to `select` for the channels that have it. -/
inductive Call
  | handleDelete (channel : ℕ)
  | handleRead (channel : ℕ)
  | handleWrite (channel : ℕ)
  | select (fds : Finset ℕ) (channels : List (ℕ × ℕ))
  deriving DecidableEq

structure State (Data User : Type*) where
  world : World Data User
  pc : Pc
  calls : List Call

inductive Event (Env : Type*)
  /-- a turn of `IvyMainLoop`, or `IvyIdle` -/
  | enter (idle : Bool)
  | next (env : Env)
  /-- `BeforeSelect`, `AfterSelect` or a timer -/
  | hook (env : Env)
  /-- `none` is an error -/
  | select (ready : Option FdSets)

variable {Data User Env : Type*}

namespace State
variable (s : State Data User)

def ids : List ℕ := s.world.channels.ids

def log (call : Call) : State Data User := { s with calls := s.calls ++ [call] }

def goto (pc : Pc) : State Data User := { s with pc := pc }

/-- The world that a handler leaves. -/
def withWorld (w : Option (World Data User)) : Option (State Data User) :=
  w.map fun w => { s with world := w }

end State

section
variable (p : Program Data User Env) (env : Env)

/-- The handler runs before the channel is unlinked. -/
def callDelete (ch : Channel Data) (s : State Data User) : Option (State Data User) :=
  if ch.handle_delete then
    let s := s.log (.handleDelete ch.id)
    s.withWorld (p.handleDelete env ch s.world)
  else some s

def ivyChannelDelete (ch : Channel Data) (s : State Data User) : Option (State Data User) :=
  (callDelete p env ch s).map fun s =>
    { s with world := { s.world with channels := s.world.channels.unlink ch.id ch.fd } }

def visitDelete (ch : Channel Data) (s : State Data User) : Option (State Data User) :=
  if ch.tobedeleted then ivyChannelDelete p env ch s else some s

def visitExcpt (sets : FdSets) (ch : Channel Data) (s : State Data User) : Option (State Data User) :=
  if ch.fd ∈ sets.exset then callDelete p env ch s else some s

def visitRead (sets : FdSets) (ch : Channel Data) (s : State Data User) : Option (State Data User) :=
  if ch.fd ∈ sets.rdset then
    let s := s.log (.handleRead ch.id)
    s.withWorld (p.handleRead env ch s.world)
  else some s

def visitWrite (sets : FdSets) (ch : Channel Data) (s : State Data User) : Option (State Data User) :=
  if ch.fd ∈ sets.wrset then
    let s := s.log (.handleWrite ch.id)
    s.withWorld (p.handleWrite env ch s.world)
  else some s

/-- The body of a walk for one channel; one that was freed is not there to be read. -/
def visit (body : Channel Data → State Data User → Option (State Data User)) (c : ℕ) (pc : Pc)
    (s : State Data User) : Option (State Data User) :=
  (s.world.channels.find c).bind fun ch => (body ch s).map (·.goto pc)

theorem visit_cases {body : Channel Data → State Data User → Option (State Data User)} {c : ℕ} {pc : Pc}
    {s t : State Data User} (ht : visit body c pc s = some t) :
    ∃ ch u, s.world.channels.find c = some ch ∧ body ch s = some u ∧ t = u.goto pc := by
  obtain ⟨ch, hch, hmap⟩ := Option.bind_eq_some_iff.mp ht
  obtain ⟨u, hu, rfl⟩ := Option.map_eq_some_iff.mp hmap
  exact ⟨ch, u, hch, hu, rfl⟩

/-- The loop goes on from where it stands. -/
def advance (s : State Data User) : Option (State Data User) :=
  match s.pc with
  | .top => none
  | .channelDefferedDelete [] => some (s.goto .select)
  | .channelDefferedDelete (c :: next) => visit (visitDelete p env) c (.channelDefferedDelete next) s
  | .select => none
  | .selected sets => some (s.goto (.ivyChannelHandleExcpt s.ids sets))
  | .ivyChannelHandleExcpt [] sets => some (s.goto (.ivyChannelHandleRead s.ids sets))
  | .ivyChannelHandleExcpt (c :: next) sets =>
    visit (visitExcpt p env sets) c (.ivyChannelHandleExcpt next sets) s
  | .ivyChannelHandleRead [] sets => some (s.goto (.ivyChannelHandleWrite s.ids sets))
  | .ivyChannelHandleRead (c :: next) sets =>
    visit (visitRead p env sets) c (.ivyChannelHandleRead next sets) s
  | .ivyChannelHandleWrite [] _ => some (s.goto .top)
  | .ivyChannelHandleWrite (c :: next) sets =>
    visit (visitWrite p env sets) c (.ivyChannelHandleWrite next sets) s

end

def passed (l : Channels Data) : FdSets :=
  let below := fun fd => fd < l.highestFd
  ⟨l.open_fds.filter below, l.wrdy_fds.filter below, l.open_fds.filter below⟩

/-- `select` leaves in the sets what is ready; after an error the turn is over. -/
def select (ready : Option FdSets) (s : State Data User) : State Data User :=
  let sets := passed s.world.channels
  let s := s.log (.select (sets.rdset ∪ sets.wrset)
    (s.world.channels.channels_list.map fun ch => (ch.id, ch.fd)))
  match ready with
  | none => s.goto .top
  | some r => s.goto (.selected ⟨sets.rdset ∩ r.rdset, sets.wrset ∩ r.wrset, sets.exset ∩ r.exset⟩)

def step (p : Program Data User Env) (s : State Data User) : Event Env → Option (State Data User)
  | .enter idle =>
    match s.pc with
    | .top =>
      if idle || s.world.channels.mainLoop then some (s.goto (.channelDefferedDelete s.ids)) else none
    | _ => none
  | .next env => advance p env s
  | .hook env =>
    match s.pc with
    | .select => s.withWorld (p.hook env s.world)
    | .selected _ => s.withWorld (p.hook env s.world)
    | _ => none
  | .select ready =>
    match s.pc with
    | .select => some (select ready s)
    | _ => none

def started (w : World Data User) : State Data User := ⟨w, .top, []⟩

end Ivy.Loop
