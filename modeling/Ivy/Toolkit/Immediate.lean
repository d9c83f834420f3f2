import Ivy.Agent.Duplicates
import Ivy.Agent.Lifetime
import Ivy.Toolkit.Interface

/-! `ivyglibloop.c` and `ivyxtloop.c`: main loops whose `IvyChannelRemove` deletes at once. -/
namespace Ivy.Toolkit
open Socket hiding socketClose handleSocket
open Registry Ivy.Agent

variable {Code User : Type*}

/-- The sources `id_read`, `id_delete` and `id_write` that a channel has in the toolkit. -/
structure Sources where
  read : Bool
  delete : Bool
  write : Bool
  deriving DecidableEq, Repr

/-- The state of the toolkit and of the agent. Channels are never freed; those from `brk` on are unused. -/
structure Watched (Code User : Type*) where
  brk : ℕ
  sources : ℕ → Sources
  user : Data Code User

/-- `DeleteSocket` and `DeleteServerSocket`; no channel plays a part in them. -/
def deleteSocket (a : Setup Code User) (c : ℕ) (d : Data Code User) : Option (Data Code User) :=
  (Agent.deleteSocket a c ⟨Loop.ivyChannelInit, d⟩).map (·.user)

/-- `IvyChannelRemove` calls the handler and removes two of the sources. -/
def toolkit (a : Setup Code User) : MainLoop Code User (Watched Code User) where
  user w := w.user
  withUser w d := { w with user := d }
  ivyChannelAdd _ w :=
    (w.brk, { w with brk := w.brk + 1, sources := Function.update w.sources w.brk ⟨true, true, false⟩ })
  ivyChannelRemove c w := (deleteSocket a c w.user).map fun d =>
    { w with user := d, sources :=
      Function.update w.sources c { w.sources c with read := false, delete := false } }
  ivyChannelClearWritableEvent c w :=
    { w with sources := Function.update w.sources c { w.sources c with write := false } }
  ivyChannelStop w := w

/-- A source of a channel fires, or an event of the application, whose sends may congest clients. -/
inductive Event
  | read (c : ℕ) (env : Env)
  | delete (c : ℕ)
  | write (c : ℕ) (env : Env)
  | hook (env : Env)

def congest (w : Watched Code User) (c : ℕ) : Watched Code User :=
  if w.user.Linked c then
    { w with sources := Function.update w.sources c { w.sources c with write := true } }
  else w

def hook (a : Setup Code User) (congested : List ℕ) (w : Watched Code User) : Watched Code User :=
  let w := congested.foldl congest w
  { w with user := w.user.callback a .hook }

def Fires (w : Watched Code User) : Event → Prop
  | .read c _ => (w.sources c).read = true
  | .delete c => (w.sources c).delete = true
  | .write c _ => (w.sources c).write = true
  | .hook _ => True

instance (w : Watched Code User) : ∀ e, Decidable (Fires w e)
  | .read _ _ | .delete _ | .write _ _ => inferInstanceAs (Decidable (_ = true))
  | .hook _ => .isTrue trivial

/-- `IvyGlibHandleChannelRead`, `IvyGlibHandleChannelDelete` and `IvyGlibHandleChannelWrite`; the second one
leaves the sources as they are. -/
def handle (a : Setup Code User) (w : Watched Code User) : Event → Option (Watched Code User)
  | .read c env => (toolkit a).handleRead a c env w
  | .delete c => (deleteSocket a c w.user).map fun d => { w with user := d }
  | .write c env => (toolkit a).handleWrite a c env w
  | .hook env => some (hook a env.congested w)

def step (a : Setup Code User) (w : Watched Code User) (e : Event) : Option (Watched Code User) :=
  if Fires w e then handle a w e else none

/-- What `IvyStart` opens: the server and the broadcast socket. -/
def started (o : Opened User) : Watched Code User where
  brk := 2
  sources c := if c < 2 then ⟨true, true, false⟩ else ⟨false, false, false⟩
  user := (Agent.ivyStart o).user

/-- The lines for which `Receive` closes a connection, if `target` is the one that a second client of an
application leads to. -/
def removes (target : Option ℕ) : Request → Bool
  | .badFormat | .control .bye _ _ | .control .die _ _ => true
  | .control .startRegexp _ _ => target.isSome
  | _ => false

def Closes (a : Setup Code User) (c : ℕ) (d : Data Code User) (line : Text) : Prop :=
  removes (d.target a.order c) (d.request c line) = true

/-- `readyToSend` can be counted up. -/
def CanCount (c : ℕ) (d : Data Code User) : Request → Prop
  | .control .endRegexp _ _ => (d.records c).readyToSend + 1 < 2 ^ 31
  | _ => True

instance (a : Setup Code User) (c : ℕ) (d : Data Code User) (line : Text) : Decidable (Closes a c d line) :=
  inferInstanceAs (Decidable (_ = _))

instance (c : ℕ) (d : Data Code User) (r : Request) : Decidable (CanCount c d r) := by
  unfold CanCount
  split <;> infer_instance

/-- The walk of `delOneClient` over the regexps of the client reads no freed node. -/
def Walks (d : Data Code User) (c : ℕ) : Prop :=
  ∀ clnt ∈ d.registry.allClients.find c, SafeWalk (clnt.srcRegList.map GlobReg.id)

instance (d : Data Code User) (c : ℕ) : Decidable (Walks d c) := inferInstanceAs (Decidable (∀ _ ∈ _, _))

section Deletions
variable {a : Setup Code User} {c : ℕ} {d d' : Data Code User}

theorem delOneClient_defined (s : Registry.State Code) (c : ℕ) :
    delOneClient s c ≠ none ↔ ∀ clnt ∈ s.allClients.find c, SafeWalk (clnt.srcRegList.map GlobReg.id) := by
  cases hfind : s.allClients.find c with
  | none =>
    rw [delOneClient, delClientNode, hfind]
    simp
  | some clnt =>
    by_cases hwalk : SafeWalk (clnt.srcRegList.map GlobReg.id)
    · obtain ⟨t, ht, -⟩ := delOneClient_spec hfind hwalk
      simp [ht, hwalk]
    · simp [delOneClient_none hfind hwalk, hwalk]

theorem walks_of_unlinked (h : ¬ d.Linked c) : Walks d c := by
  have hnone : d.registry.allClients.find c = none := not_not.mp h
  intro clnt hclnt
  rw [hnone] at hclnt
  exact absurd hclnt (Option.not_mem_none clnt)

/-- A deletion is defined if the socket is there and, for a client, the walk is safe. -/
theorem deleteSocket_defined (hclient : d.Linked c → d.sock c ≠ none) :
    deleteSocket a c d ≠ none ↔ d.memory c ≠ none ∧ Walks d c := by
  have hwalks (hsock : d.sock c = none) : Walks d c := walks_of_unlinked fun hlinked => hclient hlinked hsock
  unfold deleteSocket Agent.deleteSocket
  dsimp only
  cases hmemory : d.memory c with
  | none => simp
  | some owner =>
    cases owner with
    | server => simpa using hwalks (by rw [Data.sock, hmemory])
    | broadcast sender => simpa using hwalks (by rw [Data.sock, hmemory])
    | client sock =>
      have hdefined := delOneClient_defined d.registry c
      simp only [ne_eq, Option.map_eq_none_iff, reduceCtorEq, not_false_eq_true, true_and]
      exact (not_congr Option.map_eq_none_iff).trans hdefined

/-- The channels of the main loop play no part. -/
theorem deletes_of_deleteSocket (h : deleteSocket a c d = some d') (channels : Loop.Channels Unit) :
    Deletes c ⟨channels, d⟩ ⟨channels, d'⟩ := by
  apply deleteSocket_deletes (a := a)
  unfold deleteSocket Agent.deleteSocket at h
  unfold Agent.deleteSocket
  dsimp only at h ⊢
  cases hmemory : d.memory c with
  | none => simp [hmemory] at h
  | some owner =>
    cases owner with
    | client sock =>
      simp only [hmemory, Option.map_map] at h
      obtain ⟨e, he, rfl⟩ := Option.map_eq_some_iff.mp h
      simp [he]
    | server | broadcast =>
      simp only [hmemory, Option.map_some, Option.some.injEq] at h
      simp [h]

end Deletions

end Ivy.Toolkit
