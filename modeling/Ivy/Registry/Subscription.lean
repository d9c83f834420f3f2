import Ivy.Lib.Machine
import Ivy.Registry.Bindings
import Ivy.Registry.Coherence

/-! Subscriptions travel as lines from the agent that binds to the peer that will send.
The two agree whenever the link is empty, until a line announces an id that the peer
already holds under another regexp. -/
namespace Ivy.Registry

variable {Code : Type*}

/-- A subscriber, the bytes on their way to one peer, and the registry of that peer. -/
structure Link (Code : Type*) where
  bindings : Bindings
  connected : Bool
  wire : List UInt8
  peer : State Code

/-- What the two agents are: `client` is the peer's end of the connection. -/
structure Agents (Code : Type*) where
  compile : Compile Code
  client : ℕ
  applicationPort : ℤ
  applicationName : Text
  port : 0 ≤ applicationPort ∧ applicationPort < 2 ^ 16
  name : OneLine applicationName

/-- A call of the subscriber, or the peer reading a line. -/
inductive Action
  | bind (regexp : Text) (callback : Option ℕ) (user_data : ℕ)
  | change (id : ℤ) (regexp : Text)
  | unbind (id : ℤ)
  | connect
  | deliver

/-- `IVY_LIST_EACH (allClients, clnt ) MsgSendTo (clnt, …)` -/
def sendLine (s : Link Code) (line : Line) : Link Code :=
  if s.connected then { s with wire := s.wire ++ line.frame } else s

def ivyBindMsg (s : Link Code) (regexp : Text) (callback : Option ℕ) (user_data : ℕ) :
    Option (Link Code) :=
  if h : s.bindings.recv_id + 1 < 2 ^ 31 then
    some (sendLine { s with bindings := s.bindings.bind regexp callback user_data h }
      (.addRegexp s.bindings.recv_id regexp))
  else none

def ivyChangeMsg (s : Link Code) (id : ℤ) (regexp : Text) : Link Code :=
  sendLine { s with bindings := s.bindings.change id regexp } (.addRegexp id regexp)

def ivyUnbindMsg (s : Link Code) (id : ℤ) : Link Code :=
  let s := sendLine s (.delRegexp id [])
  { s with bindings := s.bindings.unbind id }

def serviceLines (a : Agents Code) (b : Bindings) : List Line :=
  .startRegexp a.applicationPort a.applicationName ::
    b.msg_recv.map (fun msg => .addRegexp msg.id msg.regexp) ++ [.endRegexp 0 []]

def sendService (a : Agents Code) (s : Link Code) : Option (Link Code) :=
  (step a.compile s.peer (.connect a.client)).map fun peer =>
    { s with
      connected := true
      wire := s.wire ++ (serviceLines a s.bindings).flatMap Line.frame
      peer := peer }

/-- The first line of a stream and what follows it. -/
def cutLine (wire : List UInt8) : Option (Text × List UInt8) :=
  if newline ∈ wire then
    some (wire.takeWhile (· ≠ newline), (wire.dropWhile (· ≠ newline)).tail)
  else none

/-- The peer's own bindings and cursors only matter to messages. -/
def readLine (line : Text) : Option Line := Line.ofRequest (receive false [] ⟨0, 0⟩ line).2

def deliver (a : Agents Code) (s : Link Code) : Option (Link Code) :=
  (cutLine s.wire).bind fun (line, wire) =>
    match readLine line with
    | none => some { s with wire := wire }
    | some line => (receiveLine a.compile s.peer a.client line).map fun peer =>
      { s with wire := wire, peer := peer }

def act (a : Agents Code) (s : Link Code) : Action → Option (Link Code)
  | .bind regexp callback user_data => ivyBindMsg s regexp callback user_data
  | .change id regexp => some (ivyChangeMsg s id regexp)
  | .unbind id => some (ivyUnbindMsg s id)
  | .connect => sendService a s
  | .deliver => deliver a s

/-- A subscriber without bindings or connection. -/
def unconnected (peer : State Code) : Link Code := ⟨.empty, false, [], peer⟩

/-- What the callers owe: regexps of one line, bindings that exist, fewer than `INT_MAX` of
them, one connection, and a delivery only of a line in flight. -/
def Proper (s : Link Code) : Action → Prop
  | .bind regexp _ _ => OneLine regexp ∧ s.bindings.recv_id + 1 < 2 ^ 31
  | .change id regexp => OneLine regexp ∧ id ∈ s.bindings.msg_recv.map (·.id)
  | .unbind id => id ∈ s.bindings.msg_recv.map (·.id)
  | .connect => s.connected = false
  | .deliver => newline ∈ s.wire

def sources (s : State Code) (c : ℕ) (id : ℤ) : List GlobReg :=
  (s.allClients.srcs c).filter fun regxpSrc => regxpSrc.id = id

/-- The condition on an announcement: the peer has no regexp for the id, or this one only and
the id is the first that it lists for the connection. -/
def Announces (s : State Code) (c : ℕ) (id : ℤ) (regexp : Text) : Prop :=
  sources s c id = [] ∨
    ((∀ n ∈ sources s c id, n.str_regexp = regexp) ∧ s.messSndByRegexp.lists regexp c id = true)

def Line.Fits (s : State Code) (c : ℕ) : Line → Prop
  | .addRegexp id regexp => Announces s c id regexp
  | _ => True

def Unambiguous (a : Agents Code) (s : Link Code) : Action → Prop
  | .deliver => ∀ r ∈ cutLine s.wire, ∀ line ∈ readLine r.1, line.Fits s.peer a.client
  | _ => True

instance (s : State Code) (c : ℕ) (id : ℤ) (regexp : Text) : Decidable (Announces s c id regexp) :=
  inferInstanceAs (Decidable (_ ∨ _))

instance (s : State Code) (c : ℕ) : ∀ line : Line, Decidable (line.Fits s c)
  | .addRegexp id regexp => inferInstanceAs (Decidable (Announces s c id regexp))
  | .delRegexp _ _ => .isTrue trivial
  | .startRegexp _ _ => .isTrue trivial
  | .endRegexp _ _ => .isTrue trivial

instance (s : Link Code) : ∀ e, Decidable (Proper s e)
  | .bind _ _ _ => inferInstanceAs (Decidable (_ ∧ _))
  | .change _ _ => inferInstanceAs (Decidable (_ ∧ _))
  | .unbind _ => inferInstanceAs (Decidable (_ ∈ _))
  | .connect => inferInstanceAs (Decidable (_ = _))
  | .deliver => inferInstanceAs (Decidable (_ ∈ _))

instance (a : Agents Code) (s : Link Code) : ∀ e, Decidable (Unambiguous a s e)
  | .bind _ _ _ => .isTrue trivial
  | .change _ _ => .isTrue trivial
  | .unbind _ => .isTrue trivial
  | .connect => .isTrue trivial
  | .deliver => inferInstanceAs (Decidable (∀ r ∈ cutLine s.wire, ∀ line ∈ readLine r.1, _))

/-- The peer holds exactly the bindings of a map for a connection. -/
structure Holds (s : State Code) (c : ℕ) (m : ℤ → Option Text) : Prop where
  open_ : s.allClients.find c ≠ none
  count : ∀ id r, (s.messSndByRegexp.subs r).count ⟨c, id⟩ = if m id = some r then 1 else 0
  srcs : ∀ id r, ⟨r, id⟩ ∈ s.allClients.srcs c ↔ m id = some r

/-- What a line makes of the bindings of its sender. -/
def Line.apply (m : ℤ → Option Text) : Line → ℤ → Option Text
  | .addRegexp id regexp => Function.update m id (some regexp)
  | .delRegexp id _ => Function.update m id none
  | .startRegexp _ _ => m
  | .endRegexp _ _ => m

theorem count_cons_subscriber (c : ℕ) (id id' : ℤ) (l : List Subscriber) :
    (⟨c, id⟩ :: l : List Subscriber).count ⟨c, id'⟩ =
      l.count ⟨c, id'⟩ + if id = id' then 1 else 0 := by
  rw [List.count_cons]
  simp

theorem count_filter_others (c : ℕ) (id id' : ℤ) (l : List Subscriber) :
    (l.filter (others c id)).count ⟨c, id'⟩ = if id = id' then 0 else l.count ⟨c, id'⟩ := by
  split_ifs with hid
  · rw [List.count_eq_zero, mem_filter_others]
    exact fun h => h.2 ⟨rfl, hid.symm⟩
  · exact List.count_filter (others_eq_true.mpr (by simpa using Ne.symm hid))

section
variable {s : State Code} {c : ℕ} {m : ℤ → Option Text} (h : Holds s c m)
include h

theorem Holds.mem_subs {id : ℤ} {r : Text} :
    ⟨c, id⟩ ∈ s.messSndByRegexp.subs r ↔ m id = some r := by
  rw [← List.count_pos_iff, h.count]
  split_ifs with hm <;> simp [hm]

theorem Holds.mem_sources {id : ℤ} {n : GlobReg} :
    n ∈ sources s c id ↔ n.id = id ∧ m id = some n.str_regexp := by
  rw [sources, List.mem_filter, decide_eq_true_eq, and_comm]
  refine and_congr_right fun hid => ?_
  subst hid
  exact h.srcs n.id n.str_regexp

theorem Holds.sources_eq_nil {id : ℤ} : sources s c id = [] ↔ m id = none := by
  rw [List.eq_nil_iff_forall_not_mem]
  constructor
  · intro hnone
    by_contra hm
    obtain ⟨r, hr⟩ := Option.ne_none_iff_exists'.mp hm
    exact hnone ⟨r, id⟩ (h.mem_sources.mpr ⟨rfl, hr⟩)
  · intro hm n hn
    rw [h.mem_sources, hm] at hn
    exact absurd hn.2 (by simp)

/-- The condition, told by what the peer holds. -/
theorem Holds.announces_iff {id : ℤ} {regexp : Text} :
    Announces s c id regexp ↔
      m id = none ∨ (m id = some regexp ∧ s.messSndByRegexp.lists regexp c id = true) := by
  rw [Announces, h.sources_eq_nil]
  refine or_congr_right' fun hm => and_congr_left fun _ => ?_
  obtain ⟨r, hr⟩ := Option.ne_none_iff_exists'.mp hm
  constructor
  · intro hall
    rw [hr]
    exact congrArg some (hall ⟨r, id⟩ (h.mem_sources.mpr ⟨rfl, hr⟩))
  · intro hm n hn
    rw [h.mem_sources, hm] at hn
    exact (Option.some.inj hn.2).symm

theorem Holds.connected {t : State Code} (hstatus : ∀ c, t.allClients.status c = s.allClients.status c) :
    t.allClients.find c ≠ none := by
  rw [Ne, ← Clients.status_eq_none, hstatus, Clients.status_eq_none]
  exact h.open_

theorem Holds.change {t : State Code} {id : ℤ} {regexp : Text} (hm : m id = some regexp)
    (hbecomes : Becomes s t
      (fun r => if regexp = r then ⟨c, id⟩ :: (s.messSndByRegexp.subs r).filter (others c id)
        else s.messSndByRegexp.subs r)
      (fun c' => if c = c' then (s.allClients.srcs c').map (renameSource id regexp)
        else s.allClients.srcs c')) : Holds t c m where
  open_ := h.connected hbecomes.status
  count id' r := by
    rw [hbecomes.subs, ← h.count]
    split_ifs with hr
    · subst hr
      rw [count_cons_subscriber, count_filter_others]
      split_ifs with hid
      · rw [h.count, ← hid, if_pos hm]
      · rfl
    · rfl
  srcs id' r := by
    have hone : ∀ n ∈ s.allClients.srcs c, n.id = id → n.str_regexp = regexp := by
      rintro n hn rfl
      have hn := (h.srcs n.id n.str_regexp).mp hn
      exact Option.some.inj (hn.symm.trans hm)
    rw [hbecomes.srcs, if_pos rfl, map_renameSource hone]
    exact h.srcs id' r

/-- A subscription that is added is right exactly if the id was free. -/
theorem Holds.add_iff {t : State Code} {id : ℤ} {regexp : Text}
    (hbecomes : Becomes s t
      (fun r => if regexp = r then ⟨c, id⟩ :: s.messSndByRegexp.subs r else s.messSndByRegexp.subs r)
      (fun c' => if c = c' then ⟨regexp, id⟩ :: s.allClients.srcs c' else s.allClients.srcs c')) :
    Holds t c (Function.update m id (some regexp)) ↔ m id = none := by
  have hcount (id' : ℤ) (r : Text) : (t.messSndByRegexp.subs r).count ⟨c, id'⟩ =
      (if m id' = some r then 1 else 0) + if regexp = r ∧ id = id' then 1 else 0 := by
    rw [hbecomes.subs, ← h.count]
    by_cases hr : regexp = r
    · subst hr
      rw [if_pos rfl, count_cons_subscriber]
      simp
    · simp [hr]
  constructor
  · intro ht
    by_contra hm
    obtain ⟨r, hr⟩ := Option.ne_none_iff_exists'.mp hm
    have hold := ht.count id r
    rw [hcount, if_pos hr, Function.update_self] at hold
    by_cases hreg : regexp = r <;> simp [hreg] at hold
  · intro hm
    refine ⟨h.connected hbecomes.status, fun id' r => ?_, fun id' r => ?_⟩
    · rw [hcount, Function.update_apply]
      by_cases hid : id' = id
      · subst hid
        simp [hm]
      · simp [hid, Ne.symm hid]
    · rw [hbecomes.srcs, if_pos rfl, List.mem_cons, h.srcs, Function.update_apply]
      by_cases hid : id' = id
      · subst hid
        simp [hm, eq_comm]
      · simp [hid]

/-- An announcement that is read keeps the peer in agreement exactly under `Announces`. -/
theorem Holds.announce_iff {compile : Compile Code} (id : ℤ) (regexp : Text) :
    (∃ t, receiveLine compile s c (.addRegexp id regexp) = some t ∧
      Holds t c (Function.update m id (some regexp))) ↔ Announces s c id regexp := by
  rw [h.announces_iff]
  cases hlists : s.messSndByRegexp.lists regexp c id with
  | true =>
    have hm : m id = some regexp := h.mem_subs.mp (mem_subs_of_lists hlists)
    obtain ⟨t, ht, hbecomes⟩ := receiveLine_change compile h.open_ hlists
    refine iff_of_true ⟨t, ht, ?_⟩ (.inr ⟨hm, rfl⟩)
    rw [← hm, Function.update_eq_self]
    exact h.change hm hbecomes
  | false =>
    obtain ⟨t, ht, hbecomes⟩ := receiveLine_add compile h.open_ hlists
    rw [ht, ← h.add_iff hbecomes]
    simp

theorem Holds.retract {compile : Compile Code} (id : ℤ) (arg : Text) :
    ∃ t, receiveLine compile s c (.delRegexp id arg) = some t ∧
      Holds t c (Function.update m id none) := by
  obtain ⟨t, ht, hbecomes⟩ := receiveLine_del compile h.open_ id arg
  refine ⟨t, ht, h.connected hbecomes.status, fun id' r => ?_, fun id' r => ?_⟩
  · rw [hbecomes.subs, Function.update_apply]
    by_cases hid : id' = id
    · subst hid
      have hnone : ¬ (none : Option Text) = some r := by simp
      rw [if_pos rfl, if_neg hnone]
      split_ifs with hm
      · rw [count_filter_others, if_pos rfl]
      · rw [h.srcs] at hm
        rw [h.count, if_neg hm]
    · rw [if_neg hid, ← h.count]
      split_ifs
      · rw [count_filter_others, if_neg (Ne.symm hid)]
      · rfl
  · rw [hbecomes.srcs, if_pos rfl, List.mem_filter, h.srcs, Function.update_apply]
    by_cases hid : id' = id <;> simp [hid]

end
end Ivy.Registry
