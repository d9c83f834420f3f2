import Ivy.Agent.Sockets

/-! `CheckConnected` on the first `StartRegexp` of a connection. It looks for the port that is recorded
of the connection, not for the port that the line announces. -/
namespace Ivy.Agent
open Socket Registry

variable {Code User : Type*}

namespace Data
variable (d : Data Code User)

def addresses (c : ℕ) : Option Addresses := (d.sock c).map (·.addresses)

def remoteHost (c : ℕ) : Option ℕ := (d.addresses c).map (·.remoteEnd.host)

end Data

def Open (w : World Code User) (c : ℕ) : Prop := (w.channels.find c).any (!·.tobedeleted) = true

instance (w : World Code User) (c : ℕ) : Decidable (Open w c) := inferInstanceAs (Decidable (_ = true))

/-- The open clients of a host that announced the port. -/
def peers (w : World Code User) (host : Option ℕ) (port : UInt16) : List ℕ :=
  w.user.clients.filter fun c =>
    Open w c ∧ w.user.remoteHost c = host ∧ (w.user.records c).app_port = port

def Entry.starts (c : ℕ) : Entry Code → Bool
  | .receive client (.control .startRegexp _ _) => client = c
  | _ => false

/-- The port that a first `StartRegexp` announces, if it is not zero. -/
def firstStart (w : World Code User) (c : ℕ) (line : Text) : Option UInt16 :=
  match w.user.request c line with
  | .control .startRegexp id _ =>
    let port := UInt16.ofInt id
    if w.user.Served c ∧ w.user.log.any (·.starts c) = false ∧ port ≠ 0 then some port else none
  | _ => none

/-- After a first `StartRegexp` there is one open client of the application. -/
def OneClient (a : Setup Code User) (c : ℕ) (w : World Code User) (line : Text) : Prop :=
  ∀ port ∈ firstStart w c line, ∀ w' ∈ receive a c w line,
    (peers w' (w'.user.remoteHost c) port).length ≤ 1

instance (a : Setup Code User) (c : ℕ) (w : World Code User) (line : Text) : Decidable (OneClient a c w line) :=
  -- not by a search through all ports
  @Option.decidableForallMem UInt16 _ (fun _ => inferInstance) (firstStart w c line)

def announces (c : ℕ) (port : UInt16) (w : World Code User) : World Code User :=
  { w with user := w.user.setRecord c { w.user.records c with app_port := port } }

/-- Another client announced the port that is recorded of `c`, from the host that is recorded of it. -/
structure Clashes (d : Data Code User) (c : ℕ) (clnt : Addresses) (o : ℕ) (other : Addresses) : Prop where
  ne : o ≠ c
  addresses : d.addresses o = some other
  app_port : clnt.fromAddr.port = (d.records o).app_port
  host : other.fromAddr.host = clnt.fromAddr.host

/-- The one to close of `c` and the first client that clashes with it. -/
def Yields (order : ByteOrder) (d : Data Code User) (c target : ℕ) : Prop :=
  ∃ clnt o other before after, d.addresses c = some clnt ∧ clnt.fromAddr.port ≠ 0 ∧
    d.clients = before ++ o :: after ∧ (∀ b ∈ before, ∀ x, ¬ Clashes d c clnt b x) ∧
    Clashes d c clnt o other ∧ target = if portRank order other > portRank order clnt then o else c

/-- The line meets no second client, or exactly one, and one of the two is to be closed. -/
def Settled (a : Setup Code User) (c : ℕ) (w : World Code User) (line : Text) : Prop :=
  ∀ port ∈ firstStart w c line,
    let same := peers (announces c port w) (w.user.remoteHost c) port
    same.length ≤ 1 ∨ (same.length = 2 ∧ ∃ target ∈ same, Yields a.order (announces c port w).user c target)

section Target
variable {d : Data Code User} {c : ℕ}

theorem clashes_iff {clnt : Addresses} {o : ℕ} :
    (∃ other, Clashes d c clnt o other) ↔ (o ≠ c && clnt.fromAddr.port = (d.records o).app_port &&
      (d.sock o).any fun sock => sock.addresses.fromAddr.host = clnt.fromAddr.host) = true := by
  simp only [Bool.and_eq_true, decide_eq_true_eq]
  constructor
  · rintro ⟨other, hne, haddresses, hport, hhost⟩
    obtain ⟨sock, hsock, rfl⟩ := Option.map_eq_some_iff.mp haddresses
    refine ⟨⟨hne, hport⟩, ?_⟩
    rw [hsock]
    simpa using hhost
  · rintro ⟨⟨hne, hport⟩, hsame⟩
    cases hsock : d.sock o with
    | none => simp [hsock] at hsame
    | some sock =>
      rw [hsock] at hsame
      exact ⟨sock.addresses, hne, by simp [Data.addresses, hsock], hport, by simpa using hsame⟩

theorem checkConnected_eq_some {clnt : Addresses} {o : ℕ} : d.checkConnected c clnt = some o ↔
    clnt.fromAddr.port ≠ 0 ∧ ∃ before after, d.clients = before ++ o :: after ∧
      (∀ b ∈ before, ∀ x, ¬ Clashes d c clnt b x) ∧ ∃ other, Clashes d c clnt o other := by
  rw [checkConnected_eq]
  split_ifs with hport
  · simp [hport]
  · rw [List.find?_eq_some_iff_append, ← clashes_iff, and_comm, and_iff_right hport]
    have hfree (b : ℕ) : (∀ x, ¬ Clashes d c clnt b x) ↔
        (!(b ≠ c && clnt.fromAddr.port = (d.records b).app_port &&
          (d.sock b).any fun sock => sock.addresses.fromAddr.host = clnt.fromAddr.host)) = true := by
      rw [Bool.not_eq_true', ← Bool.not_eq_true, ← clashes_iff, not_exists]
    simp only [hfree]
    constructor
    · rintro ⟨⟨before, after, heq, hbefore⟩, hother⟩
      exact ⟨before, after, heq, hbefore, hother⟩
    · rintro ⟨before, after, heq, hbefore, hother⟩
      exact ⟨⟨before, after, heq, hbefore⟩, hother⟩

/-- The branch that finds another client closes the one that yields. -/
theorem target_eq_some {order : ByteOrder} {target : ℕ} :
    d.target order c = some target ↔ Yields order d c target := by
  simp only [Data.target, Option.bind_eq_some_iff, Option.map_eq_some_iff, checkConnected_eq_some]
  constructor
  · rintro ⟨clnt, hclnt, o, ⟨hport, before, after, heq, hbefore, other, hclash⟩, sock, hsock, rfl⟩
    have hother : other = sock.addresses := by
      have haddresses := hclash.addresses
      simpa [Data.addresses, hsock] using haddresses.symm
    subst hother
    refine ⟨clnt.addresses, o, sock.addresses, before, after, ?_, hport, heq, hbefore, hclash, ?_⟩
    · simp [Data.addresses, hclnt]
    · simp [closesOther]
  · rintro ⟨clnt, o, other, before, after, hclnt, hport, heq, hbefore, hclash, rfl⟩
    obtain ⟨sock, hsock, rfl⟩ := Option.map_eq_some_iff.mp hclnt
    obtain ⟨sock', hsock', rfl⟩ := Option.map_eq_some_iff.mp hclash.addresses
    refine ⟨sock, hsock, o, ⟨hport, before, after, heq, hbefore, _, hclash⟩, sock', hsock', ?_⟩
    simp [closesOther]

end Target

section Lines
variable {a : Setup Code User} {c : ℕ} {w : World Code User} {line : Text}

theorem open_ivyChannelRemove {target o : ℕ} :
    Open { w with channels := w.channels.ivyChannelRemove target } o ↔ Open w o ∧ o ≠ target := by
  have hfind : (w.channels.ivyChannelRemove target).find o =
      (w.channels.find o).map (Loop.Channels.mark target) := Keyed.find_map (Loop.Channels.id_mark target)
  rw [Open, hfind, Open]
  cases hch : w.channels.find o with
  | none => simp
  | some ch =>
    have hid : ch.id = o := Keyed.find_key hch
    by_cases ho : o = target <;> simp [Loop.Channels.mark, hid, ho]

/-- What a `StartRegexp` leaves, but for the channel that it marks. -/
theorem receive_startRegexp {id : ℤ} {arg : Text} (hserved : w.user.Served c)
    (hrequest : w.user.request c line = .control .startRegexp id arg) :
    ∃ w', receive a c w line = some w' ∧ w'.user.clients = w.user.clients ∧ w'.user.memory = w.user.memory ∧
      (∀ o, (w'.user.records o).app_port = ((announces c (UInt16.ofInt id) w).user.records o).app_port) ∧
      w'.channels = (((announces c (UInt16.ofInt id) w).user.target a.order c).elim w.channels
        w.channels.ivyChannelRemove) := by
  have hlinked : (setId w.user.registry c id).allClients.find c ≠ none :=
    fun hnone => hserved.2 ((sameClients_setId id c).mp hnone)
  obtain ⟨reg, hreg, hclients⟩ := clients_startRegexp a.compile id arg hlinked
  have hclients : reg.allClients.list.map (·.client) = w.user.clients :=
    hclients.trans (clients_modify w.user.registry.allClients c _)
  let v := setClientId c id { w with user := w.user.record (.receive c (.control .startRegexp id arg)) }
  have hreceive : receive a c w line = receiveStartRegexp a c id arg v := by
    rw [receive, if_pos hserved, hrequest]
    rfl
  have hreg : receiveLine a.compile v.user.registry c (.startRegexp id arg) = some reg := hreg
  rw [hreceive, receiveStartRegexp, hreg, Option.map_some]
  refine ⟨_, rfl, ?_⟩
  dsimp only
  generalize hd : Data.setRecord _ c _ = d
  have hrecords : d.records = (announces c (UInt16.ofInt id) w).user.records := by
    subst hd
    rfl
  have hclients : d.clients = w.user.clients := by
    subst hd
    exact hclients
  have hmemory : d.memory = w.user.memory := by
    subst hd
    rfl
  have htarget : d.target a.order c = (announces c (UInt16.ofInt id) w).user.target a.order c :=
    target_congr (d := (announces c (UInt16.ofInt id) w).user) hclients hmemory hrecords a.order
  rw [htarget]
  cases (announces c (UInt16.ofInt id) w).user.target a.order c with
  | none => exact ⟨hclients, hmemory, fun o => by rw [hrecords], rfl⟩
  | some target =>
    have htold := told_msgSendTo a d target .error 0 (ascii "Application already connected")
    refine ⟨?_, htold.memory.trans hmemory, fun o => ?_, rfl⟩
    · have hlist := congrArg (fun r : Registry.State Code => r.allClients.list.map (·.client)) htold.registry
      exact hlist.trans hclients
    · rw [← hrecords, ← htold.records]
      by_cases ho : o = target <;> simp [socketClose, Data.setRecord, ho]

/-- The target is taken from the clients that are open. -/
theorem peers_receive {id : ℤ} {arg : Text} (hserved : w.user.Served c)
    (hrequest : w.user.request c line = .control .startRegexp id arg) :
    ∃ w', receive a c w line = some w' ∧ w'.user.remoteHost c = w.user.remoteHost c ∧ ∀ host port,
      peers w' host port = (peers (announces c (UInt16.ofInt id) w) host port).filter
        fun o => (announces c (UInt16.ofInt id) w).user.target a.order c ≠ some o := by
  obtain ⟨w', hw, hclients, hmemory, hports, hchannels⟩ := receive_startRegexp hserved hrequest
  have hhost (o : ℕ) : w'.user.remoteHost o = w.user.remoteHost o := by
    simp only [Data.remoteHost, Data.addresses, Data.sock, hmemory]
  refine ⟨w', hw, hhost c, fun host port => ?_⟩
  unfold peers
  rw [hclients, List.filter_filter]
  refine List.filter_congr fun o _ => ?_
  have hopen : Open w' o ↔ Open w o ∧ (announces c (UInt16.ofInt id) w).user.target a.order c ≠ some o := by
    rw [Open, hchannels]
    cases (announces c (UInt16.ofInt id) w).user.target a.order c with
    | none => simp [Open]
    | some target =>
      refine open_ivyChannelRemove.trans ?_
      simp [eq_comm]
  rw [← Bool.decide_and, decide_eq_decide, hhost, hports, hopen, and_assoc, and_left_comm]
  exact Iff.rfl

theorem length_filter_le_one {l : List ℕ} (hl : l.Nodup) (target : Option ℕ) :
    (l.filter fun o => target ≠ some o).length ≤ 1 ↔
      l.length ≤ 1 ∨ (l.length = 2 ∧ ∃ t ∈ l, target = some t) := by
  cases target with
  | none => simp
  | some t =>
    have herase : (l.filter fun o => some t ≠ some o) = l.erase t := by
      rw [hl.erase_eq_filter]
      refine List.filter_congr fun o _ => ?_
      by_cases ho : o = t
      · simp [ho]
      · simp [ho, Ne.symm ho]
    rw [herase, List.length_erase]
    have hmem : (∃ t' ∈ l, some t = some t') ↔ t ∈ l := by simp
    rw [hmem]
    split_ifs with h
    · have hpos := List.length_pos_of_mem h
      rw [and_iff_left h]
      omega
    · simp [h]

theorem firstStart_eq_some {port : UInt16} (h : firstStart w c line = some port) :
    ∃ id arg, w.user.request c line = .control .startRegexp id arg ∧ UInt16.ofInt id = port ∧
      w.user.Served c := by
  unfold firstStart at h
  split at h
  · rename_i id arg hrequest
    dsimp only at h
    split_ifs at h with hfirst
    exact ⟨id, arg, hrequest, Option.some.inj h, hfirst.1⟩
  · simp at h

theorem oneClient_iff : OneClient a c w line ↔ Settled a c w line := by
  refine forall_congr' fun port => forall_congr' fun hfirst => ?_
  obtain ⟨id, arg, hrequest, rfl, hserved⟩ := firstStart_eq_some hfirst
  obtain ⟨w', hw, hhost, hpeers⟩ := peers_receive (a := a) hserved hrequest
  have hnodup : (peers (announces c (UInt16.ofInt id) w) (w.user.remoteHost c) (UInt16.ofInt id)).Nodup :=
    w.user.registry.allClients.nodup.filter _
  have hone : (∀ w' ∈ receive a c w line,
      (peers w' (w'.user.remoteHost c) (UInt16.ofInt id)).length ≤ 1) ↔
        (peers w' (w'.user.remoteHost c) (UInt16.ofInt id)).length ≤ 1 := by simp [hw]
  rw [hone, hhost, hpeers, length_filter_le_one hnodup]
  simp only [target_eq_some]

end Lines

/-- The first `StartRegexp` of a connection leaves one open client of the application exactly if it
meets no second one, or one of the two is to be closed. -/
theorem one_connection_per_peer (a : Setup Code User) (o : Opened User) (events : List (Loop.Event Env)) :
    Machine.Guarded (Loop.step (program a)) (Loop.OnHandler (OnLines a (OneClient a)))
        (Loop.started (ivyStart o)) events ↔
      Machine.Guarded (Loop.step (program a)) (Loop.OnHandler (OnLines a (Settled a)))
        (Loop.started (ivyStart o)) events := by
  have hlines : OneClient a = Settled a := by
    funext c w line
    exact propext oneClient_iff
  rw [hlines]

/-- The agent hears the hello of a peer on the host 2 and connects to it, and the peer connects too; it
announces the same application port on both connections. -/
def connectTwice : List (Loop.Event Env) :=
  turn 2 {3, 4} [{ reads (ascii "3 5000 b B\n") with sender := 2 }, accepts 5 40000] 4 ++
    turn 4 {5, 6} (List.replicate 2 (reads (msgFrame .startRegexp 5000 (ascii "B")))) 4

/-- Neither line finds the other client, and both stay. -/
theorem both_connections_stay :
    ¬ Machine.Guarded (Loop.step (program plainAgent)) (Loop.OnHandler (OnLines plainAgent (OneClient plainAgent)))
      (Loop.started (ivyStart opened)) connectTwice := by
  decide +kernel

end Ivy.Agent
