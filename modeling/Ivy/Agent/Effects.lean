import Ivy.Agent.Handlers
import Ivy.Registry.Coherence

/-! What the functions of the agent change, and what they leave. -/
namespace Ivy.Agent
open Socket Registry

variable {Code User : Type*}

/-- The line gives the id another regexp, or none. -/
def Rebinds (id : ℤ) : Line → Prop
  | .addRegexp id' _ => id' = id
  | .delRegexp id' _ => id' = id
  | _ => False

def SameClients (s t : Registry.State Code) : Prop :=
  ∀ c, t.allClients.find c = none ↔ s.allClients.find c = none

/-- What the registry owes to a line: no client comes or goes, subscriptions go only under an id
that the line rebinds, and one that it announces is there. -/
structure LineDone (s t : Registry.State Code) (c : ℕ) (line : Line) : Prop where
  clients : SameClients s t
  keeps : ∀ c' id r, ⟨c', id⟩ ∈ s.messSndByRegexp.subs r → ¬ (c' = c ∧ Rebinds id line) →
    ⟨c', id⟩ ∈ t.messSndByRegexp.subs r
  adds : ∀ id r, line = .addRegexp id r → ⟨c, id⟩ ∈ t.messSndByRegexp.subs r

section Registry
variable {s t : Registry.State Code} {compile : Compile Code} {c : ℕ}

theorem SameClients.of_status (h : ∀ c, t.allClients.status c = s.allClients.status c) : SameClients s t := by
  intro c
  rw [← Clients.status_eq_none, ← Clients.status_eq_none, h]

theorem SameClients.of_completes {received : Bool} (h : Completes c received s t)
    (hc : s.allClients.find c ≠ none) : SameClients s t := by
  intro c'
  rw [← Clients.status_eq_none, ← Clients.status_eq_none, h.status]
  split_ifs with heq
  · subst heq
    simpa [Clients.status_eq_none] using hc
  · exact Iff.rfl

theorem sameClients_setId (id : ℤ) : SameClients s (setId s c id) := .of_status (status_setId id)

theorem LineDone.announce {id : ℤ} {regexp : Text} (hstatus : ∀ c, t.allClients.status c = s.allClients.status c)
    (hkeeps : ∀ c' id' r, ⟨c', id'⟩ ∈ s.messSndByRegexp.subs r → ¬ (c' = c ∧ id' = id) →
      ⟨c', id'⟩ ∈ t.messSndByRegexp.subs r)
    (hadds : ⟨c, id⟩ ∈ t.messSndByRegexp.subs regexp) : LineDone s t c (.addRegexp id regexp) where
  clients := .of_status hstatus
  keeps c' id' r hmem hnot := hkeeps c' id' r hmem fun h => hnot ⟨h.1, h.2.symm⟩
  adds id' r heq := by
    obtain ⟨rfl, rfl⟩ := Line.addRegexp.inj heq
    exact hadds

theorem lineDone_addRegexp (hc : s.allClients.find c ≠ none) {id : ℤ} {regexp : Text}
    (ht : receiveLine compile s c (.addRegexp id regexp) = some t) :
    LineDone s t c (.addRegexp id regexp) := by
  cases hlists : s.messSndByRegexp.lists regexp c id with
  | true =>
    obtain ⟨t', ht', hspec⟩ := receiveLine_change compile hc hlists
    obtain rfl := Option.some.inj (ht.symm.trans ht')
    apply LineDone.announce hspec.status
    · intro c' id' r hmem hother
      rw [hspec.subs]
      split_ifs
      · exact List.mem_cons_of_mem _ (mem_filter_others.mpr ⟨hmem, hother⟩)
      · exact hmem
    · rw [hspec.subs, if_pos rfl]
      exact List.mem_cons_self
  | false =>
    obtain ⟨t', ht', hspec⟩ := receiveLine_add compile hc hlists
    obtain rfl := Option.some.inj (ht.symm.trans ht')
    apply LineDone.announce hspec.status
    · intro c' id' r hmem _
      rw [hspec.subs]
      split_ifs
      · exact List.mem_cons_of_mem _ hmem
      · exact hmem
    · rw [hspec.subs, if_pos rfl]
      exact List.mem_cons_self

theorem lineDone_delRegexp (hc : s.allClients.find c ≠ none) {id : ℤ} {arg : Text}
    (ht : receiveLine compile s c (.delRegexp id arg) = some t) : LineDone s t c (.delRegexp id arg) := by
  obtain ⟨t', ht', hspec⟩ := receiveLine_del compile hc id arg
  obtain rfl := Option.some.inj (ht.symm.trans ht')
  refine ⟨.of_status hspec.status, fun c' id' r hmem hnot => ?_, by simp⟩
  rw [hspec.subs]
  split_ifs
  · exact mem_filter_others.mpr ⟨hmem, fun h => hnot ⟨h.1, h.2.symm⟩⟩
  · exact hmem

theorem lineDone_startRegexp (hc : s.allClients.find c ≠ none) {id : ℤ} {arg : Text}
    (ht : receiveLine compile s c (.startRegexp id arg) = some t) :
    LineDone s t c (.startRegexp id arg) := by
  obtain ⟨t', ht', hspec, -⟩ := receiveLine_start compile hc id arg
  obtain rfl := Option.some.inj (ht.symm.trans ht')
  exact ⟨.of_completes hspec hc, fun c' id' r hmem _ => hspec.dictionary ▸ hmem, by simp⟩

theorem lineDone_endRegexp (hc : s.allClients.find c ≠ none) {id : ℤ} {arg : Text}
    (ht : receiveLine compile s c (.endRegexp id arg) = some t) : LineDone s t c (.endRegexp id arg) := by
  obtain ⟨t', ht', hspec⟩ := receiveLine_end compile hc id arg
  obtain rfl := Option.some.inj (ht.symm.trans ht')
  have hdone := hspec.regenerate
  exact ⟨.of_completes hdone hc, fun c' id' r hmem _ => hdone.dictionary ▸ hmem, by simp⟩

/-- A client that is deleted is gone, with all its subscriptions, and the others stay. -/
theorem delOneClient_done (ht : delOneClient s c = some t) :
    (∀ c', t.allClients.find c' = none ↔ c' = c ∨ s.allClients.find c' = none) ∧
      ∀ c' id r, c' ≠ c → ⟨c', id⟩ ∈ s.messSndByRegexp.subs r → ⟨c', id⟩ ∈ t.messSndByRegexp.subs r := by
  cases hfind : s.allClients.find c with
  | none =>
    rw [delOneClient, delClientNode, hfind] at ht
    obtain rfl := Option.some.inj ht
    refine ⟨fun c' => ⟨.inr, ?_⟩, fun c' id r hne hmem => ?_⟩
    · rintro (rfl | hc')
      · exact hfind
      · exact hc'
    · rw [regenerate_messSndByRegexp, Dictionary.subs_delOneClientFromDictionary]
      exact List.mem_filter.mpr ⟨hmem, by simpa using hne⟩
  | some clnt =>
    have hwalk : SafeWalk (clnt.srcRegList.map GlobReg.id) := by
      by_contra hwalk
      rw [delOneClient_none hfind hwalk] at ht
      simp at ht
    obtain ⟨t', ht', hsubs, -, hstatus, -⟩ := delOneClient_spec hfind hwalk
    obtain rfl := Option.some.inj (ht.symm.trans ht')
    refine ⟨fun c' => ?_, fun c' id r hne hmem => ?_⟩
    · rw [← Clients.status_eq_none, ← Clients.status_eq_none, hstatus]
      split_ifs with heq
      · simp [heq]
      · simp [Ne.symm heq]
    · rw [hsubs]
      exact List.mem_filter.mpr ⟨hmem, by simpa [notOf] using hne⟩

end Registry

/-- The application reacts, and the log grows. -/
structure Told (d d' : Data Code User) (entries : List (Entry Code)) : Prop where
  memory : d'.memory = d.memory
  held : d'.held = d.held
  registry : d'.registry = d.registry
  records : d'.records = d.records
  server : d'.server = d.server
  broadcast : d'.broadcast = d.broadcast
  log : d'.log = d.log ++ entries

theorem told_nil (d : Data Code User) : Told d d [] :=
  ⟨rfl, rfl, rfl, rfl, rfl, rfl, (List.append_nil _).symm⟩

theorem told_callback (a : Setup Code User) (d : Data Code User) (e : Entry Code) :
    Told d (d.callback a e) [e] := ⟨rfl, rfl, rfl, rfl, rfl, rfl, rfl⟩

theorem Told.trans {d₁ d₂ d₃ : Data Code User} {l l' : List (Entry Code)} (h : Told d₁ d₂ l)
    (h' : Told d₂ d₃ l') : Told d₁ d₃ (l ++ l') where
  memory := h'.memory.trans h.memory
  held := h'.held.trans h.held
  registry := h'.registry.trans h.registry
  records := h'.records.trans h.records
  server := h'.server.trans h.server
  broadcast := h'.broadcast.trans h.broadcast
  log := by rw [h'.log, h.log, List.append_assoc]

theorem told_callbacks {α : Type*} (a : Setup Code User) (f : α → Entry Code) (l : List α)
    (d : Data Code User) : Told d (l.foldl (fun d x => d.callback a (f x)) d) (l.map f) := by
  induction l generalizing d with
  | nil => exact told_nil d
  | cons x l ih => exact (told_callback a d (f x)).trans (ih _)

/-- What the application is told of a send to the connection. -/
def reports (c : ℕ) (event : Option Bus.IvyApplicationEvent) : List (Entry Code) :=
  event.toList.map fun event => .applicationCallback c (some c) event

theorem told_send (a : Setup Code User) (d : Data Code User) (c : ℕ)
    (report : SendState → Option Bus.IvyApplicationEvent) :
    Told d (d.send a c report) (reports c (report d.states.head)) := by
  unfold Data.send
  cases report d.states.head with
  | none => exact ⟨rfl, rfl, rfl, rfl, rfl, rfl, (List.append_nil _).symm⟩
  | some event => exact ⟨rfl, rfl, rfl, rfl, rfl, rfl, rfl⟩

theorem told_msgSendTo (a : Setup Code User) (d : Data Code User) (c : ℕ) (msgtype : MsgType) (id : ℤ)
    (message : Text) : Told d (d.msgSendTo a c msgtype id message)
      (.msgSendTo c msgtype id message :: reports c (Bus.report d.states.head)) := by
  have hrecord : Told d (d.record (.msgSendTo c msgtype id message)) [.msgSendTo c msgtype id message] :=
    ⟨rfl, rfl, rfl, rfl, rfl, rfl, rfl⟩
  exact hrecord.trans (told_send a _ c Bus.report)

section Sends
variable (a : Setup Code User) (d : Data Code User) (c : ℕ) (msgtype : MsgType) (id : ℤ) (message : Text)

theorem states_msgSendTo : (d.msgSendTo a c msgtype id message).states = d.states.tail := by
  simp only [Data.msgSendTo, Data.send]
  cases Bus.report (d.record (.msgSendTo c msgtype id message)).states.head <;> rfl

variable {d} in
theorem msg_recv_msgSendTo (h : Bus.report d.states.head = none) :
    (d.msgSendTo a c msgtype id message).msg_recv = d.msg_recv := by
  have hhead : Bus.report (d.record (.msgSendTo c msgtype id message)).states.head = none := h
  simp only [Data.msgSendTo, Data.send, hhead]
  rfl

theorem linked_msgSendTo (c' : ℕ) : (d.msgSendTo a c msgtype id message).Linked c' ↔ d.Linked c' := by
  rw [Data.Linked, (told_msgSendTo a d c msgtype id message).registry, Data.Linked]

end Sends

def Marked (w : World Code User) (c : ℕ) : Prop := (w.channels.find c).any (·.tobedeleted) = true

instance (w : World Code User) (c : ℕ) : Decidable (Marked w c) := inferInstanceAs (Decidable (_ = true))

theorem marked_socketClose {w : World Code User} {c c' : ℕ} (h : Marked (socketClose c w) c') :
    Marked w c' ∨ c' = c := by
  have hfind : (socketClose c w).channels.find c' = (w.channels.find c').map (Loop.Channels.mark c) :=
    Keyed.find_map (Loop.Channels.id_mark c)
  rw [Marked, hfind] at h
  cases hold : w.channels.find c' with
  | none => simp [hold] at h
  | some ch =>
    have hid : ch.id = c' := Keyed.find_key hold
    by_cases hc : ch.id = c
    · exact .inr (hid ▸ hc)
    · refine .inl ?_
      simpa [Marked, hold, Loop.Channels.mark, hc] using h

def Entry.plain : Entry Code → Bool
  | .msgCallback .. | .directCallback .. | .dieCallback .. | .filterCallback .. | .pongCallback .. => true
  | .registry _ | .msgSendTo .. | .hook => true
  | .applicationCallback _ _ event =>
    event ≠ .ivyApplicationConnected && event ≠ .ivyApplicationDisconnected
  | _ => false

theorem plain_report (c : ℕ) (state : SendState) :
    ∀ e ∈ (reports c (Bus.report state) : List (Entry Code)), e.plain = true := by
  cases state <;> simp [reports, Bus.report, Entry.plain]

theorem plain_reportUnique (c : ℕ) (state : SendState) :
    ∀ e ∈ (reports c (Bus.reportUnique state) : List (Entry Code)), e.plain = true := by
  cases state <;> simp [reports, Bus.reportUnique, Entry.plain]

/-- The application is told of nothing but sends. -/
def Chats (d d' : Data Code User) : Prop := ∃ entries, Told d d' entries ∧ ∀ e ∈ entries, e.plain = true

section Chats
variable (a : Setup Code User) (c : ℕ) (d : Data Code User)

theorem Chats.refl : Chats d d := ⟨[], told_nil d, by simp⟩

variable {d} in
theorem Chats.trans {d' d'' : Data Code User} (h : Chats d d') (h' : Chats d' d'') : Chats d d'' := by
  obtain ⟨l, htold, hplain⟩ := h
  obtain ⟨l', htold', hplain'⟩ := h'
  exact ⟨l ++ l', htold.trans htold', List.forall_mem_append.mpr ⟨hplain, hplain'⟩⟩

theorem chats_foldl {α : Type*} {f : Data Code User → α → Data Code User} (h : ∀ d x, Chats d (f d x))
    (l : List α) : Chats d (l.foldl f d) :=
  List.foldlRecOn (motive := Chats d) l f (.refl d) fun d' hd' x _ => hd'.trans (h d' x)

theorem chats_msgSendTo (msgtype : MsgType) (id : ℤ) (message : Text) :
    Chats d (d.msgSendTo a c msgtype id message) :=
  ⟨_, told_msgSendTo a d c msgtype id message, List.forall_mem_cons.mpr ⟨rfl, plain_report c _⟩⟩

theorem chats_handshake : Chats d (handshake a c d) := by
  have hstart := chats_msgSendTo a c d .startRegexp a.applicationPort.toNat a.applicationName
  have hbindings (d : Data Code User) (msg_recv : List MsgRcv) : Chats d
      (msg_recv.foldl (fun d msg => d.msgSendTo a c .addRegexp msg.id msg.regexp) d) :=
    chats_foldl d (fun d msg => chats_msgSendTo a c d .addRegexp msg.id msg.regexp) msg_recv
  exact (hstart.trans (hbindings _ _)).trans (chats_msgSendTo a c _ .endRegexp 0 [])

theorem chats_clientCall (message : Text) :
    let dict := d.registry.messSndByRegexp
    Chats (d.record (.clientCall c dict (dict.entries.flatMap (regexpCallUnique a.exec message c))))
      (clientCall a c d message) :=
  chats_foldl _ (fun d _ => ⟨_, told_send a d c Bus.reportUnique, plain_reportUnique c _⟩) _

end Chats

def Entry.isSend : Entry Code → Bool
  | .msgSendTo .. => true
  | _ => false

def Entry.completes (c : ℕ) : Entry Code → Bool
  | .receive client (.control .endRegexp _ _) => client = c
  | _ => false

@[simp] theorem completes_endRegexp (c c' : ℕ) (id : ℤ) (arg : Text) :
    (Entry.receive c (.control .endRegexp id arg) : Entry Code).completes c' = decide (c = c') := rfl

def Data.Handshaken (d : Data Code User) (c : ℕ) : Prop := d.log.any (·.completes c) = true

instance (d : Data Code User) (c : ℕ) : Decidable (d.Handshaken c) := inferInstanceAs (Decidable (_ = true))

section Data
variable {d d' : Data Code User} {extra : List (Entry Code)}

theorem any_log_append (hlog : d'.log = d.log ++ extra) (p : Entry Code → Bool) :
    d'.log.any p = true ↔ d.log.any p = true ∨ extra.any p = true := by
  rw [hlog, List.any_append, Bool.or_eq_true]

theorem handshaken_append (hlog : d'.log = d.log ++ extra) (c : ℕ) :
    d'.Handshaken c ↔ d.Handshaken c ∨ extra.any (·.completes c) = true := any_log_append hlog _

theorem sock_of_memory {c : ℕ} (h : d'.memory c = d.memory c) : d'.sock c = d.sock c := by
  rw [Data.sock, h, Data.sock]

theorem sock_of_update {c c' : ℕ} {owner : Option Owner} (h : d'.memory = Function.update d.memory c owner)
    (hne : c' ≠ c) : d'.sock c' = d.sock c' := by
  apply sock_of_memory
  rw [h, Function.update_of_ne hne]

theorem sock_msgSendTo (a : Setup Code User) (d : Data Code User) (c : ℕ) (msgtype : MsgType) (id : ℤ)
    (message : Text) (c' : ℕ) : (d.msgSendTo a c msgtype id message).sock c' = d.sock c' :=
  sock_of_memory (congrFun (told_msgSendTo a d c msgtype id message).memory c')

end Data

section Target
variable {c : ℕ} {d : Data Code User}

theorem checkConnected_eq (clnt : Addresses) : d.checkConnected c clnt =
    if clnt.fromAddr.port = 0 then none
    else d.clients.find? fun o => o ≠ c && clnt.fromAddr.port = (d.records o).app_port &&
      (d.sock o).any fun sock => sock.addresses.fromAddr.host = clnt.fromAddr.host := by
  unfold Data.checkConnected Data.clients
  rw [List.find?_map]
  rfl

theorem target_congr {d' : Data Code User} (hclients : d'.clients = d.clients) (hmemory : d'.memory = d.memory)
    (hrecords : d'.records = d.records) (order : ByteOrder) : d'.target order c = d.target order c := by
  have hsock : d'.sock = d.sock := funext fun c => sock_of_memory (congrFun hmemory c)
  unfold Data.target
  simp only [checkConnected_eq, hclients, hrecords, hsock]

theorem target_setRecord (order : ByteOrder) (record : Record) :
    (d.setRecord c record).target order c = d.target order c := by
  unfold Data.target
  refine Option.bind_congr fun clnt _ => ?_
  have hcheck : (d.setRecord c record).checkConnected c clnt.addresses =
      d.checkConnected c clnt.addresses := by
    rw [checkConnected_eq, checkConnected_eq]
    congr 2
    funext o
    by_cases ho : o = c
    · simp [ho]
    · simp [Data.setRecord, Data.sock, ho]
  rw [hcheck]
  rfl

theorem clients_modify (cs : Clients) (client : ℕ) (f : IvyClient → IvyClient) :
    (cs.modify client f).list.map (·.client) = cs.list.map (·.client) := by
  rw [Clients.modify, List.map_map]
  exact List.map_congr_left fun clnt _ => Clients.client_onClient client f clnt

theorem clients_startRegexp (compile : Compile Code) {s : Registry.State Code} (id : ℤ) (arg : Text)
    (h : s.allClients.find c ≠ none) : ∃ t, receiveLine compile s c (.startRegexp id arg) = some t ∧
      t.allClients.list.map (·.client) = s.allClients.list.map (·.client) := by
  obtain ⟨clnt, hfind, -⟩ := find_setId h id
  have hreg : receiveLine compile s c (.startRegexp id arg) =
      some (setEndRegexpReceived (setId s c id) c false) := by simp only [receiveLine, Line.id, hfind]
  exact ⟨_, hreg, (clients_modify _ c _).trans (clients_modify _ c _)⟩

end Target

end Ivy.Agent

namespace Ivy

def Request.closes : Request → Bool
  | .badFormat => true
  | .control .bye _ _ => true
  | _ => false

def Request.rebinds (ivyBindingFilter : Text → Bool) (id : ℤ) : Request → Bool
  | .control .addRegexp id' regexp => id' = id && ivyBindingFilter regexp
  | .control .delRegexp id' _ => id' = id
  | _ => false

/-- The request may change the registry or call the application back. -/
def Request.acts : Request → Bool
  | .call .. => true
  | .control .addRegexp _ _ | .control .delRegexp _ _ | .control .endRegexp _ _ => true
  | .control .directMsg _ _ | .control .die _ _ => true
  | _ => false

end Ivy

namespace Ivy.Agent
open Socket Registry

variable {Code User : Type*}

/-- The line may change the registry, or the application is called back: for the line, for a pong that it
waits for, or for the send that answers the line. -/
def Data.stirs (a : Setup Code User) (c : ℕ) (d : Data Code User) : Request → Bool
  | .badFormat => (Bus.report d.states.head).isSome || (Bus.report d.states.tail.head).isSome
  | .control .startRegexp _ _ => (d.target a.order c).isSome && (Bus.report d.states.head).isSome
  | .control .ping _ _ => (Bus.report d.states.head).isSome
  | .control .pong _ _ => a.application_pong_callback && (d.ping_timestamp c).ts.IsSet
  | r => r.acts

theorem stirs_of_acts {a : Setup Code User} {c : ℕ} {d : Data Code User} {r : Request} (h : r.acts = true) :
    d.stirs a c r = true := by
  cases r with
  | control kind id arg => cases kind <;> simp_all [Data.stirs, Request.acts]
  | badFormat => simp [Request.acts] at h
  | _ => exact h

/-- A handled line that is neither an `EndRegexp` nor a `Die`. -/
structure Calm (a : Setup Code User) (c : ℕ) (r : Request) (w w' : World Code User) : Prop where
  memory : w'.user.memory = w.user.memory
  held : w'.user.held = w.user.held
  server : w'.user.server = w.user.server
  broadcast : w'.user.broadcast = w.user.broadcast
  brk : w'.channels.brk = w.channels.brk
  clients : SameClients w.user.registry w'.user.registry
  ready : ∀ c', (w'.user.records c').readyToSend = (w.user.records c').readyToSend
  ignored : ∀ c', (w.user.records c').ignore_subsequent_msg = true →
    (w'.user.records c').ignore_subsequent_msg = true
  marked : ∀ c', Marked w' c' → Marked w c' ∨ (w'.user.records c').ignore_subsequent_msg = true ∨
    (c' = c ∧ r.closes = true)
  log : ∃ extra, w'.user.log = w.user.log ++ extra ∧ ∀ e ∈ extra, e.plain = true
  keeps : ∀ c' id r', ⟨c', id⟩ ∈ w.user.registry.messSndByRegexp.subs r' →
    ¬ (c' = c ∧ r.rebinds a.ivyBindingFilter id = true) →
    ⟨c', id⟩ ∈ w'.user.registry.messSndByRegexp.subs r'
  adds : ∀ id r', r = .control .addRegexp id r' → a.ivyBindingFilter r' = true →
    ⟨c, id⟩ ∈ w'.user.registry.messSndByRegexp.subs r'
  quiet : w.user.stirs a c r = false →
    w'.user.registry.messSndByRegexp = w.user.registry.messSndByRegexp ∧
      (∀ c', w'.user.registry.allClients.srcs c' = w.user.registry.allClients.srcs c') ∧
      w'.user.msg_recv = w.user.msg_recv ∧
      ∃ extra, w'.user.log = w.user.log ++ extra ∧ ∀ e ∈ extra, e.isSend = true

section Calm
variable {a : Setup Code User} {c : ℕ} {r : Request} {w w' : World Code User}

/-- A line that leaves the registry as `reg`, makes the application react, and may close the connection. -/
theorem calm_of_told {reg : Registry.State Code} {entries : List (Entry Code)}
    (htold : Told { w.user with registry := reg } w'.user entries)
    (hplain : ∀ e ∈ entries, e.plain = true) (hclients : SameClients w.user.registry reg)
    (hkeeps : ∀ c' id r', ⟨c', id⟩ ∈ w.user.registry.messSndByRegexp.subs r' →
      ¬ (c' = c ∧ r.rebinds a.ivyBindingFilter id = true) → ⟨c', id⟩ ∈ reg.messSndByRegexp.subs r')
    (hadds : ∀ id r', r = .control .addRegexp id r' → a.ivyBindingFilter r' = true →
      ⟨c, id⟩ ∈ reg.messSndByRegexp.subs r')
    (hquiet : w.user.stirs a c r = false → reg.messSndByRegexp = w.user.registry.messSndByRegexp ∧
      (∀ c', reg.allClients.srcs c' = w.user.registry.allClients.srcs c') ∧
      w'.user.msg_recv = w.user.msg_recv ∧ ∀ e ∈ entries, e.isSend = true)
    (hchannels : w'.channels = w.channels ∨ (w' = socketClose c { w with user := w'.user } ∧ r.closes = true)) :
    Calm a c r w w' where
  memory := htold.memory
  held := htold.held
  server := htold.server
  broadcast := htold.broadcast
  brk := by
    rcases hchannels with hsame | ⟨hclose, -⟩
    · rw [hsame]
    · rw [hclose]
      rfl
  clients := by
    rw [htold.registry]
    exact hclients
  ready c' := by rw [htold.records]
  ignored c' h := by rwa [htold.records]
  marked c' h := by
    rcases hchannels with hsame | ⟨hclose, hr⟩
    · left
      rwa [Marked, hsame] at h
    · rw [hclose] at h
      rcases marked_socketClose h with hold | hc
      · exact .inl hold
      · exact .inr (.inr ⟨hc, hr⟩)
  log := ⟨entries, htold.log, hplain⟩
  keeps := by
    rw [htold.registry]
    exact hkeeps
  adds := by
    rw [htold.registry]
    exact hadds
  quiet hr := by
    obtain ⟨hdict, hsrcs, hrecv, hsends⟩ := hquiet hr
    rw [htold.registry]
    exact ⟨hdict, hsrcs, hrecv, entries, htold.log, hsends⟩

theorem calm_setClientId {id : ℤ} {entries : List (Entry Code)}
    (htold : Told (setClientId c id w).user w'.user entries) (hplain : ∀ e ∈ entries, e.plain = true)
    (hadds : ∀ id r', r = .control .addRegexp id r' → a.ivyBindingFilter r' = false)
    (hquiet : w.user.stirs a c r = false → w'.user.msg_recv = w.user.msg_recv ∧ ∀ e ∈ entries, e.isSend = true)
    (hchannels : w'.channels = w.channels ∨ (w' = socketClose c { w with user := w'.user } ∧ r.closes = true)) :
    Calm a c r w w' := by
  refine calm_of_told htold hplain (sameClients_setId id) (fun _ _ _ hmem _ => hmem) ?_ ?_ hchannels
  · intro id' r' hr haccepted
    rw [hadds id' r' hr] at haccepted
    exact absurd haccepted (by simp)
  · intro hr
    exact ⟨rfl, srcs_setId id, hquiet hr⟩

theorem calm_registryLine {id : ℤ} {line : Line} {d' : Data Code User}
    (hstirs : w.user.stirs a c r = true) (hd : registryLine a c line (setClientId c id w).user = some d')
    (hline : ∀ t, receiveLine a.compile (setId w.user.registry c id) c line = some t →
      LineDone (setId w.user.registry c id) t c line)
    (hrebinds : ∀ id', Rebinds id' line → r.rebinds a.ivyBindingFilter id' = true)
    (hadds : ∀ id' r', r = .control .addRegexp id' r' → line = .addRegexp id' r') :
    Calm a c r w { w with user := d' } := by
  obtain ⟨reg, hreg, rfl⟩ := Option.map_eq_some_iff.mp hd
  have hdone := hline reg hreg
  have htold := told_callbacks a Entry.registry (reg.effects.drop (setId w.user.registry c id).effects.length)
    { (setClientId c id w).user with registry := reg }
  have hplain : ∀ e ∈ (reg.effects.drop (setId w.user.registry c id).effects.length).map Entry.registry,
      (e : Entry Code).plain = true := by
    intro e he
    obtain ⟨effect, -, rfl⟩ := List.mem_map.mp he
    rfl
  refine calm_of_told htold hplain (fun c' => ?_) (fun c' id' r' hmem hnot => ?_)
    (fun id' r' hr _ => hdone.adds id' r' (hadds id' r' hr)) (by simp [hstirs]) (.inl rfl)
  · exact (hdone.clients c').trans (sameClients_setId id c')
  · exact hdone.keeps c' id' r' hmem fun h => hnot ⟨h.1, hrebinds id' h.2⟩

/-- The agent as the branch for `StartRegexp` has it before it looks for another client. -/
structure Announced (c : ℕ) (w : World Code User) (reg : Registry.State Code) (d : Data Code User) : Prop where
  told : Told { w.user with registry := reg, records := d.records } d []
  clients : SameClients w.user.registry reg
  dictionary : reg.messSndByRegexp = w.user.registry.messSndByRegexp
  srcs : ∀ c', reg.allClients.srcs c' = w.user.registry.allClients.srcs c'
  ready : ∀ c', (d.records c').readyToSend = (w.user.records c').readyToSend
  ignored : ∀ c', (d.records c').ignore_subsequent_msg = (w.user.records c').ignore_subsequent_msg
  states : d.states = w.user.states
  msg_recv : d.msg_recv = w.user.msg_recv
  target : ∀ order, d.target order c = w.user.target order c

theorem announced_startRegexp {id : ℤ} {arg : Text} {reg : Registry.State Code} (hc : w.user.Linked c)
    (hreg : receiveLine a.compile (setId w.user.registry c id) c (.startRegexp id arg) = some reg) :
    Announced c w reg ({ (setClientId c id w).user with registry := reg }.setRecord c
      { w.user.records c with app_port := UInt16.ofInt id }) := by
  have hlinked : (setId w.user.registry c id).allClients.find c ≠ none :=
    fun hnone => hc ((sameClients_setId id c).mp hnone)
  obtain ⟨t, ht, hspec, -⟩ := receiveLine_start a.compile hlinked id arg
  obtain rfl := Option.some.inj (hreg.symm.trans ht)
  obtain ⟨t, ht, hlist⟩ := clients_startRegexp a.compile id arg hlinked
  obtain rfl := Option.some.inj (hreg.symm.trans ht)
  refine ⟨told_nil _, fun c' => ?_, hspec.dictionary, fun c' => ?_, fun c' => ?_, fun c' => ?_, rfl, rfl,
    fun order => ?_⟩
  · exact ((lineDone_startRegexp hlinked hreg).clients c').trans (sameClients_setId id c')
  · exact (hspec.srcs c').trans (srcs_setId id c')
  · by_cases h : c' = c <;> simp [Data.setRecord, setClientId, h]
  · by_cases h : c' = c <;> simp [Data.setRecord, setClientId, h]
  · rw [target_setRecord]
    have hclients : ({ (setClientId c id w).user with registry := reg } : Data Code User).clients =
        w.user.clients := hlist.trans (clients_modify _ c _)
    exact target_congr hclients rfl rfl order

theorem Announced.calm {id : ℤ} {arg : Text} {reg : Registry.State Code} {d : Data Code User}
    (h : Announced c w reg d) : Calm a c (.control .startRegexp id arg) w { w with user := d } := by
  have hregistry : d.registry = reg := h.told.registry
  refine ⟨h.told.memory, h.told.held, h.told.server, h.told.broadcast, rfl, ?_, h.ready, fun c' hc' => ?_,
    fun c' hc' => .inl hc', ⟨[], h.told.log, by simp⟩, ?_, by simp, fun _ => ?_⟩
  · exact hregistry.symm ▸ h.clients
  · rw [h.ignored, hc']
  · intro c' id' r' hmem _
    rwa [hregistry, h.dictionary]
  · rw [hregistry]
    exact ⟨h.dictionary, h.srcs, h.msg_recv, [], h.told.log, by simp⟩

/-- The target of an announcement is told, ignores what follows and is closed. -/
theorem Announced.calm_target {id : ℤ} {arg text : Text} {reg : Registry.State Code} {d : Data Code User}
    (h : Announced c w reg d) {target : ℕ} (htarget : w.user.target a.order c = some target) :
    Calm a c (.control .startRegexp id arg) w (socketClose target { w with
      user := (d.msgSendTo a target .error 0 text).setRecord target
        { (d.msgSendTo a target .error 0 text).records target with ignore_subsequent_msg := true } }) := by
  generalize he : d.msgSendTo a target .error 0 text = e
  have htold : Told { w.user with registry := reg, records := d.records } e _ :=
    he ▸ h.told.trans (told_msgSendTo a d target .error 0 text)
  have hrecords : e.records = d.records := htold.records
  have hregistry : e.registry = reg := htold.registry
  refine ⟨htold.memory, htold.held, htold.server, htold.broadcast, rfl, ?_, fun c' => ?_, fun c' hc' => ?_,
    fun c' hc' => ?_, ⟨_, htold.log, ?_⟩, ?_, by simp, fun hstirs => ?_⟩
  · change SameClients _ e.registry
    rw [hregistry]
    exact h.clients
  · change (Function.update e.records target _ c').readyToSend = _
    rw [Function.update_apply, hrecords]
    split_ifs with heq
    · rw [heq]
      exact h.ready target
    · exact h.ready c'
  · change (Function.update e.records target _ c').ignore_subsequent_msg = true
    rw [Function.update_apply, hrecords]
    split_ifs
    · rfl
    · rw [h.ignored, hc']
  · rcases marked_socketClose hc' with hold | rfl
    · exact .inl hold
    · refine .inr (.inl ?_)
      simp [socketClose, Data.setRecord]
  · exact List.forall_mem_cons.mpr ⟨rfl, plain_report target _⟩
  · intro c' id' r' hmem _
    change _ ∈ e.registry.messSndByRegexp.subs r'
    rwa [hregistry, h.dictionary]
  · have hreport : Bus.report d.states.head = none := by
      rw [h.states]
      simpa [Data.stirs, htarget] using hstirs
    have hsame : e.msg_recv = d.msg_recv := he ▸ msg_recv_msgSendTo a target .error 0 _ hreport
    have hlog := htold.log
    rw [hreport] at hlog
    change e.registry.messSndByRegexp = _ ∧ (∀ c', e.registry.allClients.srcs c' = _) ∧ e.msg_recv = _ ∧ _
    rw [hregistry]
    exact ⟨h.dictionary, h.srcs, hsame.trans h.msg_recv, _, hlog, by simp [reports, Entry.isSend]⟩

theorem calm_startRegexp {id : ℤ} {arg : Text} (hc : w.user.Linked c)
    (hw : receiveStartRegexp a c id arg (setClientId c id w) = some w') :
    Calm a c (.control .startRegexp id arg) w w' := by
  obtain ⟨reg, hreg, rfl⟩ := Option.map_eq_some_iff.mp hw
  have hdone := announced_startRegexp (w := w) hc hreg
  dsimp only
  generalize hd : Data.setRecord _ c _ = d
  have hdone : Announced c w reg d := hd ▸ hdone
  rw [hdone.target]
  cases htarget : w.user.target a.order c with
  | none => exact hdone.calm
  | some target => exact hdone.calm_target htarget

end Calm

def readyCalls (a : Setup Code User) (c : ℕ) (readyToSend : ℤ) (dict : Dictionary Code) : List (Entry Code) :=
  match a.ready_message with
  | none => []
  | some ready_message =>
    if readyToSend = 2 then
      [.clientCall c dict (dict.entries.flatMap (regexpCallUnique a.exec ready_message c))]
    else []

theorem clientCall_of_mem_readyCalls {a : Setup Code User} {c : ℕ} {readyToSend : ℤ} {dict : Dictionary Code}
    {e : Entry Code} (he : e ∈ readyCalls a c readyToSend dict) : ∃ sent, e = .clientCall c dict sent := by
  unfold readyCalls at he
  split at he
  · simp at he
  · split_ifs at he
    · exact ⟨_, List.mem_singleton.mp he⟩
    · simp at he

/-- `readyToSend` goes up, and nothing else changes. -/
structure Counted (a : Setup Code User) (c : ℕ) (d d' : Data Code User) : Prop where
  memory : d'.memory = d.memory
  held : d'.held = d.held
  registry : d'.registry = d.registry
  server : d'.server = d.server
  broadcast : d'.broadcast = d.broadcast
  records : d'.records =
    Function.update d.records c { d.records c with readyToSend := (d.records c).readyToSend + 1 }
  log : ∃ extra, d'.log = d.log ++ readyCalls a c ((d.records c).readyToSend + 1) d.registry.messSndByRegexp ++
    extra ∧ ∀ e ∈ extra, e.plain = true

theorem countReady_counted {a : Setup Code User} {c : ℕ} {d d' : Data Code User}
    (hd : countReady a c d = some d') : Counted a c d d' := by
  unfold countReady at hd
  dsimp only at hd
  have hfits : (d.records c).readyToSend + 1 < 2 ^ 31 := by
    by_contra hnot
    rw [if_neg hnot] at hd
    simp at hd
  rw [if_pos hfits] at hd
  cases hready : a.ready_message with
  | none =>
    rw [hready] at hd
    obtain rfl := Option.some.inj hd
    refine ⟨rfl, rfl, rfl, rfl, rfl, rfl, [], ?_, by simp⟩
    simp [readyCalls, hready, Data.setRecord]
  | some ready_message =>
    rw [hready] at hd
    obtain rfl := Option.some.inj hd
    by_cases htwo : (d.records c).readyToSend + 1 = 2
    · obtain ⟨extra, htold, hplain⟩ := chats_clientCall a c (d.setRecord c
        { d.records c with readyToSend := (d.records c).readyToSend + 1 }) ready_message
      rw [if_pos htwo]
      refine ⟨htold.memory, htold.held, htold.registry, htold.server, htold.broadcast, htold.records, extra, ?_, hplain⟩
      rw [htold.log]
      simp [readyCalls, hready, htwo, Data.record, Data.setRecord]
    · rw [if_neg htwo]
      refine ⟨rfl, rfl, rfl, rfl, rfl, rfl, [], ?_, by simp⟩
      simp [readyCalls, hready, htwo, Data.setRecord]

structure Completed (a : Setup Code User) (c : ℕ) (w w' : World Code User) : Prop where
  memory : w'.user.memory = w.user.memory
  held : w'.user.held = w.user.held
  server : w'.user.server = w.user.server
  broadcast : w'.user.broadcast = w.user.broadcast
  channels : w'.channels = w.channels
  clients : SameClients w.user.registry w'.user.registry
  dictionary : w'.user.registry.messSndByRegexp = w.user.registry.messSndByRegexp
  records : w'.user.records = Function.update w.user.records c
    { w.user.records c with readyToSend := (w.user.records c).readyToSend + 1 }
  log : ∃ extra, w'.user.log = w.user.log ++ .applicationCallback c (some c) .ivyApplicationConnected ::
    (readyCalls a c ((w.user.records c).readyToSend + 1) w.user.registry.messSndByRegexp ++ extra) ∧
      ∀ e ∈ extra, e.plain = true

theorem completed_endRegexp {a : Setup Code User} {c : ℕ} {w : World Code User} {id : ℤ} {arg : Text}
    {d' : Data Code User} (hc : w.user.Linked c)
    (hd : receiveEndRegexp a c id arg (setClientId c id w).user = some d') :
    Completed a c w { w with user := d' } := by
  obtain ⟨reg, hreg, hcount⟩ := Option.bind_eq_some_iff.mp hd
  have hcounted := countReady_counted hcount
  have hlinked : (setId w.user.registry c id).allClients.find c ≠ none :=
    fun hnone => hc ((sameClients_setId id c).mp hnone)
  have hdone := lineDone_endRegexp hlinked hreg
  obtain ⟨t, ht, hspec⟩ := receiveLine_end a.compile hlinked id arg
  have hregistry := Option.some.inj (hreg.symm.trans ht)
  have hdict : reg.messSndByRegexp = w.user.registry.messSndByRegexp := by
    rw [hregistry]
    exact hspec.regenerate.dictionary
  refine ⟨hcounted.memory, hcounted.held, hcounted.server, hcounted.broadcast, rfl, fun c' => ?_, ?_,
    hcounted.records, ?_⟩
  · change d'.registry.allClients.find c' = none ↔ _
    rw [hcounted.registry]
    exact (hdone.clients c').trans (sameClients_setId id c')
  · change d'.registry.messSndByRegexp = _
    rw [hcounted.registry]
    exact hdict
  · obtain ⟨extra, hlog, hplain⟩ := hcounted.log
    refine ⟨extra, hlog.trans ?_, hplain⟩
    change w.user.log ++ [_] ++ readyCalls a c _ reg.messSndByRegexp ++ extra = _
    rw [hdict, List.append_assoc, List.append_assoc]
    rfl

structure Died (w w' : World Code User) : Prop where
  memory : w'.user.memory = w.user.memory
  held : w'.user.held = w.user.held
  server : w'.user.server = w.user.server
  broadcast : w'.user.broadcast = w.user.broadcast
  records : w'.user.records = w.user.records
  brk : w'.channels.brk = w.channels.brk
  unlinked : ∀ c, ¬ w'.user.Linked c
  log : ∃ extra clients, w'.user.log = w.user.log ++ extra ++ [.ivyCleanup clients] ∧
    (∀ e ∈ extra, e.plain = true) ∧ ∀ c, c ∈ clients ↔ w.user.Linked c

theorem foldl_sayBye (a : Setup Code User) (clients : List ℕ) (w : World Code User) :
    Chats w.user (clients.foldl (sayBye a) w).user ∧
      (clients.foldl (sayBye a) w).channels.brk = w.channels.brk := by
  induction clients generalizing w with
  | nil => exact ⟨.refl _, rfl⟩
  | cons c clients ih =>
    obtain ⟨hchats, hbrk⟩ := ih (sayBye a w c)
    exact ⟨(chats_msgSendTo a c w.user .bye 0 []).trans hchats, hbrk⟩

theorem mem_clients_iff {d : Data Code User} {c : ℕ} :
    c ∈ d.registry.allClients.list.map (·.client) ↔ d.Linked c := by
  rw [Data.Linked, Clients.find, ne_eq, Keyed.find_eq_none, not_not]

/-- `IvyCleanup` closes every connection and empties the registry. -/
theorem ivyCleanup_told {a : Setup Code User} {w w' : World Code User} (hw : ivyCleanup a w = some w') :
    (∃ extra, Told { w.user with registry := emptied w.user.registry } w'.user
        (extra ++ [.ivyCleanup w.user.clients]) ∧ ∀ e ∈ extra, e.plain = true) ∧
      w'.channels.brk = w.channels.brk := by
  unfold ivyCleanup at hw
  dsimp only at hw
  split_ifs at hw
  obtain rfl := Option.some.inj hw
  obtain ⟨⟨extra, htold, hplain⟩, hbrk⟩ := foldl_sayBye a (w.user.registry.allClients.list.map (·.client)) w
  refine ⟨⟨extra, ⟨htold.memory, htold.held, ?_, htold.records, htold.server, htold.broadcast, ?_⟩, hplain⟩, hbrk⟩
  · exact congrArg emptied htold.registry
  · refine (congrArg (· ++ _) htold.log).trans ?_
    exact List.append_assoc _ _ _

theorem died_die {a : Setup Code User} {c : ℕ} {w w' : World Code User} {id : ℤ}
    (hw : receiveDie a c id (setClientId c id w) = some w') : Died w w' := by
  obtain ⟨v, hv, rfl⟩ := Option.map_eq_some_iff.mp hw
  obtain ⟨⟨extra, htold, hplain⟩, hbrk⟩ := ivyCleanup_told hv
  constructor
  case brk => exact hbrk
  case log =>
    refine ⟨.dieCallback c id :: extra, (setClientId c id w).user.clients, htold.log.trans ?_,
      List.forall_mem_cons.mpr ⟨rfl, hplain⟩, fun c' => ?_⟩
    · simp [Data.callback, setClientId]
      rfl
    · exact mem_clients_iff.trans (not_congr (sameClients_setId id c'))
  case unlinked =>
    intro c' hlinked
    have hnone : v.user.registry.allClients.find c' = none := by
      rw [htold.registry]
      rfl
    exact hlinked hnone
  case memory => exact htold.memory
  case held => exact htold.held
  case server => exact htold.server
  case broadcast => exact htold.broadcast
  case records => exact htold.records

/-- A pong calls the application if it waits for one. -/
theorem receivePong_told (a : Setup Code User) (c : ℕ) (id : ℤ) (d : Data Code User) :
    ∃ entries, Told d (receivePong a c id d) entries ∧ (∀ e ∈ entries, e.plain = true) ∧
      (d.stirs a c (.control .pong id []) = false →
        (receivePong a c id d).msg_recv = d.msg_recv ∧ ∀ e ∈ entries, e.isSend = true) := by
  by_cases hwaits : a.application_pong_callback ∧ (d.ping_timestamp c).ts.IsSet
  · let sent := d.ping_timestamp c
    let r := Ping.receivePong sent.ts sent.id id d.now.head
    let cleared : Data Code User := { d with
      ping_timestamp := Function.update d.ping_timestamp c ⟨r.1, sent.id⟩
      now := d.now.tail }
    have hpong : receivePong a c id d = r.2.foldl (fun d value => d.callback a (.pongCallback c value)) cleared :=
      if_pos hwaits
    have hcalls := told_callbacks a (Entry.pongCallback c) r.2 cleared
    rw [← hpong] at hcalls
    refine ⟨r.2.map (.pongCallback c), ?_, by simp [Entry.plain], fun hstirs => ?_⟩
    · exact ⟨hcalls.memory, hcalls.held, hcalls.registry, hcalls.records, hcalls.server, hcalls.broadcast, hcalls.log⟩
    · simp [Data.stirs, hwaits] at hstirs
  · have hsame : receivePong a c id d = d := if_neg hwaits
    rw [hsame]
    exact ⟨[], told_nil d, by simp, by simp⟩

/-- What a line can do once it is in the log. -/
inductive Handles (a : Setup Code User) (c : ℕ) (w w' : World Code User) : Request → Prop
  | calm (r : Request) (h : Calm a c r w w') (hnot : ∀ id arg, r ≠ .control .endRegexp id arg) :
      Handles a c w w' r
  | endRegexp (id : ℤ) (arg : Text) (h : Completed a c w w') : Handles a c w w' (.control .endRegexp id arg)
  | die (id : ℤ) (arg : Text) (h : Died w w') : Handles a c w w' (.control .die id arg)

def logged (c : ℕ) (r : Request) (w : World Code User) : World Code User :=
  { w with user := w.user.record (.receive c r) }

theorem log_logged (c : ℕ) (r : Request) (w : World Code User) :
    (logged c r w).user.log = w.user.log ++ [.receive c r] := rfl

section Cases
variable {a : Setup Code User} {c : ℕ} {w w' : World Code User}

theorem handles_control {kind : MsgType} {id : ℤ} {arg : Text} (hc : w.user.Linked c)
    (hw : receiveControl a c kind id arg (setClientId c id w) = some w') :
    Handles a c w w' (.control kind id arg) := by
  have hlinked : (setId w.user.registry c id).allClients.find c ≠ none :=
    fun hnone => hc ((sameClients_setId id c).mp hnone)
  cases kind with
  | bye =>
    obtain rfl := Option.some.inj hw
    refine .calm _ ?_ (by simp)
    exact calm_setClientId (told_nil _) (by simp) (by simp) (by simp [socketClose, setClientId]) (.inr ⟨rfl, rfl⟩)
  | addRegexp =>
    obtain ⟨d, hd, rfl⟩ := Option.map_eq_some_iff.mp hw
    refine .calm _ ?_ (by simp)
    unfold receiveAddRegexp at hd
    split_ifs at hd with haccepted
    · refine calm_registryLine (stirs_of_acts rfl) hd (fun t ht => lineDone_addRegexp hlinked ht) (fun id' hid => ?_) ?_
      · have hid : id = id' := hid
        simp [Request.rebinds, hid, haccepted]
      · intro id' r' heq
        simp_all
    · obtain rfl := Option.some.inj hd
      refine calm_setClientId (told_callback a _ _) (by simp [Entry.plain]) (fun id' r' heq => ?_)
        (by simp [Data.stirs, Request.acts]) (.inl rfl)
      obtain ⟨-, rfl, rfl⟩ := Request.control.inj heq
      exact Bool.eq_false_iff.mpr haccepted
  | msg | error =>
    obtain rfl := Option.some.inj hw
    refine .calm _ ?_ (by simp)
    exact calm_setClientId (told_nil _) (by simp) (by simp) (by simp [setClientId]) (.inl rfl)
  | delRegexp =>
    obtain ⟨d, hd, rfl⟩ := Option.map_eq_some_iff.mp hw
    refine .calm _ ?_ (by simp)
    refine calm_registryLine (stirs_of_acts rfl) hd (fun t ht => lineDone_delRegexp hlinked ht) (fun id' hid => ?_) (by simp)
    have hid : id = id' := hid
    simp [Request.rebinds, hid]
  | endRegexp =>
    obtain ⟨d, hd, rfl⟩ := Option.map_eq_some_iff.mp hw
    exact .endRegexp id arg (completed_endRegexp hc hd)
  | startRegexp => exact .calm _ (calm_startRegexp hc hw) (by simp)
  | directMsg =>
    obtain rfl := Option.some.inj hw
    refine .calm _ ?_ (by simp)
    exact calm_setClientId (told_callback a _ _) (by simp [Entry.plain]) (by simp) (by simp [Data.stirs, Request.acts])
      (.inl rfl)
  | die => exact .die id arg (died_die hw)
  | ping =>
    obtain rfl := Option.some.inj hw
    refine .calm _ ?_ (by simp)
    refine calm_setClientId (told_msgSendTo a _ c .pong id []) ?_ (by simp) (fun hstirs => ?_) (.inl rfl)
    · exact List.forall_mem_cons.mpr ⟨rfl, plain_report c _⟩
    · have hreport : Bus.report w.user.states.head = none := by simpa [Data.stirs] using hstirs
      have hreport : Bus.report (setClientId c id w).user.states.head = none := hreport
      refine ⟨msg_recv_msgSendTo a c .pong id [] hreport, ?_⟩
      rw [hreport]
      simp [reports, Entry.isSend]
  | pong =>
    obtain rfl := Option.some.inj hw
    refine .calm _ ?_ (by simp)
    obtain ⟨entries, htold, hplain, hquiet⟩ := receivePong_told a c id (setClientId c id w).user
    exact calm_setClientId htold hplain (by simp) hquiet (.inl rfl)

theorem handles_request {r : Request} (hc : w.user.Linked c) (hw : receiveRequest a c w r = some w') :
    Handles a c w w' r := by
  have hid (r : Request) (id : ℤ) (hr : ∀ kind id arg, r ≠ .control kind id arg) :
      Handles a c w (setClientId c id w) r := by
    refine .calm _ ?_ fun id arg => hr .endRegexp id arg
    refine calm_setClientId (told_nil _) (by simp) (fun id r' h => ?_) (by simp [setClientId]) (.inl rfl)
    exact absurd h (hr .addRegexp id r')
  cases r with
  | ignored =>
    obtain rfl := Option.some.inj hw
    refine .calm _ ?_ (by simp)
    exact calm_of_told (told_nil _) (by simp) (fun _ => Iff.rfl) (fun _ _ _ hmem _ => hmem) (by simp)
      (by simp) (.inl rfl)
  | badFormat =>
    obtain rfl := Option.some.inj hw
    refine .calm _ ?_ (by simp)
    have htold : Told { w.user with registry := w.user.registry } (quitBadFormat a c w).user _ :=
      (told_msgSendTo a w.user c .error MsgType.error.code (ascii "bad format request expected 'type id ...'")).trans
        (told_msgSendTo a _ c .bye 0 [])
    refine calm_of_told htold ?_ (fun _ => Iff.rfl) (fun _ _ _ hmem _ => hmem) (by simp)
      (fun hstirs => ⟨rfl, fun _ => rfl, ?_⟩) (.inr ⟨rfl, rfl⟩)
    · exact List.forall_mem_append.mpr ⟨List.forall_mem_cons.mpr ⟨rfl, plain_report c _⟩,
        List.forall_mem_cons.mpr ⟨rfl, plain_report c _⟩⟩
    · obtain ⟨hfirst, hsecond⟩ : Bus.report w.user.states.head = none ∧ Bus.report w.user.states.tail.head = none := by
        simpa [Data.stirs] using hstirs
      let e := w.user.msgSendTo a c .error MsgType.error.code (ascii "bad format request expected 'type id ...'")
      have hbye : Bus.report e.states.head = none := by
        rw [states_msgSendTo]
        exact hsecond
      have herror : e.msg_recv = w.user.msg_recv := msg_recv_msgSendTo a c .error _ _ hfirst
      refine ⟨(msg_recv_msgSendTo a c .bye 0 [] hbye).trans herror, ?_⟩
      rw [hfirst, hbye]
      simp [reports, Entry.isSend]
  | control kind id arg => exact handles_control hc hw
  | call id callback user_data argv =>
    obtain rfl := Option.some.inj hw
    refine .calm _ ?_ (by simp)
    exact calm_setClientId (told_callback a _ _) (by simp [Entry.plain]) (by simp) (by simp [Data.stirs, Request.acts])
      (.inl rfl)
  | unhandled id | noCallback id | tooManyArgs id | notFound id =>
    obtain rfl := Option.some.inj hw
    exact hid _ id (by simp)

/-- `Receive` has a record to read, and the line is handled as its request says. -/
theorem receive_handles {line : Text} (hw : receive a c w line = some w') :
    w.user.Served c ∧ Handles a c (logged c (w.user.request c line) w) w' (w.user.request c line) := by
  unfold receive at hw
  dsimp only at hw
  split_ifs at hw with hserved
  exact ⟨hserved, handles_request hserved.2 hw⟩

end Cases
end Ivy.Agent
