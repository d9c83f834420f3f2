import Ivy.Registry.Subscription

/-! What the peer holds, once it has read the lines in flight, is what the subscriber has bound. -/
namespace Ivy.Registry

variable {Code : Type*}

theorem cutLine_frame {line : Line} (h : line.Sendable) (rest : List UInt8) :
    cutLine (line.frame ++ rest) = some (bufferId line.kind line.id ++ line.arg, rest) := by
  obtain ⟨hframe, hnl⟩ := line.frame_lines h
  have hall : ∀ b ∈ bufferId line.kind line.id ++ line.arg, decide (b ≠ newline) = true :=
    fun b hb => decide_eq_true fun hb' => hnl (hb' ▸ hb)
  rw [hframe, List.append_assoc, List.singleton_append, cutLine, if_pos (by simp),
    List.takeWhile_append_of_pos hall, List.dropWhile_append_of_pos hall,
    List.takeWhile_cons_of_neg (by simp), List.dropWhile_cons_of_neg (by simp), List.append_nil,
    List.tail_cons]

theorem readLine_frame {line : Line} (h : line.Sendable) :
    readLine (bufferId line.kind line.id ++ line.arg) = some line := Line.ofRequest_receive h _ _

/-- The lines in flight take the peer from what it holds to what the subscriber has bound. -/
structure Pending (c : ℕ) (s : Link Code) (m : ℤ → Option Text) (pending : List Line) : Prop where
  holds : Holds s.peer c m
  wire : s.wire = pending.flatMap Line.frame
  sendable : ∀ line ∈ pending, line.Sendable
  apply : pending.foldl Line.apply m = s.bindings.regexp

/-- The invariant of the link: before the connection the peer knows nothing of the subscriber. -/
structure Linked (c : ℕ) (s : Link Code) : Prop where
  lines : ∀ msg ∈ s.bindings.msg_recv, OneLine msg.regexp
  before : s.connected = false → s.wire = [] ∧ s.peer.allClients.find c = none ∧
    ∀ id r, ⟨c, id⟩ ∉ s.peer.messSndByRegexp.subs r
  after : s.connected = true → ∃ m pending, Pending c s m pending

theorem Linked.sendLine {c : ℕ} {s : Link Code} (h : Linked c s) {line : Line} (hline : line.Sendable)
    {b : Bindings} (hlines : ∀ msg ∈ b.msg_recv, OneLine msg.regexp)
    (hb : b.regexp = line.apply s.bindings.regexp) :
    Linked c (sendLine { s with bindings := b } line) := by
  cases hconn : s.connected with
  | false =>
    simp only [Registry.sendLine, Bool.false_eq_true, if_false]
    exact ⟨hlines, fun _ => h.before hconn, fun hc => absurd hc (by simp)⟩
  | true =>
    obtain ⟨m, pending, hp⟩ := h.after hconn
    simp only [Registry.sendLine, if_true]
    refine ⟨hlines, fun hc => absurd hc (by simp), fun _ => ⟨m, pending ++ [line], hp.holds, ?_, ?_, ?_⟩⟩
    · rw [hp.wire]
      simp
    · intro l hl
      rcases List.mem_append.mp hl with hl | hl
      · exact hp.sendable l hl
      · rw [List.mem_singleton.mp hl]
        exact hline
    · rw [List.foldl_append, hp.apply, hb]
      rfl

/-- Announcing the bindings to a peer that knows none tells it all of them. -/
theorem foldl_announce (msgs : List MsgRcv) (hids : (msgs.map (·.id)).Nodup) (m : ℤ → Option Text)
    (id : ℤ) :
    (msgs.map fun msg => Line.addRegexp msg.id msg.regexp).foldl Line.apply m id =
      ((Keyed.find (·.id) msgs id).map (·.regexp)).or (m id) := by
  induction msgs generalizing m with
  | nil => rfl
  | cons msg msgs ih =>
    obtain ⟨hnot, hids⟩ := List.nodup_cons.mp (List.map_cons ▸ hids)
    rw [List.map_cons, List.foldl_cons, ih hids, Keyed.find_cons, Line.apply, Function.update_apply]
    by_cases hid : msg.id = id
    · subst hid
      have hnone : Keyed.find (·.id) msgs msg.id = none := Keyed.find_eq_none.mpr hnot
      simp [hnone]
    · simp [hid, Ne.symm hid]

theorem foldl_serviceLines (a : Agents Code) (b : Bindings) :
    (serviceLines a b).foldl Line.apply (fun _ => none) = b.regexp := by
  funext id
  have hmsgs := foldl_announce b.msg_recv b.ids (fun _ => none) id
  rw [Option.or_none] at hmsgs
  rw [serviceLines, List.foldl_append, List.foldl_cons]
  exact hmsgs

theorem Bindings.id_mem (b : Bindings) {id : ℤ} (h : id ∈ b.msg_recv.map (·.id)) :
    -2 ^ 31 ≤ id ∧ id < 2 ^ 31 := by
  obtain ⟨msg, hmsg, rfl⟩ := List.mem_map.mp h
  have hrange := b.range msg hmsg
  have hrecv := b.recv
  omega

theorem Bindings.regexp_ne_none (b : Bindings) {id : ℤ} (h : id ∈ b.msg_recv.map (·.id)) :
    b.regexp id ≠ none := by
  rw [Bindings.regexp, Ne, Option.map_eq_none_iff, Keyed.find_eq_none]
  exact not_not_intro h

section
variable {a : Agents Code} {s : Link Code} (h : Linked a.client s)
include h

theorem linked_bind {regexp : Text} (hline : OneLine regexp) (hid : s.bindings.recv_id + 1 < 2 ^ 31)
    (callback : Option ℕ) (user_data : ℕ) :
    ∃ t, ivyBindMsg s regexp callback user_data = some t ∧ Linked a.client t := by
  have hrecv := s.bindings.recv
  have hsendable : (Line.addRegexp s.bindings.recv_id regexp).Sendable := by
    refine ⟨⟨?_, hrecv.2⟩, hline⟩
    simp only [Line.id]
    omega
  refine ⟨_, dif_pos hid, h.sendLine hsendable ?_
    (s.bindings.regexp_bind regexp callback user_data hid)⟩
  · intro msg hmsg
    rcases List.mem_cons.mp hmsg with rfl | hmsg
    · exact hline
    · exact h.lines msg hmsg

theorem linked_change {id : ℤ} (hid : id ∈ s.bindings.msg_recv.map (·.id)) {regexp : Text}
    (hline : OneLine regexp) : Linked a.client (ivyChangeMsg s id regexp) := by
  have hsendable : (Line.addRegexp id regexp).Sendable := ⟨s.bindings.id_mem hid, hline⟩
  refine h.sendLine hsendable ?_
    (s.bindings.regexp_change (s.bindings.regexp_ne_none hid) regexp)
  intro msg hmsg
  obtain ⟨msg, hmem, rfl⟩ := List.mem_map.mp hmsg
  unfold Bindings.setRegexp
  split_ifs
  · exact hline
  · exact h.lines msg hmem

theorem linked_unbind {id : ℤ} (hid : id ∈ s.bindings.msg_recv.map (·.id)) :
    Linked a.client (ivyUnbindMsg s id) := by
  have hcomm : ivyUnbindMsg s id =
      sendLine { s with bindings := s.bindings.unbind id } (.delRegexp id []) := by
    unfold ivyUnbindMsg sendLine
    split_ifs <;> rfl
  have hempty : OneLine [] := by decide
  have hsendable : (Line.delRegexp id []).Sendable := ⟨s.bindings.id_mem hid, hempty⟩
  rw [hcomm]
  refine h.sendLine hsendable ?_ (s.bindings.regexp_unbind id)
  exact fun msg hmsg => h.lines msg (List.mem_of_mem_filter hmsg)

theorem linked_connect (hconn : s.connected = false) :
    ∃ t, sendService a s = some t ∧ Linked a.client t := by
  obtain ⟨hwire, hfind, hnone⟩ := h.before hconn
  refine ⟨{ s with
      connected := true
      wire := s.wire ++ (serviceLines a s.bindings).flatMap Line.frame
      peer := { s.peer with allClients := s.peer.allClients.add a.client hfind } },
    by rw [sendService, step_connect hfind, Option.map_some], h.lines, fun hc => absurd hc (by simp),
    fun _ => ⟨fun _ => none, serviceLines a s.bindings, ?_, ?_, ?_, foldl_serviceLines a s.bindings⟩⟩
  · refine ⟨by simp [Clients.find_add], fun id r => ?_, fun id r => ?_⟩
    · rw [if_neg (by simp), List.count_eq_zero]
      exact hnone id r
    · have hsrcs : s.peer.allClients.srcs a.client = [] := by simp [Clients.srcs, hfind]
      rw [Clients.srcs_add, hsrcs]
      simp
  · rw [hwire, List.nil_append]
  · have hport := a.port
    simp only [serviceLines, List.cons_append, List.mem_cons, List.mem_append, List.mem_map,
      List.not_mem_nil, or_false]
    rintro line (rfl | ⟨msg, hmsg, rfl⟩ | rfl)
    · exact ⟨⟨by simp only [Line.id]; omega, by simp only [Line.id]; omega⟩, a.name⟩
    · exact ⟨s.bindings.id_mem (List.mem_map_of_mem hmsg), h.lines msg hmsg⟩
    · exact ⟨by decide, by decide⟩

omit h in
theorem Holds.receiveLine {p : State Code} {m : ℤ → Option Text} (hp : Holds p a.client m)
    {line : Line} (hfits : line.Fits p a.client) :
    ∃ t, receiveLine a.compile p a.client line = some t ∧ Holds t a.client (line.apply m) := by
  have hsame {t : State Code} {received : Bool} (ht : Completes a.client received p t) :
      Holds t a.client m := by
    refine ⟨?_, fun id r => ?_, fun id r => ?_⟩
    · rw [Ne, ← Clients.status_eq_none, ht.status, if_pos rfl]
      simp
    · rw [ht.dictionary]
      exact hp.count id r
    · rw [ht.srcs]
      exact hp.srcs id r
  cases line with
  | addRegexp id regexp => exact (hp.announce_iff id regexp).mpr hfits
  | delRegexp id arg => exact hp.retract id arg
  | startRegexp id arg =>
    obtain ⟨t, ht, hcompletes, -⟩ := receiveLine_start a.compile hp.open_ id arg
    exact ⟨t, ht, hsame hcompletes⟩
  | endRegexp id arg =>
    obtain ⟨t, ht, hcompletes⟩ := receiveLine_end a.compile hp.open_ id arg
    exact ⟨_, ht, hsame hcompletes.regenerate⟩

theorem linked_deliver (hnl : newline ∈ s.wire) (hfits : Unambiguous a s .deliver) :
    ∃ t, deliver a s = some t ∧ Linked a.client t := by
  have hconn : s.connected = true := by
    by_contra hconn
    simp [(h.before (by simpa using hconn)).1] at hnl
  obtain ⟨m, pending, hp⟩ := h.after hconn
  cases pending with
  | nil =>
    rw [hp.wire] at hnl
    simp at hnl
  | cons line pending =>
    have hline := hp.sendable line (by simp)
    have hcut : cutLine s.wire =
        some (bufferId line.kind line.id ++ line.arg, pending.flatMap Line.frame) := by
      rw [hp.wire, List.flatMap_cons, cutLine_frame hline]
    have hread := readLine_frame hline
    obtain ⟨peer, hpeer, hholds⟩ := hp.holds.receiveLine (hfits _ hcut line hread)
    refine ⟨{ s with wire := pending.flatMap Line.frame, peer := peer }, ?_, h.lines,
      fun hc => absurd (hconn.symm.trans hc) (by simp), fun _ => ⟨_, pending, hholds, rfl, ?_, hp.apply⟩⟩
    · simp only [deliver, hcut, Option.bind_some, hread, hpeer, Option.map_some]
    · exact fun l hl => hp.sendable l (by simp [hl])

theorem linked_step {e : Action} (hproper : Proper s e) (hfits : Unambiguous a s e) :
    ∃ t, act a s e = some t ∧ Linked a.client t := by
  cases e with
  | bind regexp callback user_data => exact linked_bind h hproper.1 hproper.2 callback user_data
  | change id regexp => exact ⟨_, rfl, linked_change h hproper.2 hproper.1⟩
  | unbind id => exact ⟨_, rfl, linked_unbind h hproper⟩
  | connect => exact linked_connect h hproper
  | deliver => exact linked_deliver h hproper hfits

end

/-- In a run whose announcements are all unambiguous, the peer has exactly the bindings of the
subscriber, each once, whenever nothing is in flight. -/
theorem subscription_agreement (a : Agents Code) (peer : State Code)
    (hnew : peer.allClients.find a.client = none)
    (hnone : ∀ id r, ⟨a.client, id⟩ ∉ peer.messSndByRegexp.subs r) (actions : List Action)
    (hrun : Machine.Guarded (act a) (fun s e => Proper s e ∧ Unambiguous a s e) (unconnected peer)
      actions) :
    ∃ t, Machine.run (act a) (unconnected peer) actions = some t ∧
      (t.connected = true → t.wire = [] → ∀ id r,
        (t.peer.messSndByRegexp.subs r).count ⟨a.client, id⟩ =
          if ∃ msg ∈ t.bindings.msg_recv, msg.id = id ∧ msg.regexp = r then 1 else 0) := by
  have hstart : Linked a.client (unconnected peer) :=
    ⟨by simp [unconnected, Bindings.empty], fun _ => ⟨rfl, hnew, hnone⟩, fun hc => absurd hc (by
      simp [unconnected])⟩
  obtain ⟨t, ht, hlinked⟩ := Machine.run_invariant hstart
    (fun s e h hG => linked_step h hG.1 hG.2) hrun
  refine ⟨t, ht, fun hconn hwire id r => ?_⟩
  obtain ⟨m, pending, hp⟩ := hlinked.after hconn
  have hpending : pending = [] := by
    cases pending with
    | nil => rfl
    | cons line pending =>
      have hframe := (line.frame_lines (hp.sendable line (by simp))).1
      have hw := hp.wire
      rw [hwire, List.flatMap_cons, hframe] at hw
      simp at hw
  have hm : m = t.bindings.regexp := by
    have happly := hp.apply
    rwa [hpending, List.foldl_nil] at happly
  rw [hp.holds.count, hm]
  simp only [Bindings.regexp_eq_some]

/-- Two agents on connection 1. -/
def twoAgents : Agents Unit :=
  ⟨fun _ => .ok (), 1, 2010, ascii "APP", by decide, by decide⟩

theorem subscription_agreement_example :
    ∃ t, Machine.run (act twoAgents) (unconnected initial)
      [.bind (ascii "a") (some 1) 0, .connect, .deliver, .deliver, .deliver, .unbind 0,
        .bind (ascii "b") (some 1) 0, .deliver, .deliver] = some t ∧
      (t.connected = true → t.wire = [] → ∀ id r,
        (t.peer.messSndByRegexp.subs r).count ⟨twoAgents.client, id⟩ =
          if ∃ msg ∈ t.bindings.msg_recv, msg.id = id ∧ msg.regexp = r then 1 else 0) := by
  apply subscription_agreement
  · rfl
  · exact fun id r => by simp [initial, Dictionary.subs, Dictionary.hashFind, Dictionary.empty,
      Keyed.find]
  · decide +kernel

/-- A binding changed while connected: the peer still has its first regexp. -/
theorem changed_regexp_kept :
    ∃ t, Machine.run (act twoAgents) (unconnected initial)
      [.bind (ascii "a") (some 1) 0, .connect, .deliver, .deliver, .deliver,
        .change 0 (ascii "b"), .deliver] = some t ∧
      t.connected = true ∧ t.wire = [] ∧
      (t.peer.messSndByRegexp.subs (ascii "a")).count ⟨1, 0⟩ = 1 ∧
      ∀ msg ∈ t.bindings.msg_recv, msg.regexp ≠ ascii "a" := by
  refine ⟨_, rfl, ?_⟩
  decide +kernel

end Ivy.Registry
