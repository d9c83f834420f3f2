import Ivy.Agent.Lifetime

/-! The lines of a connection that `Receive` has closed. Closing marks the channel, and only the loser
of the arbitration ignores what `HandleSocket` still hands over. -/
namespace Ivy.Agent
open Socket Registry

variable {Code User : Type*}

def Entry.isCallback : Entry Code → Bool
  | .applicationCallback .. | .msgCallback .. | .directCallback .. | .dieCallback .. => true
  | .filterCallback .. | .registry (.bindCallback ..) | .pongCallback .. => true
  | _ => false

structure Quiet (w w' : World Code User) : Prop where
  dictionary : w'.user.registry.messSndByRegexp = w.user.registry.messSndByRegexp
  sources : ∀ c, w'.user.registry.allClients.srcs c = w.user.registry.allClients.srcs c
  msg_recv : w'.user.msg_recv = w.user.msg_recv
  callbacks : w'.user.log.filter Entry.isCallback = w.user.log.filter Entry.isCallback

/-- A line of a connection that is closed does nothing. -/
def Silent (a : Setup Code User) (c : ℕ) (w : World Code User) (line : Text) : Prop :=
  Marked w c → ∀ w' ∈ receive a c w line, Quiet w w'

/-- In a read no line behind one that closes the connection stirs. -/
def ClosesLast (a : Setup Code User) (c : ℕ) : Bool → World Code User → List Text → Prop
  | _, _, [] => True
  | closed, w, line :: rest =>
    (closed = true → w.user.stirs a c (w.user.request c line) = false) ∧
      ∀ w' ∈ receive a c w line, ClosesLast a c (closed || (w.user.request c line).closes) w' rest

instance decidableClosesLast (a : Setup Code User) (c : ℕ) :
    ∀ closed w lines, Decidable (ClosesLast a c closed w lines)
  | _, _, [] => .isTrue trivial
  | closed, w, line :: rest =>
    haveI := fun w' => decidableClosesLast a c (closed || (w.user.request c line).closes) w' rest
    inferInstanceAs (Decidable ((_ → _ = false) ∧
      ∀ w' ∈ receive a c w line, ClosesLast a c (closed || (w.user.request c line).closes) w' rest))

def ReadsCloseLast (a : Setup Code User) (w : World Code User) : Loop.Handler Unit Env → Prop
  | .read env ch => w.user.sock ch.id ≠ none →
      ClosesLast a ch.id false w (completed ch.id env.received w.user)
  | _ => True

instance (a : Setup Code User) (w : World Code User) : ∀ h, Decidable (ReadsCloseLast a w h)
  | .read _ _ => inferInstanceAs (Decidable (_ ≠ none → _))
  | .delete _ _ | .write _ _ | .hook _ => inferInstanceAs (Decidable True)

/-- A connection that is to be deleted and does not ignore its lines. -/
def Talking (w : World Code User) (c : ℕ) : Prop :=
  Marked w c ∧ w.user.Linked c ∧ (w.user.records c).ignore_subsequent_msg = false

section Lines
variable {a : Setup Code User} {c : ℕ} {w w' : World Code User} {line : Text}

theorem request_of_ignore (h : (w.user.records c).ignore_subsequent_msg = true) :
    w.user.request c line = .ignored := by
  rw [Data.request, h]
  rfl

theorem stirs_logged (r r' : Request) : (logged c r w).user.stirs a c r' = w.user.stirs a c r' := by
  cases r' with
  | control kind id arg => cases kind <;> rfl
  | _ => rfl

theorem quiet_receive (hstirs : w.user.stirs a c (w.user.request c line) = false)
    (hw : receive a c w line = some w') : Quiet w w' := by
  obtain ⟨-, hhandles⟩ := receive_handles hw
  generalize w.user.request c line = r at hstirs hhandles
  cases hhandles with
  | calm _ hcalm =>
    obtain ⟨hdict, hsrcs, hrecv, extra, hlog, hsends⟩ := hcalm.quiet ((stirs_logged r r).trans hstirs)
    refine ⟨hdict, hsrcs, hrecv, ?_⟩
    have hnone : extra.filter Entry.isCallback = [] := by
      refine List.filter_eq_nil_iff.mpr fun e he => ?_
      have hsend := hsends e he
      cases e <;> simp_all [Entry.isSend, Entry.isCallback]
    rw [hlog, List.filter_append, hnone, List.append_nil]
    simp [logged, Data.record, Entry.isCallback]
  | endRegexp id arg =>
    rw [stirs_of_acts rfl] at hstirs
    exact Bool.noConfusion hstirs
  | die id arg =>
    rw [stirs_of_acts rfl] at hstirs
    exact Bool.noConfusion hstirs

theorem talking_receive (hw : receive a c w line = some w') {c' : ℕ} (htalk : Talking w' c') :
    Talking w c' ∨ (c' = c ∧ (w.user.request c line).closes = true) := by
  obtain ⟨-, hhandles⟩ := receive_handles hw
  generalize w.user.request c line = r at hhandles
  obtain ⟨hmarked, hlinked, hlistens⟩ := htalk
  cases hhandles with
  | calm _ hcalm =>
    have hlistens' : (w.user.records c').ignore_subsequent_msg = false := by
      by_contra hignores
      have hignores : (w.user.records c').ignore_subsequent_msg = true := by simpa using hignores
      have hstill := hcalm.ignored c' hignores
      rw [hstill] at hlistens
      exact absurd hlistens (by simp)
    have hlinked' : w.user.Linked c' := mt (hcalm.clients c').mpr hlinked
    rcases hcalm.marked c' hmarked with hold | hignored | hcloses
    · exact .inl ⟨hold, hlinked', hlistens'⟩
    · rw [hignored] at hlistens
      exact absurd hlistens (by simp)
    · exact .inr hcloses
  | endRegexp id arg hend =>
    refine .inl ⟨?_, mt (hend.clients c').mpr hlinked, ?_⟩
    · rwa [Marked, hend.channels] at hmarked
    · rw [hend.records, Function.update_apply] at hlistens
      split_ifs at hlistens with hc
      · rw [hc]
        exact hlistens
      · exact hlistens
  | die id arg hdied => exact absurd hlinked (hdied.unlinked c')

/-- In one read, a connection that talks after it was closed says nothing that stirs. -/
theorem silent_lines {closed : Bool} {lines : List Text} (hlast : ClosesLast a c closed w lines)
    (htalk : Talking w c → closed = true) : Machine.Guarded (receive a c) (Silent a c) w lines := by
  induction lines generalizing w closed with
  | nil => trivial
  | cons line rest ih =>
    refine ⟨fun hmarked w' hw => ?_, fun w' hw => ih (hlast.2 w' hw) fun htalk' => ?_⟩
    · refine quiet_receive ?_ hw
      cases hignore : (w.user.records c).ignore_subsequent_msg with
      | true =>
        rw [request_of_ignore hignore]
        rfl
      | false => exact hlast.1 (htalk ⟨hmarked, (receive_handles hw).1.2, hignore⟩)
    · rw [Bool.or_eq_true]
      exact (talking_receive hw htalk').imp htalk And.right

end Lines
section Handlers
variable {a : Setup Code User} {c : ℕ} {w w' : World Code User}

/-- No connection but `c` starts to be closed and go on talking. -/
def OnlyTalks (c : ℕ) (w w' : World Code User) : Prop :=
  w.channels.brk ≤ w'.channels.brk ∧ ∀ c' < w.channels.brk, c' ≠ c → Talking w' c' → Talking w c'

theorem OnlyTalks.trans {v : World Code User} (h : OnlyTalks c w v) (h' : OnlyTalks c v w') :
    OnlyTalks c w w' :=
  ⟨Nat.le_trans h.1 h'.1, fun c' hlt hc htalk =>
    h.2 c' hlt hc (h'.2 c' (Nat.lt_of_lt_of_le hlt h.1) hc htalk)⟩

theorem onlyTalks_socketClose : OnlyTalks c w (socketClose c w) := by
  refine ⟨Nat.le_refl _, fun c' _ hc htalk => ?_⟩
  rcases marked_socketClose htalk.1 with hold | heq
  · exact ⟨hold, htalk.2⟩
  · exact absurd heq hc

theorem onlyTalks_line {line : Text} (hw : receive a c w line = some w') : OnlyTalks c w w' := by
  have hbrk : w'.channels.brk = w.channels.brk := by
    obtain ⟨-, hhandles⟩ := receive_handles hw
    generalize w.user.request c line = r at hhandles
    cases hhandles with
    | calm _ hcalm => exact hcalm.brk
    | endRegexp id arg hend => exact congrArg _ hend.channels
    | die id arg hdied => exact hdied.brk
  refine ⟨Nat.le_of_eq hbrk.symm, fun c' _ hc htalk => ?_⟩
  exact (talking_receive hw htalk).resolve_right fun h => hc h.1

theorem find_ivyChannelAdd {l : Loop.Channels Unit} {fd : ℕ} {c : ℕ} (hlt : c < l.brk) :
    (l.ivyChannelAdd fd () true).find c = l.find c := by
  refine (Keyed.find_cons _).trans (if_neg ?_)
  exact (Nat.ne_of_lt hlt).symm

theorem onlyTalks_connects {addresses : Addresses} (hconn : Connects addresses w w') : OnlyTalks c w w' := by
  obtain ⟨fd, hchannels⟩ := hconn.channels
  refine ⟨by simp [hconn.brk], fun c' hlt _ htalk => ?_⟩
  obtain ⟨hmarked, hlinked, hlistens⟩ := htalk
  have hne : c' ≠ w.channels.brk := Nat.ne_of_lt hlt
  refine ⟨?_, fun hnone => hlinked ((hconn.clients c').mpr ⟨hne, hnone⟩), ?_⟩
  · rwa [Marked, hchannels, find_ivyChannelAdd hlt] at hmarked
  · rwa [hconn.records, Function.update_of_ne hne] at hlistens

theorem onlyTalks_rejects {addresses : Addresses} (hreject : Rejects addresses w w') : OnlyTalks c w w' := by
  obtain ⟨fd, hchannels⟩ := hreject.channels
  refine ⟨by simp [hreject.brk], fun c' hlt _ htalk => ?_⟩
  obtain ⟨hmarked, hlinked, hlistens⟩ := htalk
  rw [Data.Linked, hreject.registry] at hlinked
  rw [hreject.records] at hlistens
  refine ⟨?_, hlinked, hlistens⟩
  have hclosed : Marked (socketClose w.channels.brk
      { w with channels := w.channels.ivyChannelAdd fd () true }) c' := by rwa [Marked, hchannels] at hmarked
  rcases marked_socketClose hclosed with hold | heq
  · rwa [Marked, find_ivyChannelAdd hlt] at hold
  · exact absurd heq (Nat.ne_of_lt hlt)

theorem onlyTalks_same (hchannels : w'.channels = w.channels) (hregistry : w'.user.registry = w.user.registry)
    (hrecords : w'.user.records = w.user.records) : OnlyTalks c w w' := by
  refine ⟨Nat.le_of_eq (by rw [hchannels]), fun c' _ _ htalk => ?_⟩
  rwa [Talking, Marked, Data.Linked, hchannels, hregistry, hrecords] at htalk

theorem onlyTalks_read {env : Env} (hw : handleRead a c env w = some w') : OnlyTalks c w w' := by
  unfold handleRead at hw
  split at hw
  · simp at hw
  · unfold handleServer at hw
    split at hw
    · obtain rfl := Option.some.inj hw
      exact onlyTalks_same rfl rfl rfl
    · rcases clientCreate_cases hw with hconnects | hrejects
      · exact onlyTalks_connects hconnects
      · exact onlyTalks_rejects hrejects
  · have hsender : OnlyTalks c w { w with user := w.user.setMemory c (some (.broadcast env.sender)) } :=
      onlyTalks_same rfl rfl rfl
    rcases handleSocket_cases hw with rfl | ⟨v, held, rfl, hv⟩
    · exact hsender.trans onlyTalks_socketClose
    · refine OnlyTalks.trans ?_ (onlyTalks_same rfl rfl rfl : OnlyTalks c v _)
      refine Machine.run_reaches (I := fun _ => OnlyTalks c w) hsender (fun _ u line u' hu hstep => ?_) hv
      obtain ⟨x, hx, hu'⟩ := broadcastReceive_cases hstep
      have hxw : OnlyTalks c w x := by
        rcases hx with rfl | ⟨connects, rfl⟩
        · exact hu
        · exact hu.trans (onlyTalks_same rfl rfl rfl)
      rcases hu' with rfl | ⟨addresses, hconnects⟩
      · exact hxw
      · exact hxw.trans (onlyTalks_connects hconnects)
  · rcases handleSocket_cases hw with rfl | ⟨v, held, rfl, hv⟩
    · exact onlyTalks_socketClose
    · refine OnlyTalks.trans ?_ (onlyTalks_same rfl rfl rfl : OnlyTalks c v _)
      exact Machine.run_reaches (I := fun _ => OnlyTalks c w) (onlyTalks_same rfl rfl rfl)
        (fun _ u line u' hu hstep => hu.trans (onlyTalks_line hstep)) hv

end Handlers

section Loop
variable {a : Setup Code User} {s t : Loop.State Unit (Data Code User)}

/-- Between the deferred deletions and the reads no connection goes on talking after it was closed,
and none whose read is still to come. -/
def Quieted (w : World Code User) : Loop.Pc → Prop
  | .channelDefferedDelete next => ∀ c, Talking w c → c ∈ next
  | .select | .selected _ | .ivyChannelHandleExcpt _ _ => ∀ c, ¬ Talking w c
  | .ivyChannelHandleRead next _ => next.Nodup ∧ ∀ c ∈ next, c < w.channels.brk ∧ ¬ Talking w c
  | .top | .ivyChannelHandleWrite _ _ => True

theorem Deletes.talking {c c' : ℕ} {w w' : World Code User} (hdel : Deletes c w w') (htalk : Talking w' c') :
    Talking w c' := by
  obtain ⟨hmarked, hlinked, hlistens⟩ := htalk
  refine ⟨?_, fun hnone => hlinked ((hdel.clients c').mpr (.inr hnone)), ?_⟩
  · rwa [Marked, hdel.channels] at hmarked
  · rwa [hdel.records] at hlistens

theorem talking_unlink {w : World Code User} {c fd c' : ℕ}
    (htalk : Talking { w with channels := w.channels.unlink c fd } c') : Talking w c' ∧ c' ≠ c := by
  obtain ⟨hmarked, hrest⟩ := htalk
  have hfind : (w.channels.unlink c fd).find c' = (w.channels.find c').filter (·.id ≠ c) :=
    Keyed.find_filter _ w.channels.nodup
  rw [Marked, hfind] at hmarked
  cases hch : w.channels.find c' with
  | none => simp [hch] at hmarked
  | some ch =>
    have hid : ch.id = c' := Keyed.find_key hch
    have hboth : ch.id ≠ c ∧ ch.tobedeleted = true := by
      by_cases hc : ch.id = c <;> simp_all
    refine ⟨⟨?_, hrest⟩, hid ▸ hboth.1⟩
    simp [Marked, hch, hboth.2]

theorem talking_hook {w : World Code User} {congested : List ℕ} {c : ℕ} :
    Talking (hook a congested w) c ↔ Talking w c := by
  obtain ⟨l, hlist, -, heq⟩ := foldl_congest congested w
  have hfind : l.find c = w.channels.find c := by rw [Loop.Channels.find, hlist, Loop.Channels.find]
  unfold hook
  rw [heq, Talking, Marked, hfind]
  exact Iff.rfl

theorem quieted_delete {c : ℕ} {next : List ℕ} {env : Env} {ch : Loop.Channel Unit}
    (h : ∀ c', Talking s.world c' → c' ∈ c :: next) (hch : s.world.channels.find c = some ch)
    (ht : Loop.visitDelete (program a) env ch s = some t) : ∀ c', Talking t.world c' → c' ∈ next := by
  have hid : ch.id = c := Keyed.find_key hch
  have hrest (c' : ℕ) (htalk : Talking s.world c') (hne : c' ≠ c) : c' ∈ next :=
    (List.mem_cons.mp (h c' htalk)).resolve_left hne
  unfold Loop.visitDelete Loop.ivyChannelDelete Loop.callDelete at ht
  split_ifs at ht with hmarked hdelete
  · obtain ⟨u, hu, rfl⟩ := Option.map_eq_some_iff.mp ht
    obtain ⟨w, hw, rfl⟩ := Option.map_eq_some_iff.mp hu
    intro c' htalk
    obtain ⟨hold, hne⟩ := talking_unlink htalk
    exact hrest c' ((deleteSocket_deletes hw).talking hold) (hid ▸ hne)
  · obtain ⟨u, hu, rfl⟩ := Option.map_eq_some_iff.mp ht
    obtain rfl := Option.some.inj hu
    intro c' htalk
    obtain ⟨hold, hne⟩ := talking_unlink htalk
    exact hrest c' hold (hid ▸ hne)
  · obtain rfl := Option.some.inj ht
    intro c' htalk
    refine hrest c' htalk fun hc => ?_
    have hmark := htalk.1
    rw [hc, Marked, hch] at hmark
    exact hmarked hmark

theorem quieted_excpt {sets : Loop.FdSets} {env : Env} {ch : Loop.Channel Unit}
    (h : ∀ c, ¬ Talking s.world c) (ht : Loop.visitExcpt (program a) env sets ch s = some t) :
    ∀ c, ¬ Talking t.world c := by
  unfold Loop.visitExcpt Loop.callDelete at ht
  split_ifs at ht with hset hdelete
  · obtain ⟨w, hw, rfl⟩ := Option.map_eq_some_iff.mp ht
    exact fun c htalk => h c ((deleteSocket_deletes hw).talking htalk)
  · obtain rfl := Option.some.inj ht
    exact h
  · obtain rfl := Option.some.inj ht
    exact h

theorem quieted_read {c : ℕ} {next : List ℕ} {sets : Loop.FdSets} {env : Env} {ch : Loop.Channel Unit}
    (hnodup : (c :: next).Nodup) (h : ∀ c' ∈ c :: next, c' < s.world.channels.brk ∧ ¬ Talking s.world c')
    (hid : ch.id = c) (ht : Loop.visitRead (program a) env sets ch s = some t) :
    next.Nodup ∧ ∀ c' ∈ next, c' < t.world.channels.brk ∧ ¬ Talking t.world c' := by
  obtain ⟨hnot, hnext⟩ := List.nodup_cons.mp hnodup
  refine ⟨hnext, fun c' hc' => ?_⟩
  obtain ⟨hlt, hquiet⟩ := h c' (List.mem_cons_of_mem _ hc')
  unfold Loop.visitRead at ht
  split_ifs at ht with hset
  · obtain ⟨w, hw, rfl⟩ := Option.map_eq_some_iff.mp ht
    obtain ⟨hbrk, honly⟩ := onlyTalks_read hw
    have hne : c' ≠ ch.id := fun heq => hnot (hid ▸ heq ▸ hc')
    exact ⟨Nat.lt_of_lt_of_le hlt hbrk, fun htalk => hquiet (honly c' hlt hne htalk)⟩
  · obtain rfl := Option.some.inj ht
    exact ⟨hlt, hquiet⟩

theorem quieted_advance {env : Env} (h : Quieted s.world s.pc)
    (ht : Loop.advance (program a) env s = some t) : Quieted t.world t.pc := by
  unfold Loop.advance at ht
  split at ht
  case h_1 => simp at ht
  case h_2 hpc =>
    obtain rfl := Option.some.inj ht
    rw [hpc] at h
    exact fun c htalk => absurd (h c htalk) List.not_mem_nil
  case h_3 c next hpc =>
    obtain ⟨ch, u, hch, hu, rfl⟩ := Loop.visit_cases ht
    rw [hpc] at h
    have hquieted := quieted_delete h hch hu
    exact hquieted
  case h_4 => simp at ht
  case h_5 sets hpc =>
    obtain rfl := Option.some.inj ht
    rw [hpc] at h
    exact h
  case h_6 sets hpc =>
    obtain rfl := Option.some.inj ht
    rw [hpc] at h
    exact ⟨s.world.channels.nodup, fun c hc => ⟨Loop.Channels.ids_lt hc, h c⟩⟩
  case h_7 c next sets hpc =>
    obtain ⟨ch, u, hch, hu, rfl⟩ := Loop.visit_cases ht
    rw [hpc] at h
    have hquieted := quieted_excpt h hu
    exact hquieted
  case h_8 =>
    obtain rfl := Option.some.inj ht
    trivial
  case h_9 c next sets hpc =>
    obtain ⟨ch, u, hch, hu, rfl⟩ := Loop.visit_cases ht
    rw [hpc] at h
    have hquieted := quieted_read h.1 h.2 (Keyed.find_key hch) hu
    exact hquieted
  case h_10 =>
    obtain rfl := Option.some.inj ht
    trivial
  case h_11 =>
    obtain ⟨ch, u, hch, hu, rfl⟩ := Loop.visit_cases ht
    trivial

theorem quieted_hook {env : Env} (h : ∀ c, ¬ Talking s.world c)
    (hpc : (∀ c, ¬ Talking t.world c) → Quieted t.world s.pc)
    (ht : s.withWorld ((program a).hook env s.world) = some t) : Quieted t.world t.pc := by
  obtain ⟨w, hw, rfl⟩ := Option.map_eq_some_iff.mp ht
  obtain rfl := Option.some.inj hw
  apply hpc
  intro c htalk
  exact h c (talking_hook.mp htalk)

theorem quieted_step {e : Loop.Event Env} (h : Quieted s.world s.pc)
    (ht : Loop.step (program a) s e = some t) : Quieted t.world t.pc := by
  cases e with
  | enter idle =>
    simp only [Loop.step] at ht
    split at ht
    · split_ifs at ht
      obtain rfl := Option.some.inj ht
      intro c htalk
      cases hch : s.world.channels.find c with
      | none =>
        have hmarked := htalk.1
        simp [Marked, Loop.State.goto, hch] at hmarked
      | some ch => exact Loop.Channels.mem_ids.mpr ⟨ch, hch⟩
    · simp at ht
  | next env => exact quieted_advance h ht
  | hook env =>
    simp only [Loop.step] at ht
    split at ht
    · rename_i hpc
      exact quieted_hook (by rwa [hpc] at h) (by rw [hpc]; exact fun hnone => hnone) ht
    · rename_i sets hpc
      exact quieted_hook (by rwa [hpc] at h) (by rw [hpc]; exact fun hnone => hnone) ht
    · simp at ht
  | select ready =>
    simp only [Loop.step] at ht
    split at ht
    · rename_i hpc
      obtain rfl := Option.some.inj ht
      rw [hpc] at h
      cases ready with
      | none => trivial
      | some r => exact h
    · simp at ht

theorem quieted_of_read {e : Loop.Event Env} (h : Quieted s.world s.pc) {env : Env} {ch : Loop.Channel Unit}
    (he : s.handler e = some (.read env ch)) : ¬ Talking s.world ch.id := by
  cases e with
  | enter idle => simp [Loop.State.handler] at he
  | hook env => simp [Loop.State.handler] at he
  | select ready => simp [Loop.State.handler] at he
  | next env =>
    simp only [Loop.State.handler] at he
    split at he
    case h_3 c next sets hpc =>
      obtain ⟨ch', hch', heq⟩ := Option.map_eq_some_iff.mp he
      obtain ⟨-, rfl⟩ := Loop.Handler.read.inj heq
      have hid : ch'.id = c := Keyed.find_key (Option.filter_eq_some_iff.mp hch').1
      rw [hpc] at h
      exact (h.2 ch'.id (hid ▸ List.mem_cons_self)).2
    all_goals simp at he

end Loop

/-- If in each read no line that stirs follows one that closes the connection, a closed connection is
silent. -/
theorem closed_is_silent (a : Setup Code User) (o : Opened User) (events : List (Loop.Event Env))
    (hlast : Machine.Guarded (Loop.step (program a)) (Loop.OnHandler (ReadsCloseLast a))
      (Loop.started (ivyStart o)) events) :
    Machine.Guarded (Loop.step (program a)) (Loop.OnHandler (OnLines a (Silent a)))
      (Loop.started (ivyStart o)) events := by
  have hstart : Quieted (ivyStart o : World Code User) Loop.Pc.top := trivial
  refine hlast.imp (I := fun s => Quieted s.world s.pc) hstart
    (fun s e t h _ ht => quieted_step h ht) fun s e h hreads hd hhd => ?_
  have hread := hreads hd hhd
  cases hd with
  | read env ch =>
    exact fun hsock => silent_lines (hread hsock) fun htalk => absurd htalk (quieted_of_read h hhd)
  | delete | write | hook => trivial

def oneSegment (lines : List (List UInt8)) : List (Loop.Event Env) :=
  turn 2 {3} [nothing, accepts 5 40000] 3 ++ turn 3 {5} [reads lines.flatten] 3

/-- Behind the `Bye` there are lines that a closed connection may send: a ping, a pong that nobody waits for,
a message that nobody asked for, and a line without an argument. -/
theorem closed_is_silent_bye :
    Machine.Guarded (Loop.step (program plainAgent)) (Loop.OnHandler (OnLines plainAgent (Silent plainAgent)))
      (Loop.started (ivyStart opened)) (oneSegment [msgFrame .directMsg 0 (ascii "hello"), msgFrame .bye 0 [],
        msgFrame .ping 1 [], msgFrame .pong 1 [], msgFrame .msg 7 [], ascii "x\n"]) :=
  closed_is_silent plainAgent opened _ (by decide +kernel)

/-- A direct message that stands behind a `Bye` in the segment is delivered. -/
theorem closed_delivers_direct_message :
    ¬ Machine.Guarded (Loop.step (program plainAgent))
      (Loop.OnHandler (OnLines plainAgent (Silent plainAgent))) (Loop.started (ivyStart opened))
      (oneSegment [msgFrame .bye 0 [], msgFrame .directMsg 0 (ascii "hello")]) := by
  intro hsilent
  let Uncalled (c : ℕ) (w : World Unit Unit) (line : Text) : Prop := Marked w c →
    ∀ w' ∈ receive plainAgent c w line, (w'.user.log.filter Entry.isCallback).length =
      (w.user.log.filter Entry.isCallback).length
  have huncalled : Machine.Guarded (Loop.step (program plainAgent))
      (Loop.OnHandler (OnLines plainAgent Uncalled)) (Loop.started (ivyStart opened))
      (oneSegment [msgFrame .bye 0 [], msgFrame .directMsg 0 (ascii "hello")]) := by
    refine hsilent.imp (I := fun _ => True) trivial (fun _ _ _ _ _ _ => trivial) fun s e _ hG hd hhd => ?_
    have hlines := hG hd hhd
    cases hd with
    | read env ch =>
      exact fun hsock => (hlines hsock).imp (I := fun _ => True) trivial (fun _ _ _ _ _ _ => trivial)
        fun w line _ h hmarked w' hw => congrArg List.length (h hmarked w' hw).callbacks
    | delete | write | hook => trivial
  revert huncalled
  decide +kernel

end Ivy.Agent
