import Ivy.Binding.MsgRecv
import Ivy.Lib.History

/-! A binding that was removed is never read nor called again, and its id is not given again. -/
namespace Ivy.Binding
open Linked History Registry

/-- The bindings that were made, with their ids, and those that were removed. -/
structure Past where
  bound : List (ℕ × ℤ)
  unbound : List ℕ

namespace Past
variable (h : Past)

def after : Entry → Past
  | .bind msg id => { h with bound := h.bound ++ [(msg, id)] }
  | .unbind msg => { h with unbound := h.unbound ++ [msg] }
  | _ => h

def Holder (msg : ℕ) (id : ℤ) : Prop := (msg, id) ∈ h.bound ∧ msg ∉ h.unbound

end Past

def past (log : List Entry) : Past := log.foldl Past.after ⟨[], []⟩

@[simp] theorem past_concat (log : List Entry) (e : Entry) : past (log ++ [e]) = (past log).after e := by
  simp [past]

/-- A new binding has an address and an id of its own. Receive reads bindings that are not removed, and
calls the one that holds the id. -/
def Allowed (before : List Entry) : Entry → Prop
  | .bind msg id => ∀ p ∈ (past before).bound, p.1 ≠ msg ∧ p.2 ≠ id
  | .msg id read called => (∀ msg ∈ read, msg ∉ (past before).unbound) ∧
    ∀ msg ∈ called, (past before).Holder msg id
  | _ => True

/-- The list of bindings agrees with what happened. -/
structure Sound (s : State) (ns : List (ℕ × MsgRcv)) (b : Bindings) : Prop where
  holds : Holds s ns b
  holder : ∀ msg id, (past s.log).Holder msg id ↔ ∃ m, (msg, m) ∈ ns ∧ m.id = id
  bound : ∀ p ∈ (past s.log).bound, p.1 < s.msg_recv.brk ∧ p.2 < b.recv_id
  unbound : ∀ msg ∈ (past s.log).unbound, msg < s.msg_recv.brk
  placed : Placed Allowed s.log

/-- The functions are called for bindings that are not removed, and a callback that runs may return. -/
def Possible (s : State) : Event → Prop
  | .bind _ _ _ => True
  | .change msg _ => (s.msg_recv.node msg).isSome
  | .unbind msg => (s.msg_recv.node msg).isSome
  | .receive _ _ => True
  | .ret => s.running ≠ []

instance (s : State) : ∀ e, Decidable (Possible s e)
  | .bind _ _ _ => .isTrue trivial
  | .change _ _ => inferInstanceAs (Decidable (_ = true))
  | .unbind _ => inferInstanceAs (Decidable (_ = true))
  | .receive _ _ => .isTrue trivial
  | .ret => inferInstanceAs (Decidable (_ ≠ _))

def Event.isBind : Event → Bool
  | .bind _ _ _ => true
  | _ => false

def HasId (s : State) (e : Event) : Prop := e.isBind = true → s.recv_id + 1 < 2 ^ 31

section Keeps
variable {s t : State} {ns ms : List (ℕ × MsgRcv)} {b c : Bindings}

theorem Sound.initial : Sound initial [] .empty where
  holds := .initial
  holder msg id := by simp [past, Past.Holder, Binding.initial]
  bound p hp := absurd hp List.not_mem_nil
  unbound msg hmsg := absurd hmsg List.not_mem_nil
  placed := placed_nil

theorem Sound.keep (h : Sound s ns b) (ht : Holds t ms c) (hbrk : t.msg_recv.brk = s.msg_recv.brk)
    (hrecv : c.recv_id = b.recv_id) (hpast : past t.log = past s.log) (hplaced : Placed Allowed t.log)
    (hms : ∀ msg id, (∃ m, (msg, m) ∈ ms ∧ m.id = id) ↔ ∃ m, (msg, m) ∈ ns ∧ m.id = id) : Sound t ms c where
  holds := ht
  holder msg id := by rw [hpast, h.holder, hms]
  bound := by
    rw [hpast, hbrk, hrecv]
    exact h.bound
  unbound := by
    rw [hpast, hbrk]
    exact h.unbound
  placed := hplaced

theorem past_pair (log : List Entry) (e e' : Entry) :
    past (log ++ [e, e']) = ((past log).after e).after e' := by
  rw [List.append_cons, past_concat, past_concat]

theorem placed_pair {log : List Entry} {e e' : Entry} :
    Placed Allowed (log ++ [e, e']) ↔
      (Placed Allowed log ∧ Allowed log e) ∧ Allowed (log ++ [e]) e' := by
  rw [List.append_cons, placed_concat, placed_concat]

theorem Sound.bind (h : Sound s ns b) (hrecv : b.recv_id + 1 < 2 ^ 31) (regexp : Text) (callback : Option ℕ)
    (user_data : ℕ) :
    ∃ t ms c, ivyBindMsg regexp callback user_data s = some t ∧ Sound t ms c := by
  obtain ⟨t, ht, hlog, hbrk, hholds⟩ := h.holds.bind hrecv regexp callback user_data
  have hid : s.recv_id = b.recv_id := h.holds.recv_id
  have hpast : past t.log = (past s.log).after (.bind s.msg_recv.brk s.recv_id) := by
    rw [hlog, past_pair]
    rfl
  refine ⟨t, _, _, ht, hholds, ?_, ?_, ?_, ?_⟩
  · intro msg id
    have hold := h.holder msg id
    have hfresh : s.msg_recv.brk ∉ (past s.log).unbound := fun hmem => Nat.lt_irrefl _ (h.unbound _ hmem)
    rw [hpast]
    simp only [Past.Holder, Past.after, List.mem_append, Prod.mk.injEq, List.mem_cons, List.not_mem_nil,
      or_false] at hold ⊢
    constructor
    · intro hnew
      obtain ⟨hbound | ⟨rfl, rfl⟩, hunbound⟩ := hnew
      · obtain ⟨m, hm, hmid⟩ := hold.mp ⟨hbound, hunbound⟩
        exact ⟨m, .inr hm, hmid⟩
      · exact ⟨_, .inl ⟨rfl, rfl⟩, rfl⟩
    · intro hnew
      obtain ⟨m, ⟨rfl, rfl⟩ | hm, hmid⟩ := hnew
      · exact ⟨.inr ⟨rfl, hmid.symm⟩, hfresh⟩
      · obtain ⟨hbound, hunbound⟩ := hold.mpr ⟨m, hm, hmid⟩
        exact ⟨.inl hbound, hunbound⟩
  · intro p hp
    rw [hpast] at hp
    have hnext : (b.bind regexp callback user_data hrecv).recv_id = b.recv_id + 1 := rfl
    rw [hbrk, hnext]
    rcases List.mem_append.mp hp with hp | hp
    · obtain ⟨haddr, hlt⟩ := h.bound p hp
      exact ⟨by omega, by omega⟩
    · rw [List.mem_singleton.mp hp, hid]
      exact ⟨Nat.lt_succ_self _, Int.lt_succ _⟩
  · intro msg hmsg
    rw [hpast] at hmsg
    rw [hbrk]
    exact Nat.lt_succ_of_lt (h.unbound msg hmsg)
  · rw [hlog, placed_pair]
    refine ⟨⟨h.placed, fun p hp => ?_⟩, trivial⟩
    obtain ⟨haddr, hlt⟩ := h.bound p hp
    exact ⟨Nat.ne_of_lt haddr, hid ▸ Int.ne_of_lt hlt⟩

theorem Sound.change (h : Sound s ns b) {n : ℕ × MsgRcv} (hn : n ∈ ns) (regexp : Text) :
    ∃ t ms c, ivyChangeMsg n.1 regexp s = some t ∧ Sound t ms c := by
  obtain ⟨t, ht, hlog, hbrk, hholds⟩ := h.holds.change hn regexp
  refine ⟨t, _, _, ht, h.keep hholds hbrk rfl ?_ ?_ ?_⟩
  · rw [hlog, past_pair]
    rfl
  · rw [hlog, placed_pair]
    exact ⟨⟨h.placed, trivial⟩, trivial⟩
  · intro msg id
    have hid (k : ℕ × MsgRcv) (hk : k ∈ ns) : (assign n.1 { n.2 with regexp := regexp } k).2.id = k.2.id := by
      unfold assign
      split_ifs with haddr
      · exact ((h.holds.address_iff hk hn).mp haddr).symm
      · rfl
    constructor
    · intro hnew
      obtain ⟨m, hm, hmid⟩ := hnew
      obtain ⟨k, hk, hassign⟩ := List.mem_map.mp hm
      refine ⟨k.2, ?_, ?_⟩
      · have haddr : k.1 = msg := (fst_assign n.1 _ k).symm.trans (congrArg Prod.fst hassign)
        exact haddr ▸ hk
      · rw [← hid k hk, hassign, hmid]
    · intro hold
      obtain ⟨m, hm, hmid⟩ := hold
      refine ⟨(assign n.1 { n.2 with regexp := regexp } (msg, m)).2, ?_, (hid (msg, m) hm).trans hmid⟩
      exact List.mem_map.mpr ⟨(msg, m), hm, Prod.ext (fst_assign n.1 _ (msg, m)) rfl⟩

theorem Sound.unbind (h : Sound s ns b) {n : ℕ × MsgRcv} (hn : n ∈ ns) :
    ∃ t ms c, ivyUnbindMsg n.1 s = some t ∧ Sound t ms c := by
  obtain ⟨t, ht, hlog, hbrk, hholds⟩ := h.holds.unbind hn
  have hpast : past t.log = (past s.log).after (.unbind n.1) := by
    rw [hlog, past_pair]
    rfl
  refine ⟨t, _, _, ht, hholds, ?_, ?_, ?_, ?_⟩
  · intro msg id
    have hold := h.holder msg id
    rw [hpast]
    simp only [Past.Holder, Past.after, List.mem_append, List.mem_singleton, not_or] at hold ⊢
    rw [← and_assoc, hold]
    simp only [List.mem_filter, decide_not, Bool.not_eq_true', decide_eq_false_iff_not]
    constructor
    · intro hnew
      obtain ⟨⟨m, hm, hmid⟩, hne⟩ := hnew
      exact ⟨m, ⟨hm, hne⟩, hmid⟩
    · intro hnew
      obtain ⟨m, ⟨hm, hne⟩, hmid⟩ := hnew
      exact ⟨⟨m, hm, hmid⟩, hne⟩
  · rw [hpast, hbrk]
    exact h.bound
  · intro msg hmsg
    rw [hpast] at hmsg
    rw [hbrk]
    rcases List.mem_append.mp hmsg with hmsg | hmsg
    · exact h.unbound msg hmsg
    · rw [List.mem_singleton.mp hmsg]
      exact h.holds.msg_recv.mem_below hn
  · rw [hlog, placed_pair]
    exact ⟨⟨h.placed, trivial⟩, trivial⟩

theorem Sound.receive (h : Sound s ns b) (ignore_subsequent_msg : Bool) (line : Text) :
    ∃ t request, receive ignore_subsequent_msg line s = some (t, request) ∧ Sound t ns b := by
  obtain ⟨t, request, ht, -, hbrk, hholds, hlog⟩ := h.holds.receive ignore_subsequent_msg line
  refine ⟨t, request, ht, h.keep hholds hbrk rfl ?_ ?_ fun _ _ => Iff.rfl⟩
  · obtain hlog | ⟨id, read, called, hlog, -⟩ := hlog
    · rw [hlog]
    · rw [hlog, past_concat]
      rfl
  · obtain hlog | ⟨id, read, called, hlog, hread, hcalled⟩ := hlog
    · rw [hlog]
      exact h.placed
    · rw [hlog, placed_concat]
      refine ⟨h.placed, fun msg hmsg => ?_, fun msg hmsg => (h.holder msg id).mpr (hcalled msg hmsg)⟩
      obtain ⟨n, hn, rfl⟩ := List.mem_map.mp (hread hmsg)
      exact ((h.holder n.1 n.2.id).mpr ⟨n.2, hn, rfl⟩).2

theorem Sound.step (h : Sound s ns b) {e : Event} (he : Possible s e) (hid : HasId s e) :
    ∃ t ms c, step s e = some t ∧ Sound t ms c := by
  cases e with
  | bind regexp callback user_data =>
    have hrecv : b.recv_id + 1 < 2 ^ 31 := h.holds.recv_id ▸ hid rfl
    exact h.bind hrecv regexp callback user_data
  | change msg regexp =>
    obtain ⟨m, hm, -⟩ := h.holds.mem he
    exact h.change hm regexp
  | unbind msg =>
    obtain ⟨m, hm, -⟩ := h.holds.mem he
    exact h.unbind hm
  | receive ignore_subsequent_msg line =>
    obtain ⟨t, request, ht, hsound⟩ := h.receive ignore_subsequent_msg line
    exact ⟨t, ns, b, Option.map_eq_some_iff.mpr ⟨_, ht, rfl⟩, hsound⟩
  | ret =>
    obtain ⟨msg, running, hrunning⟩ := List.exists_cons_of_ne_nil he
    refine ⟨{ s with running := running }, ns, b, ?_, ?_⟩
    · rw [Binding.step, hrunning]
    · have hholds : Holds { s with running := running } ns b :=
        ⟨h.holds.msg_recv, h.holds.values, h.holds.recv_id⟩
      exact h.keep hholds rfl rfl rfl h.placed fun _ _ => Iff.rfl

end Keeps

section Runs
variable {s t : State} {e : Event} {es : List Event} {log before rest : List Entry} {msg : ℕ}

theorem recv_id_receive {ignore_subsequent_msg : Bool} {line : Text} {r : State × Request}
    (hr : receive ignore_subsequent_msg line s = some r) : r.1.recv_id = s.recv_id := by
  unfold receive at hr
  split_ifs at hr
  · exact Option.some.inj hr ▸ rfl
  · split at hr
    · split at hr
      · exact Option.some.inj hr ▸ rfl
      · obtain ⟨found, -, rfl⟩ := Option.map_eq_some_iff.mp hr
        rfl
      · exact Option.some.inj hr ▸ rfl
    · exact Option.some.inj hr ▸ rfl

theorem recv_id_step (ht : step s e = some t) : t.recv_id = s.recv_id + if e.isBind then 1 else 0 := by
  cases e with
  | bind regexp callback user_data =>
    simp only [step, ivyBindMsg, Option.ite_none_right_eq_some, Option.some.injEq] at ht
    obtain ⟨-, rfl⟩ := ht
    rfl
  | change msg regexp =>
    obtain ⟨m, -, rfl⟩ := Option.map_eq_some_iff.mp ht
    exact (add_zero _).symm
  | unbind msg =>
    obtain ⟨m, -, hremove⟩ := Option.bind_eq_some_iff.mp ht
    obtain ⟨u, -, rfl⟩ := Option.map_eq_some_iff.mp hremove
    exact (add_zero _).symm
  | receive ignore_subsequent_msg line =>
    obtain ⟨r, hr, rfl⟩ := Option.map_eq_some_iff.mp ht
    exact (recv_id_receive hr).trans (add_zero _).symm
  | ret =>
    simp only [step] at ht
    split at ht
    · exact absurd ht (Option.some_ne_none t).symm
    · obtain rfl := Option.some.inj ht
      exact (add_zero _).symm

/-- With fewer than 2^31 calls of `IvyBindMsg` each of them has an id. -/
theorem guarded_hasId (hbinds : s.recv_id + es.countP Event.isBind < 2 ^ 31)
    (h : Machine.Guarded step Possible s es) :
    Machine.Guarded step (fun s e => Possible s e ∧ HasId s e) s es := by
  induction es generalizing s with
  | nil => trivial
  | cons e es ih =>
    rw [List.countP_cons] at hbinds
    refine ⟨⟨h.1, fun hbind => ?_⟩, fun t ht => ih ?_ (h.2 t ht)⟩
    · rw [if_pos hbind] at hbinds
      omega
    · rw [recv_id_step ht]
      split_ifs at hbinds ⊢ <;> omega

theorem past_subset (before rest : List Entry) : (past before).bound ⊆ (past (before ++ rest)).bound ∧
    (past before).unbound ⊆ (past (before ++ rest)).unbound := by
  induction rest using List.reverseRecOn with
  | nil => simp
  | append_singleton rest e ih =>
    rw [← List.append_assoc, past_concat]
    cases e with
    | bind msg id => exact ⟨List.subset_append_of_subset_left _ ih.1, ih.2⟩
    | unbind msg => exact ⟨ih.1, List.subset_append_of_subset_left _ ih.2⟩
    | _ => exact ih

theorem bound_nodup (h : Placed Allowed log) : ((past log).bound.map Prod.snd).Nodup := by
  induction log using List.reverseRecOn with
  | nil => exact List.nodup_nil
  | append_singleton log e ih =>
    obtain ⟨hlog, he⟩ := placed_concat.mp h
    rw [past_concat]
    cases e with
    | bind msg id =>
      have hfresh : id ∉ (past log).bound.map Prod.snd := by
        intro hmem
        obtain ⟨p, hp, hid⟩ := List.mem_map.mp hmem
        exact (he p hp).2 hid
      rw [Past.after, List.map_append]
      exact (ih hlog).append (List.nodup_singleton id) (by simpa using hfresh)
    | _ => exact ih hlog

/-- A binding that was removed is not read, nor is its callback called, and nobody is called for its id. -/
theorem not_called_again (h : Placed Allowed log) {after : List Entry} (hlog : log = before ++ .unbind msg :: after)
    {id : ℤ} {read : List ℕ} {called : Option ℕ} (hmsg : .msg id read called ∈ after) :
    msg ∉ read ∧ msg ∉ called ∧ ((msg, id) ∈ (past before).bound → called = none) := by
  obtain ⟨earlier, later, rfl⟩ := List.append_of_mem hmsg
  have hnow : log = (before ++ .unbind msg :: earlier) ++ .msg id read called :: later := by simp [hlog]
  obtain ⟨hread, hcalled⟩ := h _ _ _ hnow
  have hremoved : msg ∈ (past (before ++ .unbind msg :: earlier)).unbound := by
    rw [List.append_cons]
    apply (past_subset _ earlier).2
    rw [past_concat]
    exact List.mem_append_right _ (List.mem_singleton_self msg)
  have hnot : msg ∉ called := fun hmem => (hcalled msg hmem).2 hremoved
  refine ⟨fun hmem => hread msg hmem hremoved, hnot, fun hbound => ?_⟩
  -- the binding that was called would have been given the same id
  by_contra hsome
  obtain ⟨other, hother⟩ := Option.ne_none_iff_exists'.mp hsome
  have hholder := (hcalled other hother).1
  have hbound := (past_subset before (.unbind msg :: earlier)).1 hbound
  have hplaced : Placed Allowed (before ++ .unbind msg :: earlier) := by
    intro b x a heq
    exact h b x (a ++ .msg id read called :: later) (by rw [hnow, heq]; simp)
  have hsame : (other, id) = (msg, id) := List.inj_on_of_nodup_map (bound_nodup hplaced) hholder hbound rfl
  obtain rfl : other = msg := congrArg Prod.fst hsame
  exact hnot hother

end Runs

/-- The callback of a binding removes it and makes another one; then a line with the old id arrives. -/
def selfUnbinding : List Event :=
  [.bind (ascii "a") (some 0) 0, .receive false (ascii "2 0\x02"), .unbind 0, .bind (ascii "b") (some 1) 0, .ret,
    .receive false (ascii "2 0\x02")]

end Ivy.Binding
