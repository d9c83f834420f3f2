import Ivy.Lib.Linked
import Ivy.Lib.Machine
import Ivy.Registry.Bindings

/-! The list `msg_recv` in the heap: the functions that change it, and the walk of `Receive` over it.
They may be called while callbacks run. -/
namespace Ivy.Binding
open Linked Registry

/-- What happens to the bindings. A line goes to every connected client; a Msg line is handled with
the bindings that are read for it and the one whose callback is called. -/
inductive Entry
  | send (line : Line)
  | bind (msg : ℕ) (id : ℤ)
  | change (msg : ℕ)
  | unbind (msg : ℕ)
  | msg (id : ℤ) (read : List ℕ) (called : Option ℕ)
  deriving DecidableEq

/-- `running` are the bindings whose callbacks have not returned, the innermost first. -/
structure State where
  msg_recv : Store MsgRcv
  recv_id : ℤ
  cursors : Cursors
  running : List ℕ
  log : List Entry

def initial : State := ⟨.empty, 0, ⟨0, 0⟩, [], []⟩

def State.write (s : State) (e : Entry) : State := { s with log := s.log ++ [e] }

/-- The counter `recv_id` may not overflow. -/
def ivyBindMsg (regexp : Text) (callback : Option ℕ) (user_data : ℕ) (s : State) : Option State :=
  if s.recv_id + 1 < 2 ^ 31 then
    let msg := s.msg_recv.brk
    let id := s.recv_id
    let s := { s with msg_recv := s.msg_recv.push ⟨id, regexp, callback, user_data⟩, recv_id := s.recv_id + 1 }
    some ((s.write (.bind msg id)).write (.send (.addRegexp id regexp)))
  else none

def ivyChangeMsg (msg : ℕ) (regexp : Text) (s : State) : Option State :=
  (s.msg_recv.val msg).map fun m =>
    let s := { s with msg_recv := s.msg_recv.set msg { m with regexp := regexp } }
    (s.write (.change msg)).write (.send (.addRegexp m.id regexp))

def ivyUnbindMsg (msg : ℕ) (s : State) : Option State :=
  (s.msg_recv.val msg).bind fun m =>
    let s := s.write (.send (.delRegexp m.id []))
    (s.msg_recv.remove msg).map fun msg_recv => { s with msg_recv := msg_recv }.write (.unbind msg)

/-- `IVY_LIST_EACH( msg_recv, rcv )` up to the binding of the id, with the nodes that are read. -/
def findRcv (node : ℕ → Option (Node MsgRcv)) (id : ℤ) :
    ℕ → Option ℕ → List ℕ → Option (List ℕ × Option (ℕ × MsgRcv))
  | _, none, read => some (read, none)
  | 0, some _, _ => none
  | fuel + 1, some rcv, read => (node rcv).bind fun n =>
    if id = n.val.id then some (read ++ [rcv], some (rcv, n.val))
    else findRcv node id fuel n.next (read ++ [rcv])

/-- The binding whose callback is called, of the one that was found. -/
def calledRcv (rcv : Option (ℕ × MsgRcv)) : Request → Option ℕ
  | .call _ _ _ _ => rcv.map Prod.fst
  | _ => none

/-- The branch of `Receive` for `Msg`. It returns after the callback of the binding that it found. -/
def receiveMsg (line : Text) (id : ℤ) (arg : ℕ) (s : State) : Option (State × Request) :=
  (findRcv s.msg_recv.node id s.msg_recv.brk s.msg_recv.head []).map fun (read, rcv) =>
    let r := Ivy.receiveMsg (rcv.map Prod.snd).toList s.cursors line id arg
    let called := calledRcv rcv r.2
    ({ s with cursors := r.1, running := called.toList ++ s.running }.write (.msg id read called), r.2)

/-- `Receive`, whose other branches do not use the bindings. -/
def receive (ignore_subsequent_msg : Bool) (line : Text) (s : State) : Option (State × Request) :=
  if ignore_subsequent_msg then some (s, .ignored)
  else
    match scanHeader line, strstr line argStart with
    | some (kind_of_msg, id), some i =>
      match MsgType.ofCode kind_of_msg with
      | none => some (s, .unhandled id)
      | some .msg => receiveMsg line id (i + 1) s
      | some kind => some (s, .control kind id (stringAt line (i + 1)))
    | _, _ => some (s, .badFormat)

inductive Event
  | bind (regexp : Text) (callback : Option ℕ) (user_data : ℕ)
  | change (msg : ℕ) (regexp : Text)
  | unbind (msg : ℕ)
  | receive (ignore_subsequent_msg : Bool) (line : Text)
  /-- the innermost callback returns -/
  | ret

def step (s : State) : Event → Option State
  | .bind regexp callback user_data => ivyBindMsg regexp callback user_data s
  | .change msg regexp => ivyChangeMsg msg regexp s
  | .unbind msg => ivyUnbindMsg msg s
  | .receive ignore_subsequent_msg line => (receive ignore_subsequent_msg line s).map Prod.fst
  | .ret =>
    match s.running with
    | [] => none
    | _ :: running => some { s with running := running }

structure Holds (s : State) (ns : List (ℕ × MsgRcv)) (b : Bindings) : Prop where
  msg_recv : s.msg_recv.Holds ns
  values : ns.map Prod.snd = b.msg_recv
  recv_id : s.recv_id = b.recv_id

section Walk
variable {node : ℕ → Option (Node MsgRcv)} {p : Option ℕ} {ns : List (ℕ × MsgRcv)}

/-- The walk reads nodes of the list, and finds the first one of the id. -/
theorem findRcv_eq (h : Path node p ns) (id : ℤ) {fuel : ℕ} (hfuel : ns.length ≤ fuel) (read : List ℕ) :
    ∃ more, more <+: ns.map Prod.fst ∧
      findRcv node id fuel p read = some (read ++ more, ns.find? fun n => id = n.2.id) := by
  induction ns generalizing p fuel read with
  | nil =>
    rw [show p = none from h]
    refine ⟨[], List.nil_prefix, ?_⟩
    rw [List.append_nil]
    cases fuel <;> rfl
  | cons n ns ih =>
    obtain ⟨rfl, next, hn, hrest⟩ := h
    obtain ⟨fuel, rfl⟩ : ∃ k, fuel = k + 1 := ⟨fuel - 1, by simp at hfuel; omega⟩
    rw [findRcv, hn, Option.bind_some, List.find?_cons]
    dsimp only
    by_cases hid : id = n.2.id
    · refine ⟨[n.1], by simp, ?_⟩
      simp [hid]
    · obtain ⟨more, hmore, hfind⟩ := ih hrest (Nat.le_of_succ_le_succ hfuel) (read ++ [n.1])
      refine ⟨n.1 :: more, ?_, ?_⟩
      · rw [List.map_cons, List.cons_prefix_cons]
        exact ⟨rfl, hmore⟩
      · rw [if_neg hid, hfind]
        simp [hid]

end Walk

namespace Holds
variable {s : State} {ns : List (ℕ × MsgRcv)} {b : Bindings}

theorem initial : Holds initial [] .empty := ⟨holds_empty, rfl, rfl⟩

theorem mem (h : Holds s ns b) {msg : ℕ} (hmsg : (s.msg_recv.node msg).isSome) :
    ∃ m, (msg, m) ∈ ns ∧ s.msg_recv.val msg = some m := by
  obtain ⟨n, hn, rfl⟩ := List.mem_map.mp (h.msg_recv.linked msg (Option.isSome_iff_ne_none.mp hmsg))
  exact ⟨n.2, hn, h.msg_recv.val_eq hn⟩

theorem nodup (h : Holds s ns b) : (ns.map fun n => n.2.id).Nodup := by
  have hids := b.ids
  rwa [← h.values, List.map_map] at hids

/-- A binding is known by its address and by its id. -/
theorem address_iff (h : Holds s ns b) {n m : ℕ × MsgRcv} (hn : n ∈ ns) (hm : m ∈ ns) :
    n.1 = m.1 ↔ n.2.id = m.2.id := by
  constructor
  · exact fun haddr => congrArg (·.2.id) (List.inj_on_of_nodup_map h.msg_recv.path.nodup hn hm haddr)
  · exact fun hid => congrArg Prod.fst (List.inj_on_of_nodup_map h.nodup hn hm hid)

theorem bind (h : Holds s ns b) (hrecv : b.recv_id + 1 < 2 ^ 31) (regexp : Text) (callback : Option ℕ)
    (user_data : ℕ) :
    ∃ t, ivyBindMsg regexp callback user_data s = some t ∧
      t.log = s.log ++ [.bind s.msg_recv.brk s.recv_id, .send (.addRegexp s.recv_id regexp)] ∧
      t.msg_recv.brk = s.msg_recv.brk + 1 ∧
      Holds t ((s.msg_recv.brk, ⟨s.recv_id, regexp, callback, user_data⟩) :: ns)
        (b.bind regexp callback user_data hrecv) := by
  rw [← h.recv_id] at hrecv
  refine ⟨_, if_pos hrecv, by simp [State.write], rfl, h.msg_recv.push _, ?_, ?_⟩
  · simp [Bindings.bind, h.values, h.recv_id]
  · exact congrArg (· + 1) h.recv_id

theorem change (h : Holds s ns b) {n : ℕ × MsgRcv} (hn : n ∈ ns) (regexp : Text) :
    ∃ t, ivyChangeMsg n.1 regexp s = some t ∧
      t.log = s.log ++ [.change n.1, .send (.addRegexp n.2.id regexp)] ∧ t.msg_recv.brk = s.msg_recv.brk ∧
      Holds t (ns.map (assign n.1 { n.2 with regexp := regexp })) (b.change n.2.id regexp) := by
  have hval : s.msg_recv.val n.1 = some n.2 := h.msg_recv.val_eq hn
  have hset := h.msg_recv.set n.1 { n.2 with regexp := regexp }
  let t := { s with msg_recv := s.msg_recv.set n.1 { n.2 with regexp := regexp } }
  refine ⟨(t.write (.change n.1)).write (.send (.addRegexp n.2.id regexp)), ?_, ?_, rfl, hset, ?_, h.recv_id⟩
  · rw [ivyChangeMsg, hval, Option.map_some]
  · simp [State.write, t]
  · have hvalues : (b.change n.2.id regexp).msg_recv = b.msg_recv.map (Bindings.setRegexp n.2.id regexp) := rfl
    rw [hvalues, ← h.values, List.map_map, List.map_map]
    apply List.map_congr_left
    intro k hk
    rw [Function.comp_apply, Function.comp_apply, assign, Bindings.setRegexp]
    by_cases hid : k.2.id = n.2.id
    · have haddr : k.1 = n.1 := (h.address_iff hk hn).mpr hid
      obtain rfl : k = n := List.inj_on_of_nodup_map h.msg_recv.path.nodup hk hn haddr
      simp
    · rw [if_neg hid, if_neg (mt (h.address_iff hk hn).mp hid)]

theorem unbind (h : Holds s ns b) {n : ℕ × MsgRcv} (hn : n ∈ ns) :
    ∃ t, ivyUnbindMsg n.1 s = some t ∧
      t.log = s.log ++ [.send (.delRegexp n.2.id []), .unbind n.1] ∧ t.msg_recv.brk = s.msg_recv.brk ∧
      Holds t (ns.filter (·.1 ≠ n.1)) (b.unbind n.2.id) := by
  have hval : s.msg_recv.val n.1 = some n.2 := h.msg_recv.val_eq hn
  obtain ⟨u, hu, hremoved⟩ := h.msg_recv.remove hn
  let t := s.write (.send (.delRegexp n.2.id []))
  refine ⟨{ t with msg_recv := u }.write (.unbind n.1), ?_, ?_, hremoved.brk, hremoved.holds, ?_, h.recv_id⟩
  · have hu : t.msg_recv.remove n.1 = some u := hu
    rw [ivyUnbindMsg, hval, Option.bind_some]
    exact Option.map_eq_some_iff.mpr ⟨u, hu, rfl⟩
  · simp [State.write, t]
  · have hvalues : (b.unbind n.2.id).msg_recv = b.msg_recv.filter (·.id ≠ n.2.id) := rfl
    rw [hvalues, ← h.values, List.filter_map]
    congr 1
    apply List.filter_congr
    intro k hk
    rw [Function.comp_apply, decide_eq_decide, not_iff_not]
    exact h.address_iff hk hn

/-- `Receive` does with the list in the heap what it does with the bindings. -/
theorem receiveMsg (h : Holds s ns b) (line : Text) (id : ℤ) (arg : ℕ) :
    ∃ t request read called, receiveMsg line id arg s = some (t, request) ∧
      Ivy.receiveMsg b.msg_recv s.cursors line id arg = (t.cursors, request) ∧
      t.log = s.log ++ [.msg id read called] ∧ t.msg_recv.brk = s.msg_recv.brk ∧ Holds t ns b ∧
      read ⊆ ns.map Prod.fst ∧ ∀ msg ∈ called, ∃ m, (msg, m) ∈ ns ∧ m.id = id := by
  obtain ⟨read, hread, hfind⟩ := findRcv_eq h.msg_recv.path id h.msg_recv.length_le []
  have hrest : Ivy.receiveMsg b.msg_recv s.cursors line id arg = Ivy.receiveMsg
      ((ns.find? fun n => id = n.2.id).map Prod.snd).toList s.cursors line id arg := by
    have hlist : b.msg_recv.find? (id = ·.id) = (ns.find? fun n => id = n.2.id).map Prod.snd := by
      rw [← h.values, List.find?_map]
      rfl
    rw [Ivy.receiveMsg, hlist, Ivy.receiveMsg]
    cases hrcv : ns.find? fun n => id = n.2.id with
    | none => rfl
    | some n =>
      have hid : id = n.2.id := by simpa using List.find?_some hrcv
      simp [hid]
  let rcv := ns.find? fun n => id = n.2.id
  let r := Ivy.receiveMsg (rcv.map Prod.snd).toList s.cursors line id arg
  let called := calledRcv rcv r.2
  let t := { s with cursors := r.1, running := called.toList ++ s.running }.write (.msg id read called)
  refine ⟨t, r.2, read, called, ?_, hrest, rfl, rfl, ⟨h.msg_recv, h.values, h.recv_id⟩, hread.subset, ?_⟩
  · rw [Binding.receiveMsg, hfind, Option.map_some, List.nil_append]
  · intro msg hcalled
    simp only [called, calledRcv] at hcalled
    split at hcalled
    · obtain ⟨n, hn, rfl⟩ := Option.map_eq_some_iff.mp hcalled
      have hid : id = n.2.id := by simpa using List.find?_some hn
      exact ⟨n.2, List.mem_of_find?_eq_some hn, hid.symm⟩
    · exact absurd hcalled (Option.not_mem_none msg)

/-- So does it with a whole line. -/
theorem receive (h : Holds s ns b) (ignore_subsequent_msg : Bool) (line : Text) :
    ∃ t request, receive ignore_subsequent_msg line s = some (t, request) ∧
      Ivy.receive ignore_subsequent_msg b.msg_recv s.cursors line = (t.cursors, request) ∧
      t.msg_recv.brk = s.msg_recv.brk ∧ Holds t ns b ∧
      (t.log = s.log ∨ ∃ id read called, t.log = s.log ++ [.msg id read called] ∧
        read ⊆ ns.map Prod.fst ∧ ∀ msg ∈ called, ∃ m, (msg, m) ∈ ns ∧ m.id = id) := by
  unfold Binding.receive Ivy.receive
  split_ifs
  · exact ⟨s, _, rfl, rfl, rfl, h, .inl rfl⟩
  · cases scanHeader line with
    | none => exact ⟨s, _, rfl, rfl, rfl, h, .inl rfl⟩
    | some header =>
      cases strstr line argStart with
      | none => exact ⟨s, _, rfl, rfl, rfl, h, .inl rfl⟩
      | some i =>
        dsimp only
        cases MsgType.ofCode header.1 with
        | none => exact ⟨s, _, rfl, rfl, rfl, h, .inl rfl⟩
        | some kind =>
          cases kind with
          | msg =>
            obtain ⟨t, request, read, called, ht, hrequest, hlog, hbrk, hholds, hread, hcalled⟩ :=
              h.receiveMsg line header.2 (i + 1)
            exact ⟨t, request, ht, hrequest, hbrk, hholds, .inr ⟨header.2, read, called, hlog, hread, hcalled⟩⟩
          | _ => exact ⟨s, _, rfl, rfl, rfl, h, .inl rfl⟩

end Holds
end Ivy.Binding
