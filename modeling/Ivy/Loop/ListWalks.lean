import Ivy.Lib.Linked
import Ivy.Loop.Channel
import Ivy.Protocol.Text
import Mathlib.Data.List.Forall2

/-! The walks of `list.h` over a list that their body changes. -/
namespace Ivy.Loop
open Linked

/-- The variable that points to the list, the nodes that are allocated, those of other lists
included, and the calls of `free`. -/
structure Lists (α : Type*) where
  list : Option ℕ
  node : ℕ → Option (Node α)
  freed : List ℕ

variable {α : Type*}

namespace Lists
variable (s : Lists α)

def next (p : ℕ) : Option (Option ℕ) := (s.node p).map (·.next)

/-- `IVY_LIST_ADD_START` and `IVY_LIST_ADD_END`: `n` is the address that `malloc` returns and what
is stored there. -/
def ivyListAdd (n : ℕ × α) : Lists α :=
  { s with list := some n.1, node := Function.update s.node n.1 (some ⟨n.2, s.list⟩) }

def free (p : ℕ) : Option (Lists α) :=
  (s.node p).map fun _ =>
    { s with node := Function.update s.node p none, freed := s.freed ++ [p] }

/-- `IVY_LIST_REMOVE`: what it leaves and what its variable points to then. -/
def ivyListRemove (fuel p : ℕ) : Option (Lists α × Option ℕ) :=
  if s.list = some p then
    (s.node p).bind fun n => ({ s with list := n.next }.free p).map fun s => (s, some p)
  else
    (iter s.node (fun n => n.next ≠ some p) fuel s.list).bind fun
      | none => some (s, none)
      | some prec => (s.node p).bind fun n => (s.node prec).bind fun m =>
        ({ s with node := Function.update s.node prec (some { m with next := n.next }) }.free p).map
          fun s => (s, some prec)

end Lists

/-- One turn of a body: the nodes that it prepends, and whether it removes the current node then.
`malloc` returns unused addresses, which may be those of freed nodes. -/
structure Turn (s : Lists α) where
  adds : List (ℕ × α)
  fresh : ∀ n ∈ adds, s.node n.1 = none
  nodup : (adds.map Prod.fst).Nodup
  removes : Bool

/-- What the variable points to after a removal is lost: the next node was saved. -/
def Turn.run {s : Lists α} (turn : Turn s) (fuel p : ℕ) : Option (Lists α) :=
  let s := turn.adds.foldl Lists.ivyListAdd s
  if turn.removes then (s.ivyListRemove fuel p).map Prod.fst else some s

structure Visit (α : Type*) where
  current : ℕ
  adds : List (ℕ × α)
  removes : Bool

structure Walk (α : Type*) where
  lists : Lists α
  log : List (Visit α)

/-- What a body does may depend on all turns before, on the list and on the current node. -/
def Body (α : Type*) := List (Visit α) → (s : Lists α) → ℕ → Turn s

def Body.turn (body : Body α) (fuel : ℕ) (w : Walk α) (p : ℕ) : Option (Walk α) :=
  let turn := body w.log w.lists p
  (turn.run fuel p).map fun lists => ⟨lists, w.log ++ [⟨p, turn.adds, turn.removes⟩]⟩

def ivyListEachSafe (fuel : ℕ) (body : Body α) (s : Lists α) : Option (Walk α) :=
  eachSafe (fun w p => w.lists.next p) (body.turn fuel) fuel s.list ⟨s, []⟩

def kept (ns : List (ℕ × α)) (log : List (Visit α)) : List (ℕ × α) :=
  ((ns.zip log).filter fun x => !x.2.removes).map Prod.fst

def Body.Took (body : Body α) (n : ℕ × α) (v : Visit α) : Prop :=
  v.current = n.1 ∧ ∃ log s next, s.node n.1 = some ⟨n.2, next⟩ ∧
    v.adds = (body log s n.1).adds ∧ v.removes = (body log s n.1).removes

/-- What a walk over the nodes `ns` has done. -/
structure Walked (body : Body α) (s : Lists α) (ns : List (ℕ × α)) (w : Walk α) : Prop where
  took : List.Forall₂ body.Took ns w.log
  visited : w.log.map (·.current) = ns.map Prod.fst
  once : (w.log.map (·.current)).Nodup
  freed : w.lists.freed = s.freed ++ (w.log.filter (·.removes)).map (·.current)
  left : Path w.lists.node w.lists.list ((w.log.flatMap (·.adds)).reverse ++ kept ns w.log)

/-! ### The operations -/

section
variable {s : Lists α} {ns : List (ℕ × α)}

theorem path_ivyListAdd (h : Path s.node s.list ns) {n : ℕ × α} (hn : s.node n.1 = none) :
    Path (s.ivyListAdd n).node (s.ivyListAdd n).list (n :: ns) := by
  refine ⟨rfl, s.list, Function.update_self _ _ _, h.congr fun k hk => ?_⟩
  obtain ⟨next, hnode⟩ := h.node_eq hk
  have hne : k.1 ≠ n.1 := by
    intro heq
    rw [heq, hn] at hnode
    cases hnode
  exact Function.update_of_ne hne _ _

theorem path_adds (h : Path s.node s.list ns) {adds : List (ℕ × α)}
    (hfresh : ∀ n ∈ adds, s.node n.1 = none) (hnodup : (adds.map Prod.fst).Nodup) :
    Path (adds.foldl Lists.ivyListAdd s).node (adds.foldl Lists.ivyListAdd s).list
      (adds.reverse ++ ns) := by
  induction adds generalizing s ns with
  | nil => exact h
  | cons n adds ih =>
    obtain ⟨hn, hadds⟩ := List.nodup_cons.mp hnodup
    rw [List.foldl_cons, List.reverse_cons, List.append_assoc, List.singleton_append]
    apply ih (path_ivyListAdd h (hfresh n List.mem_cons_self)) _ hadds
    intro k hk
    have hne : k.1 ≠ n.1 := fun heq => hn (heq ▸ List.mem_map_of_mem hk)
    exact (Function.update_of_ne hne _ _).trans (hfresh k (List.mem_cons_of_mem n hk))

theorem freed_adds (s : Lists α) (adds : List (ℕ × α)) :
    (adds.foldl Lists.ivyListAdd s).freed = s.freed := by
  induction adds generalizing s with
  | nil => rfl
  | cons n adds ih => rw [List.foldl_cons, ih]; rfl

theorem ivyListRemove_at {pre post : List (ℕ × α)} {n : ℕ × α}
    (h : Path s.node s.list (pre ++ n :: post)) :
    ∃ t, (∀ fuel, pre.length ≤ fuel → ∃ p, s.ivyListRemove fuel n.1 = some (t, p)) ∧
      t.freed = s.freed ++ [n.1] ∧ Path t.node t.list (pre ++ post) := by
  obtain ⟨-, next, hnode, hpost⟩ := h.suffix
  obtain rfl := hpost.first_eq
  rcases List.eq_nil_or_concat pre with rfl | ⟨pre, m, rfl⟩
  · refine ⟨⟨first post, Function.update s.node n.1 none, s.freed ++ [n.1]⟩, ?_, rfl,
      h.unlink_first⟩
    intro fuel _
    have hlist : s.list = some n.1 := h.1
    exact ⟨some n.1, by simp [Lists.ivyListRemove, hlist, Lists.free, hnode]⟩
  · rw [List.concat_eq_append] at *
    have hpath : Path s.node s.list (pre ++ m :: n :: post) := by simpa using h
    obtain ⟨next, hm⟩ := hpath.node_eq (n := m) (by simp)
    have hnm : n.1 ≠ m.1 := (h.address_ne (k := m) (by simp)).symm
    let node := Function.update s.node m.1 (some ⟨m.2, first post⟩)
    refine ⟨⟨s.list, Function.update node n.1 none, s.freed ++ [n.1]⟩, ?_, rfl, ?_⟩
    · intro fuel hfuel
      rw [List.length_append, List.length_singleton] at hfuel
      refine ⟨some m.1, ?_⟩
      rw [Lists.ivyListRemove, if_neg hpath.start_ne, iter_prev hpath hfuel, Option.bind_some]
      simp [Lists.free, hnode, hm, hnm, node]
    · simpa using hpath.unlink

end

/-! ### The walk -/

def Turn.front {s : Lists α} (turn : Turn s) (front : List (ℕ × α)) (n : ℕ × α) : List (ℕ × α) :=
  turn.adds.reverse ++ (front ++ if turn.removes then [] else [n])

/-- One turn, at a node with others before and behind it. -/
theorem run_spec {s : Lists α} (turn : Turn s) {front rest : List (ℕ × α)} {n : ℕ × α}
    (h : Path s.node s.list (front ++ n :: rest)) :
    ∃ t N, (∀ fuel, N ≤ fuel → turn.run fuel n.1 = some t) ∧
      t.freed = s.freed ++ (if turn.removes then [n.1] else []) ∧
      Path t.node t.list (turn.front front n ++ rest) := by
  have hadds := path_adds h turn.fresh turn.nodup
  have hfreed := freed_adds s turn.adds
  cases hremoves : turn.removes with
  | false =>
    refine ⟨turn.adds.foldl Lists.ivyListAdd s, 0, fun fuel _ => ?_, ?_, ?_⟩
    · rw [Turn.run, hremoves]
      rfl
    · simpa using hfreed
    · simpa [Turn.front, hremoves] using hadds
  | true =>
    rw [← List.append_assoc] at hadds
    obtain ⟨t, ht, htfreed, hpath⟩ := ivyListRemove_at hadds
    refine ⟨t, (turn.adds.reverse ++ front).length, fun fuel hfuel => ?_, ?_, ?_⟩
    · obtain ⟨p, hp⟩ := ht fuel hfuel
      rw [Turn.run, hremoves, if_pos rfl, hp, Option.map_some]
    · simpa [hfreed] using htfreed
    · simpa [Turn.front, hremoves] using hpath

theorem kept_concat {done : List (ℕ × α)} {log : List (Visit α)} (h : log.length = done.length)
    (n : ℕ × α) (v : Visit α) :
    kept (done ++ [n]) (log ++ [v]) = kept done log ++ if v.removes then [] else [n] := by
  rw [kept, List.zip_append h.symm, List.filter_append, List.map_append]
  cases hv : v.removes <;> simp [kept, hv]

theorem visited_of_took {body : Body α} {ns : List (ℕ × α)} {log : List (Visit α)}
    (h : List.Forall₂ body.Took ns log) : log.map (·.current) = ns.map Prod.fst := by
  induction h with
  | nil => rfl
  | cons hv _ ih => rw [List.map_cons, List.map_cons, hv.1, ih]

/-- What holds before the nodes `rest` are visited. -/
structure Walking (body : Body α) (s : Lists α) (ns rest : List (ℕ × α)) (w : Walk α) : Prop where
  split : ∃ done, ns = done ++ rest ∧ List.Forall₂ body.Took done w.log ∧
    Path w.lists.node w.lists.list ((w.log.flatMap (·.adds)).reverse ++ kept done w.log ++ rest)
  freed : w.lists.freed = s.freed ++ (w.log.filter (·.removes)).map (·.current)

section
variable {body : Body α} {s : Lists α} {ns rest : List (ℕ × α)} {w : Walk α}

theorem Walking.turn {n : ℕ × α} (h : Walking body s ns (n :: rest) w) :
    w.lists.next n.1 = some (first rest) ∧
      ∃ t N, (∀ fuel, N ≤ fuel → body.turn fuel w n.1 = some t) ∧ Walking body s ns rest t := by
  obtain ⟨done, hns, htook, hpath⟩ := h.split
  obtain ⟨-, next, hnode, hrest⟩ := hpath.suffix
  have hnext : w.lists.next n.1 = some (first rest) := by
    rw [Lists.next, hnode, Option.map_some, hrest.first_eq]
  let turn := body w.log w.lists n.1
  obtain ⟨lists, N, hrun, hfreed, hleft⟩ := run_spec turn hpath
  let t : Walk α := ⟨lists, w.log ++ [⟨n.1, turn.adds, turn.removes⟩]⟩
  refine ⟨hnext, t, N, fun fuel hfuel => ?_, ⟨done ++ [n], ?_, ?_, ?_⟩, ?_⟩
  · show (turn.run fuel n.1).map _ = some t
    rw [hrun fuel hfuel, Option.map_some]
  · simp [hns]
  · exact List.rel_append htook (.cons ⟨rfl, w.log, w.lists, next, hnode, rfl, rfl⟩ .nil)
  · simpa [t, Turn.front, kept_concat htook.length_eq.symm] using hleft
  · show lists.freed = _
    rw [hfreed, h.freed]
    cases hremoves : turn.removes <;> simp [t, hremoves]

theorem Walking.done (h : Walking body s ns [] w) : List.Forall₂ body.Took ns w.log ∧
    Path w.lists.node w.lists.list ((w.log.flatMap (·.adds)).reverse ++ kept ns w.log) := by
  obtain ⟨done, hns, htook, hpath⟩ := h.split
  rw [List.append_nil] at hns hpath
  exact hns ▸ ⟨htook, hpath⟩

theorem exists_walking (h : Path s.node s.list ns) (body : Body α) :
    ∃ w N, (∀ fuel, N ≤ fuel → ivyListEachSafe fuel body s = some w) ∧ Walking body s ns [] w := by
  have hstart : Walking body s ns ns ⟨s, []⟩ := ⟨⟨[], rfl, .nil, by simpa [kept] using h⟩, by simp⟩
  obtain ⟨w, N, hw, hdone⟩ := eachSafe_eventually (fun w p => w.lists.next p) body.turn
    (Walking body s ns) (fun n rest w hw => hw.turn) hstart
  refine ⟨w, N, fun fuel hfuel => ?_, hdone⟩
  rw [ivyListEachSafe, h.first_eq, hw fuel hfuel]

/-- A walk visits the nodes of the list that it starts with, once each and in order, and ends. It
reads no freed node, frees those that its body removes, and leaves the nodes that the body added
before the others. -/
theorem ivyListEachSafe_exact (h : Path s.node s.list ns) (body : Body α) :
    ∃ w N, (∀ fuel, N ≤ fuel → ivyListEachSafe fuel body s = some w) ∧ Walked body s ns w := by
  obtain ⟨w, N, hw, hwalking⟩ := exists_walking h body
  obtain ⟨htook, hleft⟩ := hwalking.done
  have hvisited := visited_of_took htook
  have honce : (w.log.map (·.current)).Nodup := by
    rw [hvisited]
    exact h.nodup
  exact ⟨w, N, hw, htook, hvisited, honce, hwalking.freed, hleft⟩

end

def Turn.leave (s : Lists α) : Turn s := ⟨[], by simp, by simp, false⟩

def three : Lists Unit := ⟨some 0, nodeOf [(0, ()), (1, ()), (2, ())], []⟩

/-- The body removes the first node, gets its address for a new one in the next turn, and removes
the last node. -/
def reusing : Body Unit := fun _ s p =>
  if h : p = 1 ∧ s.node 0 = none then ⟨[(0, ())], by simp [h.2], by simp, false⟩
  else { Turn.leave s with removes := p ≠ 1 }

theorem ivyListEachSafe_exact_example :
    (∃ w N, (∀ fuel, N ≤ fuel → ivyListEachSafe fuel reusing three = some w) ∧
      Walked reusing three [(0, ()), (1, ()), (2, ())] w) ∧
    (ivyListEachSafe 3 reusing three).map (fun w => (w.log.map (·.current), w.lists.freed)) =
      some ([0, 1, 2], [0, 2]) :=
  ⟨ivyListEachSafe_exact (path_nodeOf (by decide)) reusing, rfl⟩

/-! ### Bodies that remove what meets a test -/

section
variable {body : Body α} {drop : α → Bool}

/-- Every turn removes the current node if its value meets the test, and only then. -/
def Body.Drops (body : Body α) (drop : α → Bool) : Prop :=
  ∀ log s p n, s.node p = some n → (body log s p).removes = drop n.val

theorem removes_of_took (hdrop : body.Drops drop) {n : ℕ × α} {v : Visit α} (h : body.Took n v) :
    v.removes = drop n.2 := by
  obtain ⟨-, log, s, next, hnode, -, hremoves⟩ := h
  exact hremoves.trans (hdrop log s n.1 _ hnode)

theorem kept_of_drops (hdrop : body.Drops drop) {ns : List (ℕ × α)} {log : List (Visit α)}
    (h : List.Forall₂ body.Took ns log) : kept ns log = ns.filter fun n => !drop n.2 := by
  induction h with
  | nil => rfl
  | @cons n v ns log hv _ ih =>
    rw [kept] at ih
    have hremoves := removes_of_took hdrop hv
    cases hn : drop n.2 <;> simp [kept, hremoves, hn, ih]

theorem removed_of_drops (hdrop : body.Drops drop) {ns : List (ℕ × α)} {log : List (Visit α)}
    (h : List.Forall₂ body.Took ns log) :
    (log.filter (·.removes)).map (·.current) = (ns.filter fun n => drop n.2).map Prod.fst := by
  induction h with
  | nil => rfl
  | @cons n v ns log hv _ ih =>
    have hremoves := removes_of_took hdrop hv
    cases hn : drop n.2 <;> simp [hremoves, hn, ih, hv.1]

/-- The walk is a filter. -/
theorem ivyListEachSafe_filter (hdrop : body.Drops drop) {s : Lists α} {ns : List (ℕ × α)}
    (h : Path s.node s.list ns) :
    ∃ w N, (∀ fuel, N ≤ fuel → ivyListEachSafe fuel body s = some w) ∧
      w.lists.freed = s.freed ++ (ns.filter fun n => drop n.2).map Prod.fst ∧
      Path w.lists.node w.lists.list
        ((w.log.flatMap (·.adds)).reverse ++ ns.filter fun n => !drop n.2) := by
  obtain ⟨w, N, hw, hwalking⟩ := exists_walking h body
  obtain ⟨htook, hleft⟩ := hwalking.done
  refine ⟨w, N, hw, ?_, ?_⟩
  · rw [hwalking.freed, removed_of_drops hdrop htook]
  · rw [← kept_of_drops hdrop htook]
    exact hleft

end

def channelDefferedDelete {Data : Type*} (handle_delete : Body (Channel Data)) :
    Body (Channel Data) := fun log s channel =>
  if (s.node channel).any (·.val.tobedeleted) then { handle_delete log s channel with removes := true }
  else .leave s

def ivyBindingRemoveFilter (arg : Text) : Body Text := fun _ s word =>
  { Turn.leave s with removes := (s.node word).any (·.val = arg) }

/-- `ChannelDefferedDelete` takes out the channels that are marked, whatever their handlers add. -/
theorem channelDefferedDelete_exact {Data : Type*} (handle_delete : Body (Channel Data))
    {s : Lists (Channel Data)} {ns : List (ℕ × Channel Data)} (h : Path s.node s.list ns) :
    ∃ w N,
      (∀ fuel, N ≤ fuel → ivyListEachSafe fuel (channelDefferedDelete handle_delete) s = some w) ∧
      w.lists.freed = s.freed ++ (ns.filter (·.2.tobedeleted)).map Prod.fst ∧
      Path w.lists.node w.lists.list
        ((w.log.flatMap (·.adds)).reverse ++ ns.filter (!·.2.tobedeleted)) := by
  have hdrop : (channelDefferedDelete handle_delete).Drops (·.tobedeleted) := by
    intro log s channel n hn
    rw [channelDefferedDelete, hn, Option.any_some]
    show _ = n.val.tobedeleted
    cases hdeleted : n.val.tobedeleted <;> rfl
  exact ivyListEachSafe_filter hdrop h

theorem ivyBindingRemoveFilter_exact (arg : Text) {s : Lists Text} {ns : List (ℕ × Text)}
    (h : Path s.node s.list ns) :
    ∃ w N, (∀ fuel, N ≤ fuel → ivyListEachSafe fuel (ivyBindingRemoveFilter arg) s = some w) ∧
      w.lists.freed = s.freed ++ (ns.filter (·.2 = arg)).map Prod.fst ∧
      Path w.lists.node w.lists.list
        ((w.log.flatMap (·.adds)).reverse ++ ns.filter fun n => !decide (n.2 = arg)) := by
  have hdrop : (ivyBindingRemoveFilter arg).Drops (· = arg) := by
    intro log s word n hn
    rw [ivyBindingRemoveFilter, hn, Option.any_some]
  exact ivyListEachSafe_filter hdrop h

end Ivy.Loop
