import Ivy.Lib.Keyed
import Mathlib.Data.Finset.Card
import Mathlib.Data.Finset.Range

/-! Singly linked lists in a heap, with the walks of `IVY_LIST` macros over them. A read of a
freed node has no result. -/
namespace Ivy.Linked

structure Node (α : Type*) where
  val : α
  next : Option ℕ

/-- The variable that points to the list, and its nodes. Addresses from `brk` on are unused;
`freed` are those of the nodes that were freed, in order. -/
structure Store (α : Type*) where
  head : Option ℕ
  node : ℕ → Option (Node α)
  brk : ℕ
  freed : List ℕ

variable {α : Type*}

def first (ns : List (ℕ × α)) : Option ℕ := ns.head?.map Prod.fst

@[simp] theorem first_nil : first ([] : List (ℕ × α)) = none := rfl

@[simp] theorem first_cons (n : ℕ × α) (ns : List (ℕ × α)) : first (n :: ns) = some n.1 := rfl

theorem exists_of_mem_first {ns : List (ℕ × α)} {a : ℕ} (h : a ∈ first ns) : ∃ n ∈ ns, n.1 = a := by
  cases ns with
  | nil => exact absurd h (Option.not_mem_none a)
  | cons n ns => exact ⟨n, List.mem_cons_self, Option.some.inj h⟩

/-- The links lead from `p` through the nodes to a null one. -/
def Path (node : ℕ → Option (Node α)) : Option ℕ → List (ℕ × α) → Prop
  | p, [] => p = none
  | p, n :: ns => p = some n.1 ∧ ∃ next, node n.1 = some ⟨n.2, next⟩ ∧ Path node next ns

namespace Path
variable {node node' : ℕ → Option (Node α)} {p : Option ℕ} {ns : List (ℕ × α)}

theorem first_eq (h : Path node p ns) : p = first ns := by
  cases ns with
  | nil => exact h
  | cons n ns => exact h.1

theorem unique {ns' : List (ℕ × α)} (h : Path node p ns) (h' : Path node p ns') : ns = ns' := by
  induction ns generalizing p ns' with
  | nil =>
    cases ns' with
    | nil => rfl
    | cons n' ns' => exact absurd (h.symm.trans h'.1) (Option.some_ne_none _).symm
  | cons n ns ih =>
    obtain ⟨rfl, next, hn, hrest⟩ := h
    cases ns' with
    | nil => exact absurd h' (Option.some_ne_none _)
    | cons n' ns' =>
      obtain ⟨haddr, next', hn', hrest'⟩ := h'
      have haddr := Option.some.inj haddr
      rw [← haddr, hn] at hn'
      obtain ⟨hval, rfl⟩ := Node.mk.inj (Option.some.inj hn')
      rw [ih hrest hrest', Prod.ext haddr hval]

/-- What follows a node is a path again. -/
theorem suffix {pre : List (ℕ × α)} (h : Path node p (pre ++ ns)) : Path node (first ns) ns := by
  induction pre generalizing p with
  | nil => exact h.first_eq ▸ h
  | cons n pre ih =>
    obtain ⟨-, next, -, hrest⟩ := h
    exact ih hrest

theorem node_eq (h : Path node p ns) {n : ℕ × α} (hn : n ∈ ns) :
    ∃ next, node n.1 = some ⟨n.2, next⟩ := by
  obtain ⟨pre, post, rfl⟩ := List.append_of_mem hn
  obtain ⟨-, next, hnode, -⟩ := h.suffix
  exact ⟨next, hnode⟩

/-- A path that came back to a node would never end. -/
theorem nodup (h : Path node p ns) : (ns.map Prod.fst).Nodup := by
  induction ns generalizing p with
  | nil => exact List.nodup_nil
  | cons n ns ih =>
    have hpath := h
    obtain ⟨-, next, hn, hrest⟩ := h
    rw [List.map_cons]
    refine (ih hrest).cons fun hmem => ?_
    obtain ⟨m, hm, haddr⟩ := List.mem_map.mp hmem
    obtain ⟨pre, post, rfl⟩ := List.append_of_mem hm
    have hagain := hrest.suffix
    rw [first_cons, haddr, ← hpath.1] at hagain
    have hlen := congrArg List.length (hpath.unique hagain)
    simp only [List.length_cons, List.length_append] at hlen
    omega

theorem congr (h : Path node p ns) (hsame : ∀ n ∈ ns, node' n.1 = node n.1) : Path node' p ns := by
  induction ns generalizing p with
  | nil => exact h
  | cons n ns ih =>
    obtain ⟨hp, next, hn, hrest⟩ := h
    exact ⟨hp, next, (hsame n List.mem_cons_self).trans hn,
      ih hrest fun m hm => hsame m (List.mem_cons_of_mem n hm)⟩

theorem splice {pre ns' : List (ℕ × α)} (h : Path node p (pre ++ ns))
    (hpre : ∀ n ∈ pre, node' n.1 = node n.1) (hfirst : first ns' = first ns)
    (h' : Path node' (first ns') ns') : Path node' p (pre ++ ns') := by
  induction pre generalizing p with
  | nil =>
    have hp : p = first ns' := h.first_eq.trans hfirst.symm
    rwa [hp]
  | cons n pre ih =>
    obtain ⟨hp, next, hn, hrest⟩ := h
    exact ⟨hp, next, (hpre n List.mem_cons_self).trans hn,
      ih hrest fun m hm => hpre m (List.mem_cons_of_mem n hm)⟩

end Path

/-- The nodes of the list, with their addresses. There are no others. -/
structure Store.Holds (s : Store α) (ns : List (ℕ × α)) : Prop where
  path : Path s.node s.head ns
  linked : ∀ a, s.node a ≠ none → a ∈ ns.map Prod.fst
  below : ∀ a, s.node a ≠ none → a < s.brk
  gone : ∀ a ∈ s.freed, s.node a = none ∧ a < s.brk
  once : s.freed.Nodup

namespace Store.Holds
variable {s : Store α} {ns : List (ℕ × α)}

theorem mem_below (h : s.Holds ns) {n : ℕ × α} (hn : n ∈ ns) : n.1 < s.brk := by
  obtain ⟨next, hnode⟩ := h.path.node_eq hn
  apply h.below
  rw [hnode]
  exact Option.some_ne_none _

theorem val_eq (h : s.Holds ns) {n : ℕ × α} (hn : n ∈ ns) : (s.node n.1).map (·.val) = some n.2 := by
  obtain ⟨next, hnode⟩ := h.path.node_eq hn
  rw [hnode, Option.map_some]

theorem length_le (h : s.Holds ns) : ns.length ≤ s.brk := by
  have hsub : (ns.map Prod.fst).toFinset ⊆ Finset.range s.brk := by
    intro a ha
    obtain ⟨n, hn, rfl⟩ := List.mem_map.mp (List.mem_toFinset.mp ha)
    exact Finset.mem_range.mpr (h.mem_below hn)
  have hcard := Finset.card_le_card hsub
  rwa [List.toFinset_card_of_nodup h.path.nodup, Finset.card_range, List.length_map] at hcard

theorem not_freed (h : s.Holds ns) {n : ℕ × α} (hn : n ∈ ns) : n.1 ∉ s.freed := by
  intro hfreed
  obtain ⟨next, hnode⟩ := h.path.node_eq hn
  simp [(h.gone n.1 hfreed).1] at hnode

end Store.Holds

namespace Store
variable (s : Store α)

def empty : Store α := ⟨none, fun _ => none, 0, []⟩

/-- `p->next` -/
def next (a : ℕ) : Option (Option ℕ) := (s.node a).map (·.next)

def val (a : ℕ) : Option α := (s.node a).map (·.val)

def push (v : α) : Store α :=
  { s with head := some s.brk, node := Function.update s.node s.brk (some ⟨v, s.head⟩), brk := s.brk + 1 }

def set (a : ℕ) (v : α) : Store α :=
  { s with node := Function.update s.node a ((s.node a).map fun n => { n with val := v }) }

def free (a : ℕ) : Store α :=
  { s with node := Function.update s.node a none, freed := s.freed ++ [a] }

end Store

/-- `IVY_LIST_ITER`: the first node for which the condition fails. The fuel is a bound on the nodes. -/
def iter (node : ℕ → Option (Node α)) (cond : Node α → Bool) : ℕ → Option ℕ → Option (Option ℕ)
  | _, none => some none
  | 0, some _ => none
  | fuel + 1, some a => (node a).bind fun n => if cond n then iter node cond fuel n.next else some (some a)

/-- `IVY_LIST_EACH`, with what the body makes of a value. -/
def each {β : Type*} (node : ℕ → Option (Node α)) (f : β → ℕ → α → β) : ℕ → Option ℕ → β → Option β
  | _, none, b => some b
  | 0, some _, _ => none
  | fuel + 1, some a, b => (node a).bind fun n => each node f fuel n.next (f b a n.val)

def Store.addresses (s : Store α) : List ℕ := (each s.node (fun l a _ => l ++ [a]) s.brk s.head []).getD []

/-- `IVY_LIST_REMOVE` -/
def Store.remove (s : Store α) (a : ℕ) : Option (Store α) :=
  if s.head = some a then (s.node a).map fun n => { s with head := n.next }.free a
  else
    (iter s.node (fun n => n.next ≠ some a) s.brk s.head).bind fun
      | none => some s
      | some prec => (s.node a).bind fun n => (s.node prec).map fun m =>
        { s with node := Function.update s.node prec (some { m with next := n.next }) }.free a

/-- `IVY_LIST_EACH_SAFE`: the next node is read before the body runs. -/
def eachSafe {σ : Type*} (next : σ → ℕ → Option (Option ℕ)) (body : σ → ℕ → Option σ) :
    ℕ → Option ℕ → σ → Option σ
  | _, none, s => some s
  | 0, some _, _ => none
  | fuel + 1, some a, s => (next s a).bind fun nxt => (body s a).bind fun t => eachSafe next body fuel nxt t

/-- The next node that a turn has saved is null or meets `Q` when its body is done. -/
def Saves {σ : Type*} (next : σ → ℕ → Option (Option ℕ)) (body : σ → ℕ → Option σ) (Q : σ → ℕ → Prop) :
    ℕ → Option ℕ → σ → Prop
  | _, none, _ => True
  | 0, some _, _ => False
  | fuel + 1, some a, s => ∃ nxt t, next s a = some nxt ∧ body s a = some t ∧ (∀ b ∈ nxt, Q t b) ∧
    Saves next body Q fuel nxt t

section Walks
variable {node : ℕ → Option (Node α)} {p : Option ℕ} {ns : List (ℕ × α)}

theorem iter_eq (h : Path node p ns) (cond : α → Bool) {fuel : ℕ} (hfuel : ns.length ≤ fuel) :
    iter node (fun n => cond n.val) fuel p = some (first (ns.dropWhile fun n => cond n.2)) := by
  induction ns generalizing p fuel with
  | nil =>
    rw [show p = none from h]
    cases fuel <;> rfl
  | cons n ns ih =>
    obtain ⟨rfl, next, hn, hrest⟩ := h
    obtain ⟨fuel, rfl⟩ : ∃ k, fuel = k + 1 := ⟨fuel - 1, by simp at hfuel; omega⟩
    rw [iter, hn, Option.bind_some, List.dropWhile_cons]
    dsimp only
    split_ifs
    · exact ih hrest (Nat.le_of_succ_le_succ hfuel)
    · rfl

theorem each_eq {β : Type*} (h : Path node p ns) (f : β → ℕ → α → β) (b : β) {fuel : ℕ}
    (hfuel : ns.length ≤ fuel) : each node f fuel p b = some (ns.foldl (fun b n => f b n.1 n.2) b) := by
  induction ns generalizing p fuel b with
  | nil =>
    rw [show p = none from h]
    cases fuel <;> rfl
  | cons n ns ih =>
    obtain ⟨rfl, next, hn, hrest⟩ := h
    obtain ⟨fuel, rfl⟩ : ∃ k, fuel = k + 1 := ⟨fuel - 1, by simp at hfuel; omega⟩
    rw [each, hn, Option.bind_some]
    exact ih hrest _ (Nat.le_of_succ_le_succ hfuel)

theorem Store.Holds.addresses_eq {s : Store α} (h : s.Holds ns) : s.addresses = ns.map Prod.fst := by
  have hfold (l : List ℕ) (ms : List (ℕ × α)) :
      ms.foldl (fun l n => l ++ [n.1]) l = l ++ ms.map Prod.fst := by
    induction ms generalizing l with
    | nil => simp
    | cons m ms ih => rw [List.foldl_cons, ih, List.append_assoc, List.singleton_append, List.map_cons]
  rw [Store.addresses, each_eq h.path _ _ h.length_le, Option.getD_some, hfold, List.nil_append]

theorem first_dropWhile {cond : ℕ × α → Bool} {pre rest : List (ℕ × α)} {n : ℕ × α} (hpre : ∀ m ∈ pre, cond m = true)
    (hn : cond n = false) : first ((pre ++ n :: rest).dropWhile cond) = some n.1 := by
  rw [List.dropWhile_append_of_pos hpre, List.dropWhile_cons_of_neg (by simp [hn]), first_cons]

theorem iter_prev {pre post : List (ℕ × α)} {m n : ℕ × α} (h : Path node p (pre ++ m :: n :: post))
    {fuel : ℕ} (hfuel : pre.length < fuel) :
    iter node (fun k => k.next ≠ some n.1) fuel p = some (some m.1) := by
  have hnodup := h.nodup
  induction pre generalizing p fuel with
  | nil =>
    obtain ⟨rfl, next, hm, rfl, -⟩ := h
    obtain ⟨fuel, rfl⟩ : ∃ k, fuel = k + 1 := ⟨fuel - 1, by omega⟩
    simp [iter, hm]
  | cons k pre ih =>
    obtain ⟨rfl, next, hk, hrest⟩ := h
    obtain ⟨fuel, rfl⟩ : ∃ k, fuel = k + 1 := ⟨fuel - 1, by omega⟩
    have hnext : next ≠ some n.1 := by
      rw [hrest.first_eq]
      intro heq
      have hrest := hrest.nodup
      cases pre with
      | nil => simp_all
      | cons j pre => simp_all
    rw [iter, hk, Option.bind_some]
    simp only [ne_eq, hnext, not_false_eq_true, decide_true, if_true]
    exact ih hrest (Nat.lt_of_succ_lt_succ hfuel) hrest.nodup

/-- What holds before a node is visited leads to what holds before the next one. -/
theorem eachSafe_rule {σ : Type*} (next : σ → ℕ → Option (Option ℕ)) (body : σ → ℕ → Option σ)
    (I : List (ℕ × α) → σ → Prop)
    (hstep : ∀ n rest s, I (n :: rest) s →
      next s n.1 = some (first rest) ∧ ∃ t, body s n.1 = some t ∧ I rest t)
    {s : σ} (h : I ns s) {fuel : ℕ} (hfuel : ns.length ≤ fuel) :
    ∃ t, eachSafe next body fuel (first ns) s = some t ∧ I [] t := by
  induction ns generalizing s fuel with
  | nil => exact ⟨s, by cases fuel <;> rfl, h⟩
  | cons n rest ih =>
    obtain ⟨fuel, rfl⟩ : ∃ k, fuel = k + 1 := ⟨fuel - 1, by simp at hfuel; omega⟩
    obtain ⟨hnext, t, ht, hI⟩ := hstep n rest s h
    obtain ⟨u, hu, hend⟩ := ih hI (Nat.le_of_succ_le_succ hfuel)
    refine ⟨u, ?_, hend⟩
    rw [first_cons, eachSafe, hnext, Option.bind_some, ht, Option.bind_some, hu]

theorem eachSafe_eventually {σ : Type*} (next : σ → ℕ → Option (Option ℕ))
    (body : ℕ → σ → ℕ → Option σ) (I : List (ℕ × α) → σ → Prop)
    (hstep : ∀ n rest s, I (n :: rest) s → next s n.1 = some (first rest) ∧
      ∃ t N, (∀ fuel, N ≤ fuel → body fuel s n.1 = some t) ∧ I rest t) {s : σ} (h : I ns s) :
    ∃ t N, (∀ fuel, N ≤ fuel → eachSafe next (body fuel) fuel (first ns) s = some t) ∧ I [] t := by
  have hwalk : ∃ t N, (∀ turns fuel, ns.length ≤ turns → N ≤ fuel →
      eachSafe next (body fuel) turns (first ns) s = some t) ∧ I [] t := by
    induction ns generalizing s with
    | nil =>
      refine ⟨s, 0, fun turns fuel _ _ => ?_, h⟩
      cases turns <;> rfl
    | cons n rest ih =>
      obtain ⟨hnext, t, N, ht, hI⟩ := hstep n rest s h
      obtain ⟨u, M, hu, hend⟩ := ih hI
      refine ⟨u, max N M, fun turns fuel hturns hfuel => ?_, hend⟩
      obtain ⟨turns, rfl⟩ : ∃ k, turns = k + 1 := ⟨turns - 1, by simp at hturns; omega⟩
      rw [first_cons, eachSafe, hnext, Option.bind_some, ht fuel (le_of_max_le_left hfuel),
        Option.bind_some]
      exact hu turns fuel (Nat.le_of_succ_le_succ hturns) (le_of_max_le_right hfuel)
  obtain ⟨t, N, ht, hend⟩ := hwalk
  exact ⟨t, max ns.length N, fun fuel hfuel => ht fuel fuel (le_of_max_le_left hfuel)
    (le_of_max_le_right hfuel), hend⟩

/-- Nodes for which the body does nothing are passed. -/
theorem eachSafe_append {σ : Type*} {next : σ → ℕ → Option (Option ℕ)} {body : σ → ℕ → Option σ} {s : σ}
    {pre rest : List (ℕ × α)} (hnext : ∀ n post, n :: post <:+ pre → next s n.1 = some (first (post ++ rest)))
    (hbody : ∀ n ∈ pre, body s n.1 = some s) (fuel : ℕ) :
    eachSafe next body (pre.length + fuel) (first (pre ++ rest)) s = eachSafe next body fuel (first rest) s := by
  induction pre with
  | nil => rw [List.length_nil, Nat.zero_add, List.nil_append]
  | cons n pre ih =>
    have hn := hnext n pre (List.suffix_refl _)
    rw [List.length_cons, Nat.add_right_comm, List.cons_append, first_cons, eachSafe, hn, Option.bind_some,
      hbody n List.mem_cons_self, Option.bind_some]
    exact ih (fun m post hm => hnext m post (hm.trans (List.suffix_cons n pre)))
      fun m hm => hbody m (List.mem_cons_of_mem n hm)

end Walks

section Operations
variable {s : Store α} {ns : List (ℕ × α)}

theorem holds_empty : (Store.empty : Store α).Holds [] where
  path := rfl
  linked _ ha := absurd rfl ha
  below _ ha := absurd rfl ha
  gone _ ha := absurd ha List.not_mem_nil
  once := List.nodup_nil

theorem Store.Holds.push (h : s.Holds ns) (v : α) : (s.push v).Holds ((s.brk, v) :: ns) where
  path := by
    refine ⟨rfl, s.head, Function.update_self _ _ _, h.path.congr fun n hn => ?_⟩
    exact Function.update_of_ne (Nat.ne_of_lt (h.mem_below hn)) _ _
  linked a ha := by
    by_cases hbrk : a = s.brk
    · exact hbrk ▸ List.mem_cons_self
    · have hold : s.node a ≠ none := by simpa [Store.push, hbrk] using ha
      exact List.mem_cons_of_mem _ (h.linked a hold)
  below a ha := by
    by_cases hbrk : a = s.brk
    · exact hbrk ▸ Nat.lt_succ_self _
    · have hold : s.node a ≠ none := by simpa [Store.push, hbrk] using ha
      exact Nat.lt_succ_of_lt (h.below a hold)
  gone a ha := by
    obtain ⟨hnone, hlt⟩ := h.gone a ha
    exact ⟨(Function.update_of_ne (Nat.ne_of_lt hlt) _ _).trans hnone, Nat.lt_succ_of_lt hlt⟩
  once := h.once

def assign (a : ℕ) (v : α) (n : ℕ × α) : ℕ × α := if n.1 = a then (a, v) else n

theorem fst_assign (a : ℕ) (v : α) (n : ℕ × α) : (assign a v n).1 = n.1 := by
  unfold assign
  split_ifs with h
  · exact h.symm
  · rfl

theorem first_map_assign (a : ℕ) (v : α) (ns : List (ℕ × α)) : first (ns.map (assign a v)) = first ns := by
  cases ns with
  | nil => rfl
  | cons n ns => simp [fst_assign]

theorem Path.set {p : Option ℕ} (h : Path s.node p ns) (a : ℕ) (v : α) :
    Path (s.set a v).node p (ns.map (assign a v)) := by
  induction ns generalizing p with
  | nil => exact h
  | cons n ns ih =>
    obtain ⟨rfl, next, hn, hrest⟩ := h
    refine ⟨congrArg some (fst_assign a v n).symm, next, ?_, ih hrest⟩
    unfold assign Store.set
    split_ifs with ha
    · subst ha
      simp [hn]
    · simpa [ha] using hn

theorem map_fst_assign (a : ℕ) (v : α) (ns : List (ℕ × α)) :
    (ns.map (assign a v)).map Prod.fst = ns.map Prod.fst := by
  rw [List.map_map]
  exact List.map_congr_left fun n _ => fst_assign a v n

theorem set_node_ne_none {a b : ℕ} {v : α} : (s.set a v).node b ≠ none ↔ s.node b ≠ none := by
  by_cases hba : b = a
  · subst hba
    simp [Store.set]
  · simp [Store.set, hba]

theorem Store.Holds.set (h : s.Holds ns) (a : ℕ) (v : α) : (s.set a v).Holds (ns.map (assign a v)) where
  path := h.path.set a v
  linked b hb := by
    rw [map_fst_assign]
    exact h.linked b (set_node_ne_none.mp hb)
  below b hb := h.below b (set_node_ne_none.mp hb)
  gone b hb := by
    obtain ⟨hnone, hlt⟩ := h.gone b hb
    exact ⟨not_not.mp fun hb => set_node_ne_none.mp hb hnone, hlt⟩
  once := h.once

structure Removed (s : Store α) (ns : List (ℕ × α)) (a : ℕ) (t : Store α) : Prop where
  holds : t.Holds (ns.filter (·.1 ≠ a))
  freed : t.freed = s.freed ++ [a]
  brk : t.brk = s.brk

theorem filter_address {pre post : List (ℕ × α)} {n : ℕ × α}
    (h : ((pre ++ n :: post).map Prod.fst).Nodup) :
    (pre ++ n :: post).filter (·.1 ≠ n.1) = pre ++ post := by
  rw [List.map_append, List.map_cons, List.nodup_append] at h
  obtain ⟨-, hpost, hpre⟩ := h
  have hpre' : pre.filter (·.1 ≠ n.1) = pre := by
    apply List.filter_eq_self.mpr
    intro m hm
    exact decide_eq_true (hpre m.1 (List.mem_map_of_mem hm) n.1 List.mem_cons_self)
  have hpost' : post.filter (·.1 ≠ n.1) = post := by
    apply List.filter_eq_self.mpr
    intro m hm
    refine decide_eq_true fun heq => (List.nodup_cons.mp hpost).1 ?_
    exact heq ▸ List.mem_map_of_mem hm
  rw [List.filter_append, List.filter_cons_of_neg (by simp), hpre', hpost']

theorem Store.Holds.free (h : s.Holds ns) {n : ℕ × α} (hn : n ∈ ns) {t : Store α} (hbrk : t.brk = s.brk)
    (hfreed : t.freed = s.freed) (hnone : ∀ a, t.node a = none ↔ s.node a = none)
    (hpath : Path (Function.update t.node n.1 none) t.head (ns.filter (·.1 ≠ n.1))) :
    (t.free n.1).Holds (ns.filter (·.1 ≠ n.1)) where
  path := hpath
  linked a ha := by
    have haddr : a ≠ n.1 := fun heq => ha (by simp [Store.free, heq])
    have hold : s.node a ≠ none := by
      apply (not_congr (hnone a)).mp
      simpa [Store.free, haddr] using ha
    obtain ⟨m, hm, rfl⟩ := List.mem_map.mp (h.linked a hold)
    exact List.mem_map_of_mem (List.mem_filter.mpr ⟨hm, decide_eq_true haddr⟩)
  below a ha := by
    have hlt : t.node a ≠ none := by
      intro hta
      by_cases haddr : a = n.1
      · exact ha (by simp [Store.free, haddr])
      · exact ha (by simp [Store.free, haddr, hta])
    rw [Store.free, hbrk]
    exact h.below a ((not_congr (hnone a)).mp hlt)
  gone a ha := by
    rw [Store.free, hfreed, List.mem_append, List.mem_singleton] at ha
    rcases ha with ha | rfl
    · obtain ⟨hold, hlt⟩ := h.gone a ha
      refine ⟨?_, hbrk ▸ hlt⟩
      by_cases haddr : a = n.1
      · simp [Store.free, haddr]
      · simp [Store.free, haddr, (hnone a).mpr hold]
    · exact ⟨by simp [Store.free], hbrk ▸ h.mem_below hn⟩
  once := by
    rw [Store.free, hfreed]
    exact h.once.append (List.nodup_singleton _) (by simpa using h.not_freed hn)

theorem Path.address_ne {node : ℕ → Option (Node α)} {p : Option ℕ} {pre post : List (ℕ × α)} {n : ℕ × α}
    (h : Path node p (pre ++ n :: post)) {k : ℕ × α} (hk : k ∈ pre ++ post) : k.1 ≠ n.1 := by
  rw [← filter_address h.nodup] at hk
  simpa using List.of_mem_filter hk

theorem Path.unlink_first {node : ℕ → Option (Node α)} {p : Option ℕ} {post : List (ℕ × α)} {n : ℕ × α}
    (h : Path node p (n :: post)) : Path (Function.update node n.1 none) (first post) post := by
  have hother : ∀ k ∈ [] ++ post, k.1 ≠ n.1 := fun k hk => Path.address_ne h hk
  obtain ⟨-, next, -, hpost⟩ := h
  obtain rfl := hpost.first_eq
  exact hpost.congr fun k hk => Function.update_of_ne (hother k hk) _ _

theorem Path.unlink {node : ℕ → Option (Node α)} {p : Option ℕ} {pre post : List (ℕ × α)} {m n : ℕ × α}
    (h : Path node p (pre ++ m :: n :: post)) :
    Path (Function.update (Function.update node m.1 (some ⟨m.2, first post⟩)) n.1 none) p
      (pre ++ m :: post) := by
  have hn : Path node p ((pre ++ [m]) ++ n :: post) := by simpa using h
  have hmn : m.1 ≠ n.1 := hn.address_ne (by simp)
  have hother : ∀ k ∈ pre ++ post,
      Function.update (Function.update node m.1 (some ⟨m.2, first post⟩)) n.1 none k.1 = node k.1 := by
    intro k hk
    have hkn : k.1 ≠ n.1 := hn.address_ne (by simpa using Or.imp_right .inr (List.mem_append.mp hk))
    have hkm : k.1 ≠ m.1 :=
      h.address_ne (List.mem_append.mpr (Or.imp_right (List.mem_cons_of_mem n) (List.mem_append.mp hk)))
    rw [Function.update_of_ne hkn, Function.update_of_ne hkm]
  obtain ⟨-, next, -, hpost⟩ := hn.suffix
  obtain rfl := hpost.first_eq
  refine h.splice (fun k hk => hother k (List.mem_append_left post hk)) rfl ?_
  have hnode : Function.update (Function.update node m.1 (some ⟨m.2, first post⟩)) n.1 none m.1 =
      some ⟨m.2, first post⟩ := by
    rw [Function.update_of_ne hmn, Function.update_self]
  exact ⟨rfl, first post, hnode, hpost.congr fun k hk => hother k (List.mem_append_right pre hk)⟩

theorem Path.start_ne {node : ℕ → Option (Node α)} {p : Option ℕ} {pre post : List (ℕ × α)} {m n : ℕ × α}
    (h : Path node p (pre ++ m :: n :: post)) : p ≠ some n.1 := by
  have hn : Path node p ((pre ++ [m]) ++ n :: post) := by simpa using h
  rw [h.first_eq]
  cases pre with
  | nil => simpa using hn.address_ne (k := m) (by simp)
  | cons k pre => simpa using hn.address_ne (k := k) (by simp)

/-- `IVY_LIST_REMOVE` takes out one node and frees it. -/
theorem Store.Holds.remove (h : s.Holds ns) {n : ℕ × α} (hn : n ∈ ns) :
    ∃ t, s.remove n.1 = some t ∧ Removed s ns n.1 t := by
  obtain ⟨pre, post, rfl⟩ := List.append_of_mem hn
  have hnodup := h.path.nodup
  obtain ⟨-, next, hnode, hpost⟩ := h.path.suffix
  obtain rfl := hpost.first_eq
  rcases List.eq_nil_or_concat pre with rfl | ⟨pre, m, rfl⟩
  · have hhead : s.head = some n.1 := h.path.1
    refine ⟨{ s with head := first post }.free n.1, ?_, ?_, rfl, rfl⟩
    · rw [Store.remove, if_pos hhead, hnode]
      rfl
    · apply h.free (t := { s with head := first post }) hn rfl rfl (fun _ => Iff.rfl)
      rw [filter_address hnodup]
      exact h.path.unlink_first
  · rw [List.concat_eq_append] at *
    have hpath : Path s.node s.head (pre ++ m :: n :: post) := by simpa using h.path
    obtain ⟨next, hm⟩ := hpath.node_eq (n := m) (by simp)
    have hfuel : pre.length < s.brk := by
      have hlen := h.length_le
      simp only [List.length_append, List.length_cons] at hlen
      omega
    let t : Store α := { s with node := Function.update s.node m.1 (some ⟨m.2, first post⟩) }
    refine ⟨t.free n.1, ?_, ?_, rfl, rfl⟩
    · rw [Store.remove, if_neg hpath.start_ne, iter_prev hpath hfuel, Option.bind_some]
      simp only [hnode, hm, Option.bind_some, Option.map_some]
      rfl
    · have hsame : ∀ a, t.node a = none ↔ s.node a = none := by
        intro a
        by_cases ha : a = m.1
        · subst ha
          simp [t, hm]
        · simp [t, ha]
      apply h.free (t := t) hn rfl rfl hsame
      rw [filter_address hnodup, List.append_assoc]
      exact hpath.unlink

theorem Store.Holds.remove_at {pre rest : List (ℕ × α)} {n : ℕ × α} (h : s.Holds (pre ++ n :: rest)) :
    ∃ t, s.remove n.1 = some t ∧ t.Holds (pre ++ rest) ∧ t.freed = s.freed ++ [n.1] ∧ t.brk = s.brk := by
  obtain ⟨t, ht, hremoved⟩ := h.remove (n := n) (by simp)
  exact ⟨t, ht, filter_address h.path.nodup ▸ hremoved.holds, hremoved.freed, hremoved.brk⟩

theorem map_assign_address {pre rest : List (ℕ × α)} {n : ℕ × α} (h : ((pre ++ n :: rest).map Prod.fst).Nodup)
    (v : α) : (pre ++ n :: rest).map (assign n.1 v) = pre ++ (n.1, v) :: rest := by
  have hother : ∀ m ∈ pre ++ rest, assign n.1 v m = m := by
    rw [← filter_address h]
    intro m hm
    have hne : m.1 ≠ n.1 := of_decide_eq_true (List.mem_filter.mp hm).2
    exact if_neg hne
  have hpre : pre.map (assign n.1 v) = pre :=
    (List.map_congr_left fun m hm => hother m (List.mem_append_left rest hm)).trans (List.map_id pre)
  have hrest : rest.map (assign n.1 v) = rest :=
    (List.map_congr_left fun m hm => hother m (List.mem_append_right pre hm)).trans (List.map_id rest)
  rw [List.map_append, List.map_cons, hpre, hrest, assign, if_pos rfl]

theorem Store.Holds.set_at {pre rest : List (ℕ × α)} {n : ℕ × α} (h : s.Holds (pre ++ n :: rest)) (v : α) :
    (s.set n.1 v).Holds (pre ++ (n.1, v) :: rest) :=
  map_assign_address h.path.nodup v ▸ h.set n.1 v

end Operations

section Lists
variable {s : Store α} {ns : List (ℕ × α)}

/-- The node before the rest of the list has it for its next. -/
theorem Store.Holds.next_eq {pre rest : List (ℕ × α)} {n : ℕ × α} (h : s.Holds (pre ++ n :: rest)) :
    s.next n.1 = some (first rest) := by
  obtain ⟨-, next, hnode, hrest⟩ := h.path.suffix
  rw [Store.next, hnode, Option.map_some, hrest.first_eq]

/-- A node that was freed is not read again. -/
theorem Store.Holds.next_none {a : ℕ} (h : s.Holds ns) (ha : a ∉ ns.map Prod.fst) : s.next a = none := by
  have hnone : s.node a = none := by
    by_contra hnode
    exact ha (h.linked a hnode)
  rw [Store.next, hnone, Option.map_none]

def Store.values (s : Store α) : List α := (each s.node (fun l _ v => l ++ [v]) s.brk s.head []).getD []

theorem Store.Holds.values_eq (h : s.Holds ns) : s.values = ns.map Prod.snd := by
  have hfold (l : List α) (ms : List (ℕ × α)) :
      ms.foldl (fun l n => l ++ [n.2]) l = l ++ ms.map Prod.snd := by
    induction ms generalizing l with
    | nil => simp
    | cons m ms ih => rw [List.foldl_cons, ih, List.append_assoc, List.singleton_append, List.map_cons]
  rw [Store.values, each_eq h.path _ _ h.length_le, Option.getD_some, hfold, List.nil_append]

def Store.dropIf (drop : α → Bool) (s : Store α) (a : ℕ) : Option (Store α) :=
  (s.val a).bind fun v => if drop v then s.remove a else some s

/-- `IVY_LIST_EACH_SAFE` with a body that removes some of the nodes. -/
def Store.prune (drop : α → Bool) (s : Store α) : Option (Store α) :=
  eachSafe Store.next (fun s a => s.dropIf drop a) s.brk s.head s

/-- `IVY_LIST_EMPTY` -/
def Store.clear : ℕ → Store α → Option (Store α)
  | fuel, s =>
    match s.head, fuel with
    | none, _ => some s
    | some _, 0 => none
    | some a, fuel + 1 => (s.node a).bind fun n => Store.clear fuel ({ s with head := n.next }.free a)

structure Pruned (s : Store α) (ns : List (ℕ × α)) (drop : ℕ × α → Bool) (t : Store α) : Prop where
  holds : t.Holds (ns.filter fun n => !drop n)
  freed : t.freed = s.freed ++ (ns.filter drop).map Prod.fst
  brk : t.brk = s.brk

theorem Store.Holds.prune (h : s.Holds ns) (drop : α → Bool) :
    ∃ t, s.prune drop = some t ∧ Pruned s ns (fun n => drop n.2) t := by
  -- the nodes that were visited are pruned, and those before the walk are still there
  let I (rest : List (ℕ × α)) (t : Store α) : Prop := ∃ pre, ns = pre ++ rest ∧
    t.Holds (pre.filter (fun n => !drop n.2) ++ rest) ∧
    t.freed = s.freed ++ (pre.filter fun n => drop n.2).map Prod.fst ∧ t.brk = s.brk
  have hstep : ∀ n rest t, I (n :: rest) t → t.next n.1 = some (first rest) ∧
      ∃ u, t.dropIf drop n.1 = some u ∧ I rest u := by
    intro n rest t hI
    obtain ⟨pre, hns, ht, hfreed, hbrk⟩ := hI
    refine ⟨ht.next_eq, ?_⟩
    have hn : n ∈ pre.filter (fun n => !drop n.2) ++ n :: rest := by simp
    rw [Store.dropIf, Store.val, ht.val_eq hn, Option.bind_some]
    split_ifs with hdrop
    · obtain ⟨u, hu, hrest, hmore, hsame⟩ := ht.remove_at
      refine ⟨u, hu, pre ++ [n], by simp [hns], ?_, ?_, hsame.trans hbrk⟩
      · simpa [List.filter_append, hdrop] using hrest
      · rw [hmore, hfreed]
        simp [List.filter_append, hdrop]
    · refine ⟨t, rfl, pre ++ [n], by simp [hns], ?_, ?_, hbrk⟩
      · rw [Bool.not_eq_true] at hdrop
        simpa [List.filter_append, hdrop] using ht
      · rw [hfreed]
        simp [List.filter_append, hdrop]
  obtain ⟨t, ht, pre, hns, hholds, hfreed, hbrk⟩ :=
    eachSafe_rule Store.next (fun s a => s.dropIf drop a) I hstep ⟨[], rfl, h, by simp, rfl⟩ h.length_le
  rw [List.append_nil] at hns hholds
  subst hns
  exact ⟨t, by rw [Store.prune, h.path.first_eq, ht], hholds, hfreed, hbrk⟩

theorem Store.Holds.clear_nil (h : s.Holds []) (fuel : ℕ) : s.clear fuel = some s := by
  have hhead : s.head = none := h.path
  cases fuel <;> simp [Store.clear, hhead]

def nodeOf : List (ℕ × α) → ℕ → Option (Node α)
  | [], _ => none
  | n :: rest, a => if a = n.1 then some ⟨n.2, first rest⟩ else nodeOf rest a

def Store.ofList (ns : List (ℕ × α)) (brk : ℕ) : Store α := ⟨first ns, nodeOf ns, brk, []⟩

theorem nodeOf_ne_none {a : ℕ} : nodeOf ns a ≠ none ↔ a ∈ ns.map Prod.fst := by
  induction ns with
  | nil => simp [nodeOf]
  | cons n ns ih =>
    rw [nodeOf, List.map_cons, List.mem_cons]
    split_ifs with ha <;> simp [ha, ih]

theorem path_nodeOf (hnodup : (ns.map Prod.fst).Nodup) : Path (nodeOf ns) (first ns) ns := by
  induction ns with
  | nil => rfl
  | cons n ns ih =>
    obtain ⟨hn, hns⟩ := List.nodup_cons.mp hnodup
    refine ⟨rfl, first ns, by simp [nodeOf], (ih hns).congr fun m hm => ?_⟩
    have hne : m.1 ≠ n.1 := fun heq => hn (heq ▸ List.mem_map_of_mem hm)
    rw [nodeOf, if_neg hne]

theorem holds_ofList {brk : ℕ} (hnodup : (ns.map Prod.fst).Nodup) (hbelow : ∀ n ∈ ns, n.1 < brk) :
    (Store.ofList ns brk).Holds ns where
  path := path_nodeOf hnodup
  linked _ ha := nodeOf_ne_none.mp ha
  below a ha := by
    obtain ⟨n, hn, rfl⟩ := List.mem_map.mp (nodeOf_ne_none.mp ha)
    exact hbelow n hn
  gone _ ha := absurd ha List.not_mem_nil
  once := List.nodup_nil

def Store.new (l : List α) : Store α := .ofList (l.zipIdx.map Prod.swap) l.length

theorem holds_new (l : List α) : (Store.new l).Holds (l.zipIdx.map Prod.swap) := by
  apply holds_ofList
  · have haddr : (l.zipIdx.map Prod.swap).map Prod.fst = List.range' 0 l.length := by
      rw [List.map_map, ← List.zipIdx_map_snd]
      rfl
    rw [haddr]
    exact List.nodup_range'
  · intro n hn
    obtain ⟨v, hv, rfl⟩ := List.mem_map.mp hn
    exact List.snd_lt_of_mem_zipIdx hv

@[simp] theorem map_snd_zipIdx_swap (l : List α) : (l.zipIdx.map Prod.swap).map Prod.snd = l := by
  rw [List.map_map]
  exact List.zipIdx_map_fst 0 l

@[simp] theorem values_new (l : List α) : (Store.new l).values = l := by
  rw [(holds_new l).values_eq, map_snd_zipIdx_swap]

end Lists
end Ivy.Linked
