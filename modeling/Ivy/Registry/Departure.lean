import Ivy.Lib.Machine
import Ivy.Registry.Heap

/-! A client leaves: the walks of `delOneClient` over the nodes, and what they leave. -/
namespace Ivy.Registry
open Linked

variable {Code : Type*}

/-- Between the first two places of an id stands one that does not come before them. -/
def Apart (ids : List ℤ) : Prop :=
  ∀ before id between after, ids = before ++ id :: (between ++ id :: after) → id ∉ before → id ∉ between →
    ∃ x ∈ between, x ∉ before

theorem apart_cons {id : ℤ} {rest : List ℤ} :
    Apart (id :: rest) ↔ rest.head? ≠ some id ∧ Apart (rest.filter (· ≠ id)) := by
  constructor
  · intro h
    constructor
    · intro hhead
      obtain ⟨after, rfl⟩ := List.head?_eq_some_iff.mp hhead
      obtain ⟨x, hx, -⟩ := h [] id [] after rfl List.not_mem_nil List.not_mem_nil
      exact List.not_mem_nil hx
    · intro before x between after hrest hbefore hbetween
      obtain ⟨l₁, l₂, rfl, rfl, hl₂⟩ := List.filter_eq_append_iff.mp hrest
      obtain ⟨m₁, m₂, rfl, hm₁, hx, hm₂⟩ := List.filter_eq_cons_iff.mp hl₂
      obtain ⟨n₁, n₂, rfl, rfl, hn₂⟩ := List.filter_eq_append_iff.mp hm₂
      obtain ⟨k₁, k₂, rfl, hk₁, -, -⟩ := List.filter_eq_cons_iff.mp hn₂
      have hsplit : id :: (l₁ ++ (m₁ ++ x :: (n₁ ++ (k₁ ++ x :: k₂)))) =
          (id :: l₁ ++ m₁) ++ x :: ((n₁ ++ k₁) ++ x :: k₂) := by simp
      obtain ⟨y, hy, hnew⟩ := h _ x _ k₂ hsplit (by grind) (by grind)
      exact ⟨y, by grind, by grind⟩
  · intro h
    obtain ⟨hhead, hrest⟩ := h
    intro before id' between after heq hbefore hbetween
    cases before with
    | nil =>
      obtain ⟨rfl, rfl⟩ := List.cons_eq_cons.mp heq
      cases between with
      | nil => exact absurd rfl hhead
      | cons y between => exact ⟨y, List.mem_cons_self, List.not_mem_nil⟩
    | cons y before =>
      obtain ⟨rfl, rfl⟩ := List.cons_eq_cons.mp heq
      rw [List.mem_cons, not_or] at hbefore
      have hfilter : (before ++ id' :: (between ++ id' :: after)).filter (· ≠ id) =
          before.filter (· ≠ id) ++ id' :: (between.filter (· ≠ id) ++ id' :: after.filter (· ≠ id)) := by
        simp [hbefore.1]
      obtain ⟨x, hx, hnew⟩ := hrest _ id' _ _ hfilter (by grind) (by grind)
      exact ⟨x, by grind, by grind⟩

/-- The walk over the regexps of a client is safe if no id comes twice without a new one between. -/
theorem safeWalk_iff_apart {ids : List ℤ} : SafeWalk ids ↔ Apart ids := by
  induction hn : ids.length using Nat.strong_induction_on generalizing ids with
  | h n ih =>
    cases ids with
    | nil => exact iff_of_true .nil fun before id between after heq => absurd heq (by simp)
    | cons id rest =>
      have hlen : (rest.filter (· ≠ id)).length < n :=
        hn ▸ Nat.lt_succ_of_le (List.length_filter_le _ _)
      rw [apart_cons, ← ih _ hlen rfl]
      constructor
      · intro hwalk
        cases hwalk with
        | cons hhead hrest => exact ⟨hhead, hrest⟩
      · exact fun h => .cons h.1 h.2

theorem apart_of_nodup {ids : List ℤ} (h : ids.Nodup) : Apart ids := by
  intro before id between after heq
  rw [heq, List.nodup_append, List.nodup_cons] at h
  exact absurd (by simp) h.2.1.1

section Clients
variable {h : Heap Code} {s : State Code} {pre post : List (ℕ × ClientNode)} {c : ℕ × ClientNode}
  {ns : List (ℕ × GlobReg)}

theorem Heap.Holds.stands (hh : h.Holds s) {client : ℕ} {clnt : IvyClient}
    (hclnt : s.allClients.find client = some clnt) :
    ∃ pre c post ns, Stands h pre post c ns ∧ EntriesOf h s ∧
      (pre ++ c :: post).map (·.2.view) = s.allClients.list ∧ c.2.view = clnt ∧ c.2.client = client := by
  obtain ⟨cs, es, hcs, hes, hclients, hentries⟩ := hh
  obtain ⟨hmem, hclient⟩ := (Keyed.find_eq_some s.allClients.nodup).mp hclnt
  rw [← hclients] at hmem
  obtain ⟨c, hc, rfl⟩ := List.mem_map.mp hmem
  obtain ⟨ns, hns⟩ := hcs.lists c hc
  obtain ⟨pre, post, rfl⟩ := List.append_of_mem hc
  exact ⟨pre, c, post, ns, ⟨hcs, hns⟩, ⟨es, hes, hentries⟩, hclients, rfl, hclient⟩

theorem Stands.map_id (hst : Stands h pre post c ns) :
    c.2.view.srcRegList.map GlobReg.id = ns.map (·.2.id) := by
  have hvalues : c.2.view.srcRegList = ns.map Prod.snd := hst.sources.values_eq
  rw [hvalues, List.map_map]
  rfl

theorem Stands.dropClient (hst : Stands h pre post c []) :
    ∃ d, h.dropClient c.1 = some { h with allClients := d } ∧ HoldsClients d (pre ++ post) := by
  obtain ⟨h', hset, hsame, hst'⟩ := hst.setSources hst.sources
  obtain ⟨d, hd, hholds, -⟩ := hst'.clients.holds.remove_at
  refine ⟨d, ?_, hholds, fun m hm => hst.clients.lists m ?_⟩
  · unfold Heap.dropClient
    rw [hst.sources_eq, Option.bind_some, hst.sources.clear_nil, Option.bind_some, hset, Option.bind_some, hsame]
    exact congrArg (Option.map _) hd
  · rcases List.mem_append.mp hm with hm | hm <;> simp [hm]

theorem delClientNode_other {cs : List (ℕ × ClientNode)} (hcs : h.allClients.Holds cs) {m : ℕ × ClientNode}
    (hm : m ∈ cs) {client : ℕ} (hne : m.2.client ≠ client) : h.delClientNode client m.1 = some h := by
  unfold Heap.delClientNode
  rw [Store.val, hcs.val_eq hm, Option.bind_some, if_neg hne]

theorem Stands.delFromClients (hst : Stands h pre post c ns)
    (hcs : (pre ++ c :: post).map (·.2.view) = s.allClients.list) :
    ∃ fuel, h.delFromClients c.2.client = (h.delSources c.1).bind fun h => (h.dropClient c.1).bind fun h =>
      eachSafe (fun h client_itr => h.allClients.next client_itr)
        (fun h client_itr => h.delClientNode c.2.client client_itr) (post.length + fuel) (first post) h := by
  have hothers := Stands.others hcs
  have hlen := hst.clients.holds.length_le
  rw [List.length_append, List.length_cons] at hlen
  obtain ⟨fuel, hfuel⟩ : ∃ fuel, h.allClients.brk = pre.length + (post.length + fuel + 1) :=
    ⟨h.allClients.brk - (pre.length + (post.length + 1)), by omega⟩
  refine ⟨fuel, ?_⟩
  unfold Heap.delFromClients
  rw [hst.clients.holds.path.first_eq, hfuel, eachSafe_append]
  · rw [first_cons, eachSafe, hst.clients.holds.next_eq, Option.bind_some, Heap.delClientNode, hst.val_eq,
      Option.bind_some, if_pos rfl, Option.bind_assoc]
  · intro n mid hmid
    obtain ⟨before, rfl⟩ := hmid
    have hholds := hst.clients.holds
    rw [List.append_assoc] at hholds
    exact hholds.next_eq
  · intro m hm
    exact delClientNode_other hst.clients.holds (by simp [hm]) (hothers m (by simp [hm]))

theorem Stands.delFromClients_safe (hst : Stands h pre post c ns) (hes : EntriesOf h s)
    (hcs : (pre ++ c :: post).map (·.2.view) = s.allClients.list) (hwalk : SafeWalk (ns.map (·.2.id))) :
    ∃ h' t, h.delFromClients c.2.client = some h' ∧ Registry.delClientNode s c.2.client = some t ∧ EntriesOf h' t ∧
      HoldsClients h'.allClients (pre ++ post) ∧ (pre ++ post).map (·.2.view) = t.allClients.list := by
  obtain ⟨-, h₁, l, t, hdel, ht, hst₁, -, hes₁, hcs₁⟩ :=
    hst.delSources hes hcs (rfl : c.2.view.client = _) rfl hwalk rfl hst.sources.length_le (Nat.le_refl _)
  obtain ⟨d, hdrop, hholds⟩ := hst₁.dropClient
  have hdrop : h₁.dropClient c.1 = some { h₁ with allClients := d } := hdrop
  let h₂ : Heap Code := { h₁ with allClients := d }
  have hothers := Stands.others hcs
  obtain ⟨fuel, hwalks⟩ := hst.delFromClients hcs
  have hsources : h.delSources c.1 = some h₁ := by
    rw [Heap.delSources, hst.sources_eq, Option.bind_some, hst.sources.path.first_eq, hdel]
  have hrest : eachSafe (fun h client_itr => h.allClients.next client_itr)
      (fun h client_itr => h.delClientNode c.2.client client_itr) (post.length + fuel) (first post) h₂ = some h₂ := by
    have hend := @eachSafe_append _ _ (fun (h : Heap Code) client_itr => h.allClients.next client_itr)
      (fun h client_itr => h.delClientNode c.2.client client_itr) h₂ post []
    rw [List.append_nil] at hend
    rw [hend]
    · cases fuel <;> rfl
    · intro n mid hmid
      obtain ⟨before, rfl⟩ := hmid
      have hh := hholds.holds
      rw [← List.append_assoc] at hh
      rw [List.append_nil]
      exact hh.next_eq
    · intro m hm
      exact delClientNode_other hholds.holds (by simp [hm]) (hothers m (by simp [hm]))
  refine ⟨h₂, { t with allClients := t.allClients.remove c.2.client }, ?_, ?_, hes₁, hholds, ?_⟩
  · rw [hwalks, hsources, Option.bind_some, hdrop, Option.bind_some, hrest]
  · rw [Registry.delClientNode, find_of_stands hcs]
    dsimp only
    rw [hst.map_id, List.length_map, ht, Option.map_some]
  · change _ = t.allClients.list.filter _
    have hself (l : List (ℕ × ClientNode)) (hl : l ⊆ pre ++ post) :
        (l.map (·.2.view)).filter (·.client ≠ c.2.client) = l.map (·.2.view) := by
      apply List.filter_eq_self.mpr
      intro clnt hclnt
      obtain ⟨m, hm, rfl⟩ := List.mem_map.mp hclnt
      exact decide_eq_true (hothers m (hl hm))
    have hc : (withSources c l).2.view.client = c.2.client := rfl
    rw [← hcs₁, List.map_append, List.map_append, List.map_cons, List.filter_append,
      hself pre (List.subset_append_left pre post), List.filter_cons_of_neg (by simp [hc]),
      hself post (List.subset_append_right pre post)]

end Clients

/-- The walk over the dictionary, with an entry removed when no client is left in it. -/
theorem delFromDictionary_holds {h : Heap Code} {s : State Code} (hes : EntriesOf h s) (client : ℕ) :
    ∃ h', h.delFromDictionary client = some h' ∧ h'.allClients = h.allClients ∧
      ∃ es', HoldsEntries h'.messSndByRegexp es' ∧
        es'.map DictNode.view = (delOneClientFromDictionary s.messSndByRegexp client).entries := by
  obtain ⟨es, hes, hview⟩ := hes
  let I (rest : List (ℕ × DictNode Code)) (h' : Heap Code) : Prop := ∃ done kept, es = done ++ rest ∧
    HoldsEntries h'.messSndByRegexp (kept ++ rest) ∧ h'.allClients = h.allClients ∧
    kept.map DictNode.view = (done.map DictNode.view).filterMap (pruneEntry (notOf client))
  have hstep : ∀ n rest h', I (n :: rest) h' → h'.messSndByRegexp.next n.1 = some (first rest) ∧
      ∃ h'', h'.delOneClientFromDictionaryEntry n.1 client = some h'' ∧ I rest h'' := by
    intro n rest h' hI
    obtain ⟨done, kept, hes', hholds, hclients, hkept⟩ := hI
    obtain ⟨d, ms, hd, hholds', hms⟩ := delFromEntry_holds hholds fun c => c.client = client
    refine ⟨hholds.holds.next_eq, _, hd, done ++ [n], kept ++ ms, by simp [hes'], hholds', hclients, ?_⟩
    have hone : ms.map DictNode.view = (pruneEntry (notOf client) (DictNode.view n)).toList := hms
    rw [List.map_append, hkept, hone, List.map_append, List.filterMap_append]
    cases hprune : pruneEntry (notOf client) (DictNode.view n) <;> simp [hprune]
  obtain ⟨h', hwalk, done, kept, hdone, hholds, hclients, hkept⟩ := eachSafe_rule
    (fun (h : Heap Code) msgSendDict => h.messSndByRegexp.next msgSendDict)
    (fun h msgSendDict => h.delOneClientFromDictionaryEntry msgSendDict client) I hstep (s := h)
    ⟨[], [], rfl, hes, rfl, rfl⟩ hes.holds.length_le
  rw [List.append_nil] at hdone hholds
  subst hdone
  refine ⟨h', ?_, hclients, kept, hholds, ?_⟩
  · rw [Heap.delFromDictionary, hes.holds.path.first_eq, hwalk]
  · rw [hkept, hview]
    rfl

/-- `delOneClient` does the same to the heap as to the registry, and follows a freed link exactly if
the registry says so. -/
theorem delOneClient_holds {h : Heap Code} {s : State Code} (hh : h.Holds s) {client : ℕ} {clnt : IvyClient}
    (hclnt : s.allClients.find client = some clnt) :
    (SafeWalk (clnt.srcRegList.map GlobReg.id) →
      ∃ h' t, h.delOneClient client = some h' ∧ delOneClient s client = some t ∧ h'.Holds t) ∧
    (¬ SafeWalk (clnt.srcRegList.map GlobReg.id) → h.delOneClient client = none) := by
  obtain ⟨pre, c, post, ns, hst, hes, hcs, rfl, rfl⟩ := hh.stands hclnt
  rw [hst.map_id]
  constructor
  · intro hwalk
    obtain ⟨h₁, t, hclients, ht, hes₁, hcs₁, hview⟩ := hst.delFromClients_safe hes hcs hwalk
    obtain ⟨h', hdict, hsame, es', hes', hview'⟩ := delFromDictionary_holds hes₁ c.2.client
    refine ⟨h', regenerateRegPtrArrayCache
      { t with messSndByRegexp := delOneClientFromDictionary t.messSndByRegexp c.2.client }, ?_, ?_,
      pre ++ post, es', hsame ▸ hcs₁, hes', hview, hview'⟩
    · rw [Heap.delOneClient, hclients, Option.bind_some, hdict]
    · rw [delOneClient, ht, Option.map_some]
  · intro hwalk
    obtain ⟨fuel, hwalks⟩ := hst.delFromClients hcs
    have hnone := hst.delSources_none hes hcs (rfl : c.2.view.client = _) rfl hwalk c.2.srcRegList.brk
    have hsources : h.delSources c.1 = none := by
      rw [Heap.delSources, hst.sources_eq, Option.bind_some, hst.sources.path.first_eq, hnone]
    rw [Heap.delOneClient, hwalks, hsources, Option.bind_none, Option.bind_none]

/-- The two states differ in what belongs to one client, entry by entry and record by record. -/
structure SameOthers (client : ℕ) (s t : State Code) : Prop where
  clients : t.allClients.list.filter (·.client ≠ client) = s.allClients.list.filter (·.client ≠ client)
  entries : t.messSndByRegexp.entries.filterMap (pruneEntry (notOf client)) =
    s.messSndByRegexp.entries.filterMap (pruneEntry (notOf client))

theorem pruneEntry_others (client : ℕ) (id : ℤ) (ptr : ℕ) (e : MsgSndDict Code) :
    (onEntry ptr (pruneEntry (others client id)) e).bind (pruneEntry (notOf client)) =
      pruneEntry (notOf client) e := by
  unfold onEntry
  split_ifs
  · have hfilter := filter_others client id e.clientList
    by_cases hempty : e.clientList.filter (others client id) = []
    · rw [hempty] at hfilter
      simp [pruneEntry, hempty, ← hfilter]
    · have hprune : pruneEntry (others client id) e =
          some { e with clientList := e.clientList.filter (others client id) } := if_neg hempty
      rw [hprune, Option.bind_some]
      unfold pruneEntry
      dsimp only
      rw [hfilter]
  · rfl

theorem Clients.filter_modify (cs : Clients) (client : ℕ) (f : IvyClient → IvyClient) :
    (cs.modify client f).list.filter (·.client ≠ client) = cs.list.filter (·.client ≠ client) := by
  change (cs.list.map (onClient client f)).filter _ = _
  rw [List.filter_map]
  have hkeep : (fun clnt : IvyClient => decide (clnt.client ≠ client)) ∘ onClient client f =
      fun clnt => decide (clnt.client ≠ client) := by
    funext clnt
    rw [Function.comp_apply, client_onClient]
  rw [hkeep]
  refine (List.map_congr_left fun clnt hclnt => ?_).trans (List.map_id _)
  exact if_neg (of_decide_eq_true (List.mem_filter.mp hclnt).2)

section Others
variable {s t : State Code} {clnt : IvyClient}

theorem SameOthers.delFromDictionary (h : SameOthers clnt.client s t) (regexp : Text) :
    SameOthers clnt.client s (delRegexpForOneClientFromDictionary t regexp clnt) := by
  constructor
  · rw [delFromDictionary_allClients]
    exact h.clients
  · rw [← h.entries]
    simp only [delRegexpForOneClientFromDictionary, regenerate_messSndByRegexp]
    split
    · rfl
    · change (List.filterMap _ (List.filterMap _ _)) = _
      rw [List.filterMap_filterMap]
      apply List.filterMap_congr
      exact fun e _ => pruneEntry_others clnt.client clnt.id _ e

theorem SameOthers.delRegexpForOneClient (h : SameOthers clnt.client s t) (id : ℤ) :
    SameOthers clnt.client s (delRegexpForOneClient t clnt id).1 := by
  unfold Registry.delRegexpForOneClient
  split
  · exact h
  · have hfold (l : List GlobReg) : ∀ u, SameOthers clnt.client s u → SameOthers clnt.client s
        (l.foldl (fun s regxpSrc => delRegexpForOneClientFromDictionary s regxpSrc.str_regexp clnt) u) := by
      induction l with
      | nil => exact fun u hu => hu
      | cons n l ih => exact fun u hu => ih _ (hu.delFromDictionary n.str_regexp)
    obtain ⟨hclients, hentries⟩ := hfold _ t h
    refine ⟨?_, hentries⟩
    rw [← hclients]
    exact Clients.filter_modify _ _ _

/-- After a safe walk the registry has lost one client and nothing else. -/
theorem delOneClient_eq {client : ℕ} (hclnt : s.allClients.find client = some clnt)
    (ht : delOneClient s client = some t) :
    t.allClients.list = s.allClients.list.filter (·.client ≠ client) ∧
      t.messSndByRegexp.entries = s.messSndByRegexp.entries.filterMap (pruneEntry (notOf client)) := by
  obtain rfl : clnt.client = client := Keyed.find_key hclnt
  have hwalk : SafeWalk (clnt.srcRegList.map GlobReg.id) := by
    by_contra hnot
    rw [delOneClient_none hclnt hnot] at ht
    exact absurd ht (Option.some_ne_none t).symm
  have hstep : ∀ u id, SameOthers clnt.client s u →
      SameOthers clnt.client s (delRegexpForOneClient u clnt id).1 :=
    fun _ id hs => hs.delRegexpForOneClient id
  obtain ⟨u, hu, hsame⟩ := delSources_keeps hstep hwalk (Nat.le_refl _) ⟨rfl, rfl⟩
  rw [delOneClient, delClientNode, hclnt] at ht
  dsimp only at ht
  rw [hu, Option.map_some, Option.map_some] at ht
  obtain rfl := Option.some.inj ht
  exact ⟨hsame.clients, hsame.entries⟩

end Others

/-- A heap for a registry. -/
def Heap.ofState (s : State Code) : Heap Code where
  allClients := .new (s.allClients.list.map fun clnt =>
    ⟨clnt.client, clnt.id, .new clnt.srcRegList, clnt.endRegexpReceived⟩)
  messSndByRegexp := .ofList (s.messSndByRegexp.entries.map fun e =>
    (e.ptr, ⟨e.regexp_src, .new e.clientList, e.binding⟩)) s.messSndByRegexp.brk

theorem Heap.holds_ofState (s : State Code) : (Heap.ofState s).Holds s := by
  refine ⟨_, _, ⟨holds_new _, ?_⟩, ⟨holds_ofList ?_ ?_, ?_⟩, ?_, ?_⟩
  · intro n hn
    have hmem := List.mem_map_of_mem (f := Prod.snd) hn
    rw [map_snd_zipIdx_swap] at hmem
    obtain ⟨clnt, -, heq⟩ := List.mem_map.mp hmem
    rw [← heq]
    exact ⟨_, holds_new _⟩
  · rw [List.map_map]
    exact s.messSndByRegexp.ptrs
  · intro n hn
    obtain ⟨e, he, rfl⟩ := List.mem_map.mp hn
    exact s.messSndByRegexp.below e he
  · intro n hn
    obtain ⟨e, he, rfl⟩ := List.mem_map.mp hn
    exact ⟨_, holds_new _⟩
  · have hview (l : List (ℕ × ClientNode)) : l.map (·.2.view) = (l.map Prod.snd).map ClientNode.view := by
      rw [List.map_map]
      rfl
    rw [hview, map_snd_zipIdx_swap, List.map_map]
    refine (List.map_congr_left fun clnt _ => ?_).trans (List.map_id _)
    simp [ClientNode.view]
  · rw [List.map_map]
    refine (List.map_congr_left fun e _ => ?_).trans (List.map_id _)
    simp [DictNode.view]

/-- Every saved node of the walk over the regexps of a client is linked or null when it is needed,
and the walk ends with each node removed once. -/
def WalksLive (h : Heap Code) (client_itr : ℕ) : Prop :=
  ∃ srcRegList, h.sources client_itr = some srcRegList ∧
    Saves (fun h regxpSrc => h.nextSource client_itr regxpSrc) (fun h regxpSrc => h.delSource client_itr regxpSrc)
      (fun h regxpSrc => h.Sourced client_itr regxpSrc) srcRegList.brk srcRegList.head h ∧
    ∃ h' l, h.delSources client_itr = some h' ∧ h'.sources client_itr = some l ∧ l.head = none ∧
      l.freed.Perm (srcRegList.freed ++ srcRegList.addresses) ∧ l.freed.Nodup

theorem Stands.walksLive_iff {h : Heap Code} {s : State Code} {pre post : List (ℕ × ClientNode)}
    {c : ℕ × ClientNode} {ns : List (ℕ × GlobReg)} (hst : Stands h pre post c ns) (hes : EntriesOf h s)
    (hcs : (pre ++ c :: post).map (·.2.view) = s.allClients.list) :
    WalksLive h c.1 ↔ SafeWalk (c.2.view.srcRegList.map GlobReg.id) := by
  rw [hst.map_id]
  constructor
  · intro hlive
    obtain ⟨l, hl, -, h', l', hsources, -⟩ := hlive
    by_contra hwalk
    have hnone := hst.delSources_none hes hcs (rfl : c.2.view.client = _) rfl hwalk c.2.srcRegList.brk
    rw [Heap.delSources, hst.sources_eq, Option.bind_some, hst.sources.path.first_eq, hnone] at hsources
    exact absurd hsources (Option.some_ne_none h').symm
  · intro hwalk
    obtain ⟨hsaves, h', l, t, hend, -, hst', hperm, -⟩ :=
      hst.delSources hes hcs (rfl : c.2.view.client = _) rfl hwalk rfl hst.sources.length_le (Nat.le_refl _)
    refine ⟨_, hst.sources_eq, hst.sources.path.first_eq ▸ hsaves, h', l, ?_, hst'.sources_eq, ?_, ?_, ?_⟩
    · rw [Heap.delSources, hst.sources_eq, Option.bind_some, hst.sources.path.first_eq, hend]
    · exact hst'.sources.path
    · rw [hst.sources.addresses_eq]
      exact hperm
    · exact hst'.sources.once

theorem exists_heap_not_live {s : State Code} {client : ℕ} {clnt : IvyClient}
    (hclnt : s.allClients.find client = some clnt) (hwalk : ¬ SafeWalk (clnt.srcRegList.map GlobReg.id)) :
    ∃ h : Heap Code, ∃ client_itr, h.Holds s ∧ h.findClient client = some (some client_itr) ∧
      ¬ WalksLive h client_itr ∧ h.delOneClient client = none := by
  have hh := Heap.holds_ofState s
  have hnone := (delOneClient_holds hh hclnt).2 hwalk
  obtain ⟨pre, c, post, ns, hst, hes, hcs, rfl, rfl⟩ := hh.stands hclnt
  exact ⟨_, c.1, hh, hst.findClient hcs, (hst.walksLive_iff hes hcs).not.mpr hwalk, hnone⟩

/-- `delOneClient` walks over live nodes only, exactly if between the first two places of an id in the
list of the client stands one that does not come before them. -/
theorem departure_live_iff {h : Heap Code} {s : State Code} (hh : h.Holds s) {client : ℕ} {clnt : IvyClient}
    (hclnt : s.allClients.find client = some clnt) :
    ∃ client_itr, h.findClient client = some (some client_itr) ∧
      (WalksLive h client_itr ↔ Apart (clnt.srcRegList.map GlobReg.id)) ∧
      ((h.delOneClient client).isSome ↔ Apart (clnt.srcRegList.map GlobReg.id)) := by
  have hdel := delOneClient_holds hh hclnt
  obtain ⟨pre, c, post, ns, hst, hes, hcs, rfl, rfl⟩ := hh.stands hclnt
  rw [← safeWalk_iff_apart]
  refine ⟨c.1, hst.findClient hcs, hst.walksLive_iff hes hcs, ?_⟩
  by_cases hwalk : SafeWalk (c.2.view.srcRegList.map GlobReg.id)
  · obtain ⟨h', t, hsome, -⟩ := hdel.1 hwalk
    exact iff_of_true (hsome ▸ rfl) hwalk
  · rw [hdel.2 hwalk]
    exact iff_of_false Bool.false_ne_true hwalk

/-- A client with one id twice, and another one between. -/
theorem departure_live_iff_example : ∃ s : State Unit, Machine.run (step fun _ => .ok ()) initial
    [.connect 1, .line 1 (.addRegexp 1 (ascii "a")), .line 1 (.addRegexp 2 (ascii "b")),
      .line 1 (.addRegexp 1 (ascii "c"))] = some s ∧
    ∃ client_itr, (Heap.ofState s).findClient 1 = some (some client_itr) ∧
      (WalksLive (Heap.ofState s) client_itr ↔ Apart ((s.allClients.srcs 1).map GlobReg.id)) ∧
      (((Heap.ofState s).delOneClient 1).isSome ↔ Apart ((s.allClients.srcs 1).map GlobReg.id)) :=
  ⟨_, rfl, departure_live_iff (Heap.holds_ofState _) rfl⟩

/-- A client that announces an id again with another regexp, and leaves. -/
theorem departure_not_live : ∃ s : State Unit, Machine.run (step fun _ => .ok ()) initial
    [.connect 1, .line 1 (.addRegexp 1 (ascii "a")), .line 1 (.addRegexp 1 (ascii "b"))] = some s ∧
    ∃ h : Heap Unit, ∃ client_itr, h.Holds s ∧ h.findClient 1 = some (some client_itr) ∧
      ¬ WalksLive h client_itr ∧ h.delOneClient 1 = none := by
  refine ⟨_, rfl, ?_⟩
  exact exists_heap_not_live rfl (by decide)

/-- A client with distinct ids leaves: its record and its subscriptions go, with the entries that only
it was in, and nothing else changes. -/
theorem departure {h : Heap Code} {s : State Code} (hh : h.Holds s) {client : ℕ} {clnt : IvyClient}
    (hclnt : s.allClients.find client = some clnt) (hids : (clnt.srcRegList.map GlobReg.id).Nodup) :
    ∃ h' t, h.delOneClient client = some h' ∧ delOneClient s client = some t ∧ h'.Holds t ∧
      t.allClients.list = s.allClients.list.filter (·.client ≠ client) ∧
      t.messSndByRegexp.entries = s.messSndByRegexp.entries.filterMap (pruneEntry (notOf client)) ∧
      (∀ e ∈ t.messSndByRegexp.entries, ∀ n ∈ e.clientList, n.client ≠ client) ∧
      h'.messSndByRegexp.freed.Nodup := by
  have hwalk : SafeWalk (clnt.srcRegList.map GlobReg.id) := safeWalk_iff_apart.mpr (apart_of_nodup hids)
  obtain ⟨h', t, hdel, ht, hh'⟩ := (delOneClient_holds hh hclnt).1 hwalk
  obtain ⟨hclients, hentries⟩ := delOneClient_eq hclnt ht
  refine ⟨h', t, hdel, ht, hh', hclients, hentries, ?_, ?_⟩
  · intro e he n hn
    rw [hentries] at he
    obtain ⟨e₀, -, hprune⟩ := List.mem_filterMap.mp he
    simp only [pruneEntry, Option.ite_none_left_eq_some, Option.some.injEq] at hprune
    obtain ⟨-, rfl⟩ := hprune
    simpa [notOf] using List.of_mem_filter hn
  · obtain ⟨cs, es, -, hes, -⟩ := hh'
    exact hes.holds.once

theorem departure_example : ∃ s : State Unit, Machine.run (step fun _ => .ok ()) initial
    [.connect 1, .connect 2, .line 1 (.addRegexp 1 (ascii "a")), .line 2 (.addRegexp 1 (ascii "a")),
      .line 1 (.addRegexp 2 (ascii "b"))] = some s ∧
    ∃ h' t, (Heap.ofState s).delOneClient 1 = some h' ∧ delOneClient s 1 = some t ∧ h'.Holds t ∧
      t.allClients.list = s.allClients.list.filter (·.client ≠ 1) ∧
      t.messSndByRegexp.entries = s.messSndByRegexp.entries.filterMap (pruneEntry (notOf 1)) ∧
      (∀ e ∈ t.messSndByRegexp.entries, ∀ n ∈ e.clientList, n.client ≠ 1) ∧
      h'.messSndByRegexp.freed.Nodup :=
  ⟨_, rfl, departure (Heap.holds_ofState _) rfl (by decide)⟩

end Ivy.Registry
