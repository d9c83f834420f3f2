import Ivy.Lib.Linked
import Ivy.Registry.Lines

/-! The registry as linked nodes, and the walks of `delOneClient` over them. -/
namespace Ivy.Registry
open Linked

/-- `struct _clnt_lst_dict` in `allClients`, with the list that it points to. -/
structure ClientNode where
  client : ℕ
  id : ℤ
  srcRegList : Store GlobReg
  endRegexpReceived : Bool

/-- `struct _msg_snd_dict`, with the list that it points to. -/
structure DictNode (Code : Type*) where
  regexp_src : Text
  clientList : Store Subscriber
  binding : Option Code

/-- The entries of the hash table are linked by `hh.next`. -/
structure Heap (Code : Type*) where
  allClients : Store ClientNode
  messSndByRegexp : Store (DictNode Code)

variable {Code : Type*}

namespace Heap
variable (h : Heap Code)

/-- The clients that `drop` picks are removed from an entry, and the entry with its last client. -/
def delFromEntry (drop : Subscriber → Bool) (msgSendDict : ℕ) : Option (Heap Code) :=
  (h.messSndByRegexp.val msgSendDict).bind fun e => (e.clientList.prune drop).bind fun clientList =>
    if clientList.head = none then
      (h.messSndByRegexp.remove msgSendDict).map fun messSndByRegexp =>
        { h with messSndByRegexp := messSndByRegexp }
    else
      some { h with messSndByRegexp := h.messSndByRegexp.set msgSendDict { e with clientList := clientList } }

def delOneIvyClientFromDictionaryEntry (msgSendDict client : ℕ) (id : ℤ) : Option (Heap Code) :=
  h.delFromEntry (fun n => n.client = client && n.id = id) msgSendDict

def delOneClientFromDictionaryEntry (msgSendDict client : ℕ) : Option (Heap Code) :=
  h.delFromEntry (fun n => n.client = client) msgSendDict

/-- `HASH_FIND_STR` -/
def hashFind (regexp : Text) : Option (Option ℕ) :=
  iter h.messSndByRegexp.node (fun n => n.val.regexp_src ≠ regexp) h.messSndByRegexp.brk h.messSndByRegexp.head

/-- `client` and `id` are those of the record that the caller has. -/
def delRegexpForOneClientFromDictionary (regexp : Text) (client : ℕ) (id : ℤ) : Option (Heap Code) :=
  (h.hashFind regexp).bind fun
    | none => some h
    | some msgSendDict => h.delOneIvyClientFromDictionaryEntry msgSendDict client id

/-- `IVY_LIST_ITER (allClients, client_itr, client_itr->client != client )` -/
def findClient (client : ℕ) : Option (Option ℕ) :=
  iter h.allClients.node (fun n => n.val.client ≠ client) h.allClients.brk h.allClients.head

def sources (client_itr : ℕ) : Option (Store GlobReg) := (h.allClients.val client_itr).map (·.srcRegList)

def nextSource (client_itr regxpSrc : ℕ) : Option (Option ℕ) :=
  (h.sources client_itr).bind fun srcRegList => srcRegList.next regxpSrc

def setSources (client_itr : ℕ) (srcRegList : Store GlobReg) : Option (Heap Code) :=
  (h.allClients.val client_itr).map fun clnt =>
    { h with allClients := h.allClients.set client_itr { clnt with srcRegList := srcRegList } }

def delSourceOf (client : ℕ) (lastId id : ℤ) (client_itr regxpSrc : ℕ) : Option (Heap Code) :=
  (h.sources client_itr).bind fun srcRegList => (srcRegList.val regxpSrc).bind fun n =>
    if n.id = id then
      (h.delRegexpForOneClientFromDictionary n.str_regexp client lastId).bind fun h =>
        (h.sources client_itr).bind fun srcRegList => (srcRegList.remove regxpSrc).bind fun srcRegList =>
          h.setSources client_itr srcRegList
    else some h

/-- `lastId` is the id in the record of the client. -/
def delRegexpForOneClient (client : ℕ) (lastId id : ℤ) : Option (Heap Code) :=
  (h.findClient client).bind fun
    | none => some h
    | some client_itr => (h.sources client_itr).bind fun srcRegList =>
      eachSafe (fun h regxpSrc => h.nextSource client_itr regxpSrc)
        (fun h regxpSrc => h.delSourceOf client lastId id client_itr regxpSrc) srcRegList.brk srcRegList.head h

def delSource (client_itr regxpSrc : ℕ) : Option (Heap Code) :=
  (h.allClients.val client_itr).bind fun clnt => (clnt.srcRegList.val regxpSrc).bind fun n =>
    h.delRegexpForOneClient clnt.client clnt.id n.id

def Sourced (client_itr regxpSrc : ℕ) : Prop :=
  ∃ srcRegList, h.sources client_itr = some srcRegList ∧ regxpSrc ∈ srcRegList.addresses

def delSources (client_itr : ℕ) : Option (Heap Code) :=
  (h.sources client_itr).bind fun srcRegList =>
    eachSafe (fun h regxpSrc => h.nextSource client_itr regxpSrc) (fun h regxpSrc => h.delSource client_itr regxpSrc)
      srcRegList.brk srcRegList.head h

def dropClient (client_itr : ℕ) : Option (Heap Code) :=
  (h.sources client_itr).bind fun srcRegList => (srcRegList.clear srcRegList.brk).bind fun srcRegList =>
    (h.setSources client_itr srcRegList).bind fun h => (h.allClients.remove client_itr).map fun allClients =>
      { h with allClients := allClients }

def delClientNode (client client_itr : ℕ) : Option (Heap Code) :=
  (h.allClients.val client_itr).bind fun clnt =>
    if clnt.client = client then (h.delSources client_itr).bind fun h => h.dropClient client_itr else some h

def delFromClients (client : ℕ) : Option (Heap Code) :=
  eachSafe (fun h client_itr => h.allClients.next client_itr) (fun h client_itr => h.delClientNode client client_itr)
    h.allClients.brk h.allClients.head h

def delFromDictionary (client : ℕ) : Option (Heap Code) :=
  eachSafe (fun h msgSendDict => h.messSndByRegexp.next msgSendDict)
    (fun h msgSendDict => h.delOneClientFromDictionaryEntry msgSendDict client)
    h.messSndByRegexp.brk h.messSndByRegexp.head h

def delOneClient (client : ℕ) : Option (Heap Code) :=
  (h.delFromClients client).bind fun h => h.delFromDictionary client

end Heap

def ClientNode.view (n : ClientNode) : IvyClient := ⟨n.client, n.id, n.srcRegList.values, n.endRegexpReceived⟩

def DictNode.view (n : ℕ × DictNode Code) : MsgSndDict Code :=
  ⟨n.1, n.2.regexp_src, n.2.clientList.values, n.2.binding⟩

structure HoldsEntries (d : Store (DictNode Code)) (es : List (ℕ × DictNode Code)) : Prop where
  holds : d.Holds es
  lists : ∀ n ∈ es, ∃ ns, n.2.clientList.Holds ns

structure HoldsClients (d : Store ClientNode) (cs : List (ℕ × ClientNode)) : Prop where
  holds : d.Holds cs
  lists : ∀ n ∈ cs, ∃ ns, n.2.srcRegList.Holds ns

def Heap.Holds (h : Heap Code) (s : State Code) : Prop :=
  ∃ cs es, HoldsClients h.allClients cs ∧ HoldsEntries h.messSndByRegexp es ∧
    cs.map (·.2.view) = s.allClients.list ∧ es.map DictNode.view = s.messSndByRegexp.entries

section Entries
variable {h : Heap Code} {es : List (ℕ × DictNode Code)}

theorem delFromEntry_holds {pre rest : List (ℕ × DictNode Code)} {n : ℕ × DictNode Code}
    (hes : HoldsEntries h.messSndByRegexp (pre ++ n :: rest)) (drop : Subscriber → Bool) :
    ∃ d ms, h.delFromEntry drop n.1 = some { h with messSndByRegexp := d } ∧ HoldsEntries d (pre ++ ms ++ rest) ∧
      ms.map DictNode.view = (pruneEntry (fun c => !drop c) (DictNode.view n)).toList := by
  have hn : n ∈ pre ++ n :: rest := by simp
  obtain ⟨ns, hns⟩ := hes.lists n hn
  obtain ⟨l, hl, hpruned⟩ := hns.prune drop
  have hvalues : l.values = n.2.clientList.values.filter fun c => !drop c := by
    rw [hpruned.holds.values_eq, hns.values_eq, List.filter_map]
    rfl
  have hempty : l.head = none ↔ l.values = [] := by
    rw [hpruned.holds.values_eq, hpruned.holds.path.first_eq, first, Option.map_eq_none_iff,
      List.head?_eq_none_iff, List.map_eq_nil_iff]
  unfold Heap.delFromEntry
  rw [Store.val, hes.holds.val_eq hn, Option.bind_some, hl, Option.bind_some]
  split_ifs with hhead
  · obtain ⟨d, hd, hholds, -⟩ := hes.holds.remove_at
    refine ⟨d, [], by rw [hd, Option.map_some], ⟨by simpa using hholds, ?_⟩, ?_⟩
    · intro m hm
      apply hes.lists m
      simp only [List.append_nil, List.mem_append, List.mem_cons] at hm ⊢
      exact hm.imp_right .inr
    · have hnil := hempty.mp hhead
      rw [hvalues] at hnil
      simp [pruneEntry, DictNode.view, hnil]
  · refine ⟨_, [(n.1, { n.2 with clientList := l })], rfl, ⟨?_, ?_⟩, ?_⟩
    · rw [List.append_assoc]
      exact hes.holds.set_at _
    · intro m hm
      simp only [List.mem_append, List.mem_singleton] at hm
      rcases hm with (hm | rfl) | hm
      · exact hes.lists m (by simp [hm])
      · exact ⟨_, hpruned.holds⟩
      · exact hes.lists m (by simp [hm])
    · have hne : l.values ≠ [] := fun hnil => hhead (hempty.mpr hnil)
      rw [hvalues] at hne
      simp [pruneEntry, DictNode.view, hne, hvalues]

theorem delFromEntry_update (hes : HoldsEntries h.messSndByRegexp es) (drop : Subscriber → Bool)
    {n : ℕ × DictNode Code} (hn : n ∈ es) :
    ∃ d es', h.delFromEntry drop n.1 = some { h with messSndByRegexp := d } ∧ HoldsEntries d es' ∧
      es'.map DictNode.view = (es.map DictNode.view).filterMap (onEntry n.1 (pruneEntry fun c => !drop c)) := by
  obtain ⟨pre, rest, rfl⟩ := List.append_of_mem hn
  obtain ⟨d, ms, hd, hholds, hms⟩ := delFromEntry_holds hes drop
  refine ⟨d, _, hd, hholds, ?_⟩
  have hother : ∀ m ∈ pre ++ rest, onEntry n.1 (pruneEntry fun c => !drop c) (DictNode.view m) = some (DictNode.view m) := by
    rw [← filter_address hes.holds.path.nodup]
    intro m hm
    have hne : m.1 ≠ n.1 := of_decide_eq_true (List.mem_filter.mp hm).2
    exact if_neg hne
  have hsame (l : List (ℕ × DictNode Code)) (hl : l ⊆ pre ++ rest) :
      (l.map DictNode.view).filterMap (onEntry n.1 (pruneEntry fun c => !drop c)) = l.map DictNode.view := by
    rw [List.filterMap_map]
    exact (List.filterMap_congr fun m hm => hother m (hl hm)).trans (by rw [List.filterMap_eq_map'])
  have hself : onEntry n.1 (pruneEntry fun c => !drop c) (DictNode.view n) =
      pruneEntry (fun c => !drop c) (DictNode.view n) := if_pos rfl
  rw [List.map_append, List.map_append, hms, List.map_append, List.map_cons, List.filterMap_append,
    hsame pre (List.subset_append_left pre rest), List.filterMap_cons, hself,
    hsame rest (List.subset_append_right pre rest)]
  cases pruneEntry (fun c => !drop c) (DictNode.view n) <;> simp

theorem hashFind_eq (hes : HoldsEntries h.messSndByRegexp es) (regexp : Text) :
    h.hashFind regexp = some ((Keyed.find (·.regexp_src) (es.map DictNode.view) regexp).map (·.ptr)) := by
  have hiter := iter_eq hes.holds.path (fun n => n.regexp_src ≠ regexp) hes.holds.length_le
  have hfind : first (es.dropWhile fun n => decide (n.2.regexp_src ≠ regexp)) =
      (es.find? fun n => n.2.regexp_src = regexp).map Prod.fst := by
    rw [List.find?_eq_head?_dropWhile_not, first]
    simp
  unfold Heap.hashFind
  rw [hiter, hfind, Keyed.find, List.find?_map, Option.map_map]
  rfl

theorem delRegexpForOneClientFromDictionary_holds (hes : HoldsEntries h.messSndByRegexp es) {s : State Code}
    (hs : es.map DictNode.view = s.messSndByRegexp.entries) (regexp : Text) (clnt : IvyClient) :
    ∃ d es', h.delRegexpForOneClientFromDictionary regexp clnt.client clnt.id =
        some { h with messSndByRegexp := d } ∧
      HoldsEntries d es' ∧ es'.map DictNode.view =
        (delRegexpForOneClientFromDictionary s regexp clnt).messSndByRegexp.entries := by
  unfold Heap.delRegexpForOneClientFromDictionary delRegexpForOneClientFromDictionary
  rw [hashFind_eq hes, hs, Option.bind_some]
  have hfind : s.messSndByRegexp.hashFind regexp = Keyed.find (·.regexp_src) s.messSndByRegexp.entries regexp := rfl
  rw [regenerate_messSndByRegexp, ← hfind]
  cases he : s.messSndByRegexp.hashFind regexp with
  | none => exact ⟨_, es, rfl, hes, hs⟩
  | some e =>
    obtain ⟨n, hn, rfl⟩ := List.mem_map.mp (hs ▸ (s.messSndByRegexp.hashFind_some.mp he).1)
    obtain ⟨d, es', hd, hholds, hview⟩ :=
      delFromEntry_update hes (fun c => c.client = clnt.client && c.id = clnt.id) hn
    rw [hs] at hview
    exact ⟨d, es', hd, hholds, hview⟩

end Entries

/-- The entries of the heap are those of the dictionary. -/
def EntriesOf (h : Heap Code) (s : State Code) : Prop :=
  ∃ es, HoldsEntries h.messSndByRegexp es ∧ es.map DictNode.view = s.messSndByRegexp.entries

structure Stands (h : Heap Code) (pre post : List (ℕ × ClientNode)) (c : ℕ × ClientNode) (ns : List (ℕ × GlobReg)) :
    Prop where
  clients : HoldsClients h.allClients (pre ++ c :: post)
  sources : c.2.srcRegList.Holds ns

def withSources (c : ℕ × ClientNode) (srcRegList : Store GlobReg) : ℕ × ClientNode :=
  (c.1, { c.2 with srcRegList := srcRegList })

@[simp] theorem withSources_withSources (c : ℕ × ClientNode) (l l' : Store GlobReg) :
    withSources (withSources c l) l' = withSources c l' := rfl

section Sources
variable {h : Heap Code} {s : State Code} {pre post : List (ℕ × ClientNode)} {c : ℕ × ClientNode}
  {ns : List (ℕ × GlobReg)}

theorem Stands.val_eq (hst : Stands h pre post c ns) : h.allClients.val c.1 = some c.2 :=
  hst.clients.holds.val_eq (by simp)

theorem Stands.sources_eq (hst : Stands h pre post c ns) : h.sources c.1 = some c.2.srcRegList := by
  rw [Heap.sources, hst.val_eq, Option.map_some]

theorem Stands.setSources (hst : Stands h pre post c ns) {l : Store GlobReg} {ms : List (ℕ × GlobReg)}
    (hl : l.Holds ms) : ∃ h', h.setSources c.1 l = some h' ∧ h'.messSndByRegexp = h.messSndByRegexp ∧
      Stands h' pre post (withSources c l) ms := by
  refine ⟨{ h with allClients := h.allClients.set c.1 (withSources c l).2 }, ?_, rfl,
    ⟨hst.clients.holds.set_at (withSources c l).2, ?_⟩, hl⟩
  · rw [Heap.setSources, hst.val_eq, Option.map_some]
    rfl
  intro m hm
  simp only [List.mem_append, List.mem_cons] at hm
  rcases hm with hm | rfl | hm
  · exact hst.clients.lists m (by simp [hm])
  · exact ⟨ms, hl⟩
  · exact hst.clients.lists m (by simp [hm])

theorem Stands.delSourceOf {done rest : List (ℕ × GlobReg)} {n : ℕ × GlobReg}
    (hst : Stands h pre post c (done ++ n :: rest)) (hes : EntriesOf h s) (clnt : IvyClient) :
    ∃ h' l, h.delSourceOf clnt.client clnt.id n.2.id c.1 n.1 = some h' ∧
      Stands h' pre post (withSources c l) (done ++ rest) ∧
      l.freed = c.2.srcRegList.freed ++ [n.1] ∧
      EntriesOf h' (delRegexpForOneClientFromDictionary s n.2.str_regexp clnt) := by
  obtain ⟨es, hholds, hview⟩ := hes
  obtain ⟨d, es', hd, hholds', hview'⟩ := delRegexpForOneClientFromDictionary_holds hholds hview n.2.str_regexp clnt
  obtain ⟨l, hl, hrest, hfreed, -⟩ := hst.sources.remove_at
  let h₁ : Heap Code := { h with messSndByRegexp := d }
  have hst₁ : Stands h₁ pre post c (done ++ n :: rest) := ⟨hst.clients, hst.sources⟩
  obtain ⟨h', hset, hsame, hst'⟩ := hst₁.setSources hrest
  refine ⟨h', l, ?_, hst', hfreed, es', hsame ▸ hholds', hview'⟩
  have hval : c.2.srcRegList.val n.1 = some n.2 := hst.sources.val_eq (by simp)
  unfold Heap.delSourceOf
  rw [hst.sources_eq, Option.bind_some, hval, Option.bind_some, if_pos rfl, hd, Option.bind_some,
    hst₁.sources_eq, Option.bind_some, hl, Option.bind_some, hset]

theorem Stands.others (hcs : (pre ++ c :: post).map (·.2.view) = s.allClients.list) :
    ∀ m ∈ pre ++ post, m.2.client ≠ c.2.client := by
  have hnodup := s.allClients.nodup
  rw [← hcs, List.map_map, List.map_append, List.map_cons, List.nodup_append, List.nodup_cons] at hnodup
  obtain ⟨-, ⟨hpost, -⟩, hpre⟩ := hnodup
  intro m hm heq
  rcases List.mem_append.mp hm with hm | hm
  · exact hpre _ (List.mem_map_of_mem hm) _ List.mem_cons_self heq
  · exact hpost (List.mem_map.mpr ⟨m, hm, heq⟩)

theorem Stands.findClient (hst : Stands h pre post c ns)
    (hcs : (pre ++ c :: post).map (·.2.view) = s.allClients.list) : h.findClient c.2.client = some (some c.1) := by
  have hiter := iter_eq hst.clients.holds.path (fun n => n.client ≠ c.2.client) hst.clients.holds.length_le
  have hpre : ∀ m ∈ pre, decide (m.2.client ≠ c.2.client) = true :=
    fun m hm => decide_eq_true (Stands.others hcs m (List.mem_append_left post hm))
  unfold Heap.findClient
  rw [hiter, first_dropWhile hpre (by simp)]

theorem find_of_stands (hcs : (pre ++ c :: post).map (·.2.view) = s.allClients.list) :
    s.allClients.find c.2.client = some c.2.view := by
  apply (Keyed.find_eq_some s.allClients.nodup).mpr
  rw [← hcs]
  exact ⟨List.mem_map_of_mem (by simp), rfl⟩

theorem list_modify (hcs : (pre ++ c :: post).map (·.2.view) = s.allClients.list) (f : IvyClient → IvyClient) :
    (s.allClients.modify c.2.client f).list =
      pre.map (·.2.view) ++ { f c.2.view with client := c.2.client } :: post.map (·.2.view) := by
  have hother (l : List (ℕ × ClientNode)) (hl : l ⊆ pre ++ post) :
      (l.map (·.2.view)).map (Clients.onClient c.2.client f) = l.map (·.2.view) := by
    rw [List.map_map]
    exact List.map_congr_left fun m hm => if_neg (Stands.others hcs m (hl hm))
  have hself : Clients.onClient c.2.client f c.2.view = { f c.2.view with client := c.2.client } := if_pos rfl
  change s.allClients.list.map (Clients.onClient c.2.client f) = _
  rw [← hcs, List.map_append, List.map_append, List.map_cons, List.map_cons, hself,
    hother pre (List.subset_append_left pre post), hother post (List.subset_append_right pre post)]

/-- The subscriptions of some nodes are deleted from the dictionary. -/
def unsubscribe (clnt : IvyClient) (s : State Code) (ms : List (ℕ × GlobReg)) : State Code :=
  ms.foldl (fun s n => delRegexpForOneClientFromDictionary s n.2.str_regexp clnt) s

/-- The walk of `delRegexpForOneClient` has passed some nodes, and removed those with the id. -/
structure Passed (h : Heap Code) (s : State Code) (pre post : List (ℕ × ClientNode)) (c : ℕ × ClientNode)
    (clnt : IvyClient) (id : ℤ) (l : Store GlobReg) (done rest : List (ℕ × GlobReg)) : Prop where
  stands : Stands h pre post (withSources c l) (done.filter (·.2.id ≠ id) ++ rest)
  freed : l.freed = c.2.srcRegList.freed ++ (done.filter (·.2.id = id)).map Prod.fst
  entries : EntriesOf h (unsubscribe clnt s (done.filter (·.2.id = id)))

theorem Passed.delSourceOf {clnt : IvyClient} {id : ℤ} {l : Store GlobReg} {done rest : List (ℕ × GlobReg)}
    {n : ℕ × GlobReg} (hpassed : Passed h s pre post c clnt id l done (n :: rest)) :
    ∃ h' l', h.delSourceOf clnt.client clnt.id id c.1 n.1 = some h' ∧
      Passed h' s pre post c clnt id l' (done ++ [n]) rest := by
  obtain ⟨hst, hfreed, hes⟩ := hpassed
  by_cases hid : n.2.id = id
  · obtain ⟨h', l', hdel, hst', hfreed', hes'⟩ := hst.delSourceOf hes clnt
    refine ⟨h', l', hid ▸ hdel, ?_, ?_, ?_⟩
    · simpa [List.filter_append, hid] using hst'
    · have hmore : l'.freed = l.freed ++ [n.1] := hfreed'
      rw [hmore, hfreed]
      simp [List.filter_append, hid]
    · simpa [unsubscribe, List.filter_append, hid] using hes'
  · have hsources : h.sources c.1 = some l := hst.sources_eq
    have hval : l.val n.1 = some n.2 := hst.sources.val_eq (by simp)
    refine ⟨h, l, ?_, ?_, ?_, ?_⟩
    · unfold Heap.delSourceOf
      rw [hsources, Option.bind_some, hval, Option.bind_some, if_neg hid]
    · simpa [List.filter_append, hid] using hst
    · simpa [List.filter_append, hid] using hfreed
    · simpa [List.filter_append, hid] using hes

/-- What `delRegexpForOneClient` does to the registry, with the nodes of the heap. -/
theorem delRegexpForOneClient_eq {clnt clnt' : IvyClient} (hfind : s.allClients.find clnt.client = some clnt')
    (hsrcs : clnt'.srcRegList = ns.map Prod.snd) (id : ℤ) :
    (Registry.delRegexpForOneClient s clnt id).1 =
      { unsubscribe clnt s (ns.filter (·.2.id = id)) with
        allClients := s.allClients.modify clnt.client fun clnt =>
          { clnt with srcRegList := clnt.srcRegList.filter fun regxpSrc => regxpSrc.id ≠ id } } := by
  have hclients : (unsubscribe clnt s (ns.filter (·.2.id = id))).allClients = s.allClients := by
    have hspec := (delSourcesFromDictionary_spec s clnt ((ns.filter (·.2.id = id)).map Prod.snd)).2.1
    rwa [List.foldl_map] at hspec
  rw [← hclients]
  unfold Registry.delRegexpForOneClient
  rw [hfind]
  dsimp only
  rw [hsrcs, List.filter_map, List.foldl_map]
  rfl

/-- `delRegexpForOneClient` removes the nodes with the id, and does the same to the heap as to the
registry. -/
theorem Stands.delRegexpForOneClient (hst : Stands h pre post c ns) (hes : EntriesOf h s)
    (hcs : (pre ++ c :: post).map (·.2.view) = s.allClients.list) {clnt : IvyClient}
    (hclnt : clnt.client = c.2.client) (id : ℤ) :
    ∃ h' l, h.delRegexpForOneClient clnt.client clnt.id id = some h' ∧
      Stands h' pre post (withSources c l) (ns.filter (·.2.id ≠ id)) ∧
      l.freed = c.2.srcRegList.freed ++ (ns.filter (·.2.id = id)).map Prod.fst ∧
      EntriesOf h' (delRegexpForOneClient s clnt id).1 ∧
      (pre ++ withSources c l :: post).map (·.2.view) =
        (Registry.delRegexpForOneClient s clnt id).1.allClients.list := by
  let I (rest : List (ℕ × GlobReg)) (h' : Heap Code) : Prop :=
    ∃ done l, ns = done ++ rest ∧ Passed h' s pre post c clnt id l done rest
  have hstep : ∀ n rest h', I (n :: rest) h' → h'.nextSource c.1 n.1 = some (first rest) ∧
      ∃ h'', h'.delSourceOf clnt.client clnt.id id c.1 n.1 = some h'' ∧ I rest h'' := by
    intro n rest h' hI
    obtain ⟨done, l, hns, hpassed⟩ := hI
    have hsources : h'.sources c.1 = some l := hpassed.stands.sources_eq
    constructor
    · rw [Heap.nextSource, hsources, Option.bind_some]
      exact hpassed.stands.sources.next_eq
    · obtain ⟨h'', l', hdel, hpassed'⟩ := hpassed.delSourceOf
      exact ⟨h'', hdel, done ++ [n], l', by simp [hns], hpassed'⟩
  obtain ⟨h', hwalk, done, l, hns, hst', hfreed, hes'⟩ := eachSafe_rule
    (fun h regxpSrc => h.nextSource c.1 regxpSrc)
    (fun h regxpSrc => h.delSourceOf clnt.client clnt.id id c.1 regxpSrc) I hstep (s := h)
    ⟨[], c.2.srcRegList, rfl, hst, by simp, hes⟩ hst.sources.length_le
  rw [List.append_nil] at hns hst'
  subst hns
  have hsrcs : c.2.view.srcRegList = ns.map Prod.snd := hst.sources.values_eq
  have hremoved := delRegexpForOneClient_eq (hclnt ▸ find_of_stands hcs) hsrcs id
  refine ⟨h', l, ?_, hst', hfreed, hremoved ▸ hes', ?_⟩
  · unfold Heap.delRegexpForOneClient
    rw [hclnt, hst.findClient hcs, Option.bind_some]
    dsimp only
    rw [hst.sources_eq, Option.bind_some, hst.sources.path.first_eq, ← hclnt, hwalk]
  · have hkept : l.values = (ns.map Prod.snd).filter fun regxpSrc => regxpSrc.id ≠ id := by
      rw [List.filter_map]
      exact hst'.sources.values_eq
    rw [hremoved]
    dsimp only
    rw [hclnt, list_modify hcs, List.map_append, List.map_cons]
    simp only [hsrcs, ← hkept]
    rfl

theorem Stands.nextSource (hst : Stands h pre post c ns) (a : ℕ) :
    h.nextSource c.1 a = c.2.srcRegList.next a := by
  rw [Heap.nextSource, hst.sources_eq, Option.bind_some]

theorem Stands.next_eq {n : ℕ × GlobReg} {rest : List (ℕ × GlobReg)} (hst : Stands h pre post c (n :: rest)) :
    h.nextSource c.1 n.1 = some (first rest) := by
  have hsources : Store.Holds c.2.srcRegList ([] ++ n :: rest) := hst.sources
  exact (hst.nextSource n.1).trans hsources.next_eq

theorem map_id_filter (ns : List (ℕ × GlobReg)) (id : ℤ) :
    (ns.filter (·.2.id ≠ id)).map (·.2.id) = (ns.map (·.2.id)).filter (· ≠ id) := by
  rw [List.filter_map]
  rfl

theorem first_filter {id : ℤ} (hhead : (ns.map (·.2.id)).head? ≠ some id) :
    first (ns.filter (·.2.id ≠ id)) = first ns := by
  cases ns with
  | nil => rfl
  | cons n rest =>
    have hn : n.2.id ≠ id := by simpa using hhead
    rw [List.filter_cons_of_pos (by simpa using hn)]
    rfl

theorem Stands.delSource {n : ℕ × GlobReg} {rest : List (ℕ × GlobReg)} (hst : Stands h pre post c (n :: rest))
    (hes : EntriesOf h s) (hcs : (pre ++ c :: post).map (·.2.view) = s.allClients.list) {clnt : IvyClient}
    (hclient : clnt.client = c.2.client) (hid : clnt.id = c.2.id) :
    ∃ h' l, h.delSource c.1 n.1 = some h' ∧ Stands h' pre post (withSources c l) (rest.filter (·.2.id ≠ n.2.id)) ∧
      l.freed = c.2.srcRegList.freed ++ n.1 :: (rest.filter (·.2.id = n.2.id)).map Prod.fst ∧
      EntriesOf h' (Registry.delRegexpForOneClient s clnt n.2.id).1 ∧
      (pre ++ withSources c l :: post).map (·.2.view) =
        (Registry.delRegexpForOneClient s clnt n.2.id).1.allClients.list := by
  obtain ⟨h', l, hdel, hst', hfreed, hes', hcs'⟩ := hst.delRegexpForOneClient hes hcs hclient n.2.id
  have hval : c.2.srcRegList.val n.1 = some n.2 := hst.sources.val_eq List.mem_cons_self
  refine ⟨h', l, ?_, by simpa using hst', by simpa using hfreed, hes', hcs'⟩
  unfold Heap.delSource
  rw [hst.val_eq, Option.bind_some, hval, Option.bind_some, ← hclient, ← hid, hdel]

/-- The walk is defined as long as no two nodes of one id follow each other. -/
theorem Stands.delSources_none (hst : Stands h pre post c ns) (hes : EntriesOf h s)
    (hcs : (pre ++ c :: post).map (·.2.view) = s.allClients.list) {clnt : IvyClient}
    (hclient : clnt.client = c.2.client) (hid : clnt.id = c.2.id) (hwalk : ¬ SafeWalk (ns.map (·.2.id)))
    (fuel : ℕ) :
    eachSafe (fun h regxpSrc => h.nextSource c.1 regxpSrc) (fun h regxpSrc => h.delSource c.1 regxpSrc)
      fuel (first ns) h = none := by
  induction fuel generalizing h s c ns with
  | zero =>
    cases ns with
    | nil => exact absurd .nil hwalk
    | cons n rest => rfl
  | succ fuel ih =>
    cases ns with
    | nil => exact absurd .nil hwalk
    | cons n rest =>
      obtain ⟨h', l, hdel, hst', -, hes', hcs'⟩ := hst.delSource hes hcs hclient hid
      rw [first_cons, eachSafe, hst.next_eq, Option.bind_some, hdel, Option.bind_some]
      cases rest with
      | nil => exact absurd (.cons (by simp) .nil) hwalk
      | cons m rest =>
        by_cases hm : m.2.id = n.2.id
        · -- the saved node was freed, and its next is read
          have hgone : m.1 ∉ ((m :: rest).filter (·.2.id ≠ n.2.id)).map Prod.fst := by
            have hnodup := hst.sources.path.nodup
            rw [List.map_cons, List.nodup_cons, List.map_cons, List.nodup_cons] at hnodup
            intro hmem
            obtain ⟨k, hk, heq⟩ := List.mem_map.mp hmem
            obtain ⟨hk, hne⟩ := List.mem_filter.mp hk
            rcases List.mem_cons.mp hk with rfl | hk
            · exact of_decide_eq_true hne hm
            · exact hnodup.2.1 (heq ▸ List.mem_map_of_mem hk)
          have hfreed : h'.nextSource c.1 m.1 = none := (hst'.nextSource m.1).trans (hst'.sources.next_none hgone)
          cases fuel with
          | zero => rfl
          | succ fuel => rw [first_cons, eachSafe, hfreed, Option.bind_none]
        · have hhead : ((m :: rest).map (·.2.id)).head? ≠ some n.2.id := by simpa using hm
          rw [← first_filter hhead]
          apply ih hst' hes' hcs' hclient hid
          exact fun hsafe => hwalk (.cons hhead (map_id_filter (m :: rest) n.2.id ▸ hsafe))

theorem Stands.sourced (hst : Stands h pre post c ns) {n : ℕ × GlobReg} (hn : n ∈ ns) : h.Sourced c.1 n.1 := by
  refine ⟨_, hst.sources_eq, ?_⟩
  rw [hst.sources.addresses_eq]
  exact List.mem_map_of_mem hn

/-- On a safe walk every node that is saved stays in the list, and each node is removed once. -/
theorem Stands.delSources (hst : Stands h pre post c ns) (hes : EntriesOf h s)
    (hcs : (pre ++ c :: post).map (·.2.view) = s.allClients.list) {clnt : IvyClient}
    (hclient : clnt.client = c.2.client) (hid : clnt.id = c.2.id) {ids : List ℤ} (hwalk : SafeWalk ids)
    (hids : ids = ns.map (·.2.id)) {fuel fuel' : ℕ} (hfuel : ns.length ≤ fuel) (hfuel' : ns.length ≤ fuel') :
    Saves (fun h regxpSrc => h.nextSource c.1 regxpSrc) (fun h regxpSrc => h.delSource c.1 regxpSrc)
        (fun h regxpSrc => h.Sourced c.1 regxpSrc) fuel (first ns) h ∧
      ∃ h' l t, eachSafe (fun h regxpSrc => h.nextSource c.1 regxpSrc)
          (fun h regxpSrc => h.delSource c.1 regxpSrc) fuel (first ns) h = some h' ∧
        Registry.delSources clnt fuel' s ids = some t ∧ Stands h' pre post (withSources c l) [] ∧
        l.freed.Perm (c.2.srcRegList.freed ++ ns.map Prod.fst) ∧ EntriesOf h' t ∧
        (pre ++ withSources c l :: post).map (·.2.view) = t.allClients.list := by
  induction hwalk generalizing h s c ns fuel fuel' with
  | nil =>
    obtain rfl : ns = [] := List.map_eq_nil_iff.mp hids.symm
    have hend : ∀ fuel, Registry.delSources clnt fuel s [] = some s := fun fuel => by cases fuel <;> rfl
    refine ⟨by cases fuel <;> trivial, h, c.2.srcRegList, s, by cases fuel <;> rfl, hend fuel', hst, ?_, hes, hcs⟩
    simp
  | @cons id ids hhead _ ih =>
    obtain ⟨n, rest, rfl, rfl, rfl⟩ := List.map_eq_cons_iff.mp hids.symm
    obtain ⟨fuel, rfl⟩ : ∃ k, fuel = k + 1 := ⟨fuel - 1, by simp at hfuel; omega⟩
    obtain ⟨fuel', rfl⟩ : ∃ k, fuel' = k + 1 := ⟨fuel' - 1, by simp at hfuel'; omega⟩
    obtain ⟨h', l, hdel, hst', hfreed, hes', hcs'⟩ := hst.delSource hes hcs hclient hid
    have hrest := first_filter hhead
    have hlen : (rest.filter (·.2.id ≠ n.2.id)).length ≤ rest.length := List.length_filter_le _ _
    obtain ⟨hsaves, h'', l', t, hwalk, ht, hst'', hperm, hes'', hcs''⟩ :=
      ih hst' hes' hcs' hclient hid (map_id_filter rest n.2.id).symm (hlen.trans (Nat.le_of_succ_le_succ hfuel))
        (hlen.trans (Nat.le_of_succ_le_succ hfuel'))
    rw [hrest] at hsaves hwalk
    refine ⟨⟨first rest, h', hst.next_eq, hdel, ?_, hsaves⟩, h'', l', t, ?_, ?_, hst'', ?_, hes'', hcs''⟩
    · intro b hb
      rw [← hrest] at hb
      obtain ⟨m, hm, rfl⟩ := exists_of_mem_first hb
      exact hst'.sourced hm
    · rw [first_cons, eachSafe, hst.next_eq, Option.bind_some, hdel, Option.bind_some]
      exact hwalk
    · rw [Registry.delSources, if_neg hhead]
      exact ht
    · have hsplit := (List.filter_append_perm (fun k : ℕ × GlobReg => decide (k.2.id = n.2.id)) rest).map Prod.fst
      have hfreed' : (withSources c l).2.srcRegList.freed = l.freed := rfl
      rw [hfreed', hfreed] at hperm
      apply hperm.trans
      rw [List.append_assoc, List.map_cons, List.cons_append]
      apply List.Perm.append_left
      apply List.Perm.cons
      rw [List.map_append] at hsplit
      simpa using hsplit

end Sources

end Ivy.Registry
