import Ivy.Hash.Dictionary

/-! What holds of the hash table in every run of the functions that keep the dictionary. -/
namespace Ivy.Hash
open Registry

def hashCount (m : Memory) : ℕ :=
  match m.head with
  | none => 0
  | some _ => m.tbl.elim 0 (·.num_items)

section Count
variable {hashFcn : Text → UInt32}

theorem Holds.hashCount {m : Memory} {es : List (ℕ × Text)} (h : Holds hashFcn m es) : hashCount m = es.length := by
  unfold Hash.hashCount
  rcases eq_or_ne es [] with rfl | hes
  · rw [(h.null rfl).1]
    rfl
  · obtain ⟨tbl, htbl, htable⟩ := h.table hes
    obtain ⟨head, hhead⟩ : ∃ head, m.head = some head := by
      cases es with
      | nil => exact absurd rfl hes
      | cons n es => exact ⟨n.1, htable.app.seg.1⟩
    rw [hhead, htbl]
    exact htable.num_items

end Count

section Runs
variable {hashFcn : Text → UInt32} {Code : Type*}

/-- In every run the hash table is the list of the entries: looking up finds the entry of a regexp and
no other, and the count is right. -/
theorem dictionary_run {es : List (DictEvent Code)}
    (hfits : Machine.Guarded (DictEvent.step hashFcn) (fun m e => e.Fits m) .null es) :
    ∃ m, Machine.run (DictEvent.step hashFcn) .null es = some m ∧
      Refines hashFcn m (es.foldl DictEvent.onList .empty) ∧
      (∀ regexp, hashFind hashFcn m.hash regexp =
        some (((es.foldl DictEvent.onList .empty).hashFind regexp).map (·.ptr))) ∧
      hashCount m.hash = (es.foldl DictEvent.onList .empty).entries.length := by
  obtain ⟨m, hm, hrefines, -⟩ := run_refines hfits
  refine ⟨m, hm, hrefines, hrefines.hashFind, ?_⟩
  rw [hrefines.holds.hashCount, List.length_map]

/-- The second client subscribes to a regexp of the first too, and takes another one back. -/
private def twoClients : List (DictEvent Unit) :=
  [.addRegexpToDictionary (ascii "^hello (.*)") (some ()) ⟨1, 0⟩, .addRegexpToDictionary (ascii "^bye") (some ()) ⟨1, 1⟩,
    .addRegexpToDictionary (ascii "^hello (.*)") (some ()) ⟨2, 0⟩, .addRegexpToDictionary (ascii "^x") none ⟨2, 1⟩,
    .addRegexpToDictionary (ascii "(.*)") (some ()) ⟨2, 2⟩, .delRegexpForOneClientFromDictionary (ascii "^x") 2 1]

private theorem twoClients_fits :
    Machine.Guarded (DictEvent.step hashJen) (fun m e => e.Fits m) .null twoClients := by
  decide +kernel

private theorem twoClients_table : ∀ m ∈ Machine.run (DictEvent.step hashJen) .null twoClients,
    ∃ tbl ∈ m.hash.tbl, tbl.num_items = 3 ∧ tbl.noexpand = false := by
  decide +kernel

private theorem twoClients_count : ∀ m ∈ Machine.run (DictEvent.step hashJen) .null twoClients,
    hashCount m.hash = 3 := by
  decide +kernel

theorem dictionary_run_example : ∃ m, Machine.run (DictEvent.step hashJen) .null twoClients = some m ∧
    hashFind hashJen m.hash (ascii "^bye") = some (some 1) ∧ hashFind hashJen m.hash (ascii "(.*)") = some (some 3) ∧
      hashFind hashJen m.hash (ascii "^x") = some none ∧ hashCount m.hash = 3 := by
  obtain ⟨m, hm, -, hfind, hcount⟩ := dictionary_run twoClients_fits
  exact ⟨m, hm, hfind _, hfind _, hfind _, hcount⟩

/-- In every run the check of `HASH_DEBUG` passes. -/
theorem hashFsck_run {es : List (DictEvent Code)}
    (hfits : Machine.Guarded (DictEvent.step hashFcn) (fun m e => e.Fits m) .null es) :
    ∃ m, Machine.run (DictEvent.step hashFcn) .null es = some m ∧
      ∀ fuel, hashCount m.hash ≤ fuel → hashFsck fuel m.hash = some true := by
  obtain ⟨m, hm, hrefines, -⟩ := run_refines hfits
  refine ⟨m, hm, fun fuel hfuel => hrefines.holds.hashFsck ?_⟩
  rwa [← hrefines.holds.hashCount]

theorem hashFsck_run_example : ∃ m, Machine.run (DictEvent.step hashJen) .null twoClients = some m ∧
    hashCount m.hash = 3 ∧ hashFsck 3 m.hash = some true := by
  obtain ⟨m, hm, hfsck⟩ := hashFsck_run twoClients_fits
  have hcount := twoClients_count m hm
  exact ⟨m, hm, hcount, hfsck 3 (Nat.le_of_eq hcount)⟩

/-- In every run the chains of the buckets are as short as `HASH_BKT_CAPACITY_THRESH` says, unless the
expansion was given up. -/
theorem chains_run {es : List (DictEvent Code)}
    (hfits : Machine.Guarded (DictEvent.step hashFcn) (fun m e => e.Fits m) .null es) :
    ∃ m, Machine.run (DictEvent.step hashFcn) .null es = some m ∧
      ∀ tbl ∈ m.hash.tbl, tbl.ideal_chain_maxlen ≤ 10 ∧ (tbl.noexpand = false →
        tbl.num_items < tbl.num_buckets * 20 ∧
        (∀ i < tbl.num_buckets, (tbl.buckets i).count ≤ ((tbl.buckets i).expand_mult + 1) * 10) ∧
        ∑ i ∈ Finset.range tbl.num_buckets, (tbl.buckets i).expand_mult ≤ tbl.num_buckets) := by
  obtain ⟨m, hm, hrefines, hshort⟩ := run_refines hfits
  refine ⟨m, hm, fun tbl htbl => ⟨(hshort tbl htbl).ideal, fun hnoexpand => ?_⟩⟩
  have hbalanced := (hshort tbl htbl).balanced hnoexpand
  have hne : (es.foldl DictEvent.onList .empty).entries.map element ≠ [] := by
    intro hnil
    rw [((hrefines.holds.null hnil).2 : m.hash.tbl = none)] at htbl
    exact Option.not_mem_none _ htbl
  obtain ⟨tbl', htbl', htable⟩ := hrefines.holds.table hne
  obtain rfl : tbl = tbl' := Option.some.inj (htbl.symm.trans htbl')
  have hpos : 0 < tbl.num_buckets := by
    rw [htable.bkts.num_buckets]
    exact Nat.two_pow_pos _
  have hitems := hbalanced.items_lt hpos (htable.sum_count.trans htable.num_items.symm)
  exact ⟨hitems, hbalanced.chain, hbalanced.delays⟩

theorem chains_run_example : ∃ m, Machine.run (DictEvent.step hashJen) .null twoClients = some m ∧
    ∃ tbl ∈ m.hash.tbl, tbl.num_items = 3 ∧ tbl.noexpand = false ∧
      ∀ i < tbl.num_buckets, (tbl.buckets i).count ≤ ((tbl.buckets i).expand_mult + 1) * 10 := by
  obtain ⟨m, hm, hchains⟩ := chains_run twoClients_fits
  obtain ⟨tbl, htbl, hitems, hnoexpand⟩ := twoClients_table m hm
  exact ⟨m, hm, tbl, htbl, hitems, hnoexpand, ((hchains tbl htbl).2 hnoexpand).2.1⟩

/-- After every run `delAllRegexpsFromDictionary` comes to each entry and leaves no table. -/
theorem delAllRegexps_run {es : List (DictEvent Code)}
    (hfits : Machine.Guarded (DictEvent.step hashFcn) (fun m e => e.Fits m) .null es) :
    ∃ m m', Machine.run (DictEvent.step hashFcn) .null es = some m ∧ m.delAllRegexpsFromDictionary = some m' ∧
      m'.hash.head = none ∧ m'.hash.tbl = none ∧
      ∀ e ∈ (es.foldl DictEvent.onList .empty).entries, m'.dict e.ptr = some { e with clientList := [] } := by
  obtain ⟨m, hm, hrefines, -⟩ := run_refines hfits
  have hfuel : (es.foldl DictEvent.onList .empty).entries.length ≤ m.brk := hrefines.brk ▸ length_le_brk _
  obtain ⟨m', hm', hhead, htbl, hemptied, -⟩ := delAllRegexpsFrom_spec hfuel hrefines.holds
    (es.foldl DictEvent.onList .empty).ptrs fun e he => hrefines.dict_eq he
  refine ⟨m, m', hm, ?_, hhead, htbl, hemptied⟩
  rw [DictMemory.delAllRegexpsFromDictionary, hrefines.head_eq, hm']

theorem delAllRegexps_run_example : ∃ m m', Machine.run (DictEvent.step hashJen) .null twoClients = some m ∧
    m.delAllRegexpsFromDictionary = some m' ∧ m'.hash.tbl = none ∧
      ∀ ptr ∈ [0, 1, 3], (m'.dict ptr).map (·.clientList) = some [] := by
  obtain ⟨m, m', hm, hm', -, htbl, hemptied⟩ := delAllRegexps_run twoClients_fits
  have hentries : (twoClients.foldl DictEvent.onList .empty).entries =
      [⟨0, ascii "^hello (.*)", [⟨2, 0⟩, ⟨1, 0⟩], some ()⟩, ⟨1, ascii "^bye", [⟨1, 1⟩], some ()⟩,
        ⟨3, ascii "(.*)", [⟨2, 2⟩], some ()⟩] := rfl
  rw [hentries] at hemptied
  refine ⟨m, m', hm, hm', htbl, ?_⟩
  simp_all

end Runs

section Expansion
variable {hashFcn : Text → UInt32} {handle : Handles} {head : Option ℕ} {tbl : UTHashTable} {es : List (ℕ × Text)}

/-- The expansion of the buckets keeps the elements in their order, finds the ideal length of a chain,
and counts the elements beyond it. -/
theorem expansion (h : TableHolds hashFcn handle head tbl es) (hes : es ≠ []) (hroom : tbl.num_buckets * 2 < 2 ^ 32) :
    ∃ handle' tbl', hashExpandBuckets handle tbl = some (handle', tbl') ∧ TableHolds hashFcn handle' head tbl' es ∧
      tbl'.num_buckets = tbl.num_buckets * 2 ∧ tbl'.ideal_chain_maxlen = es.length ⌈/⌉ tbl'.num_buckets ∧
      tbl'.nonideal_items =
        ∑ i ∈ Finset.range tbl'.num_buckets, ((tbl'.buckets i).count - tbl'.ideal_chain_maxlen) ∧
      ∀ i, (tbl'.buckets i).expand_mult = if tbl'.ideal_chain_maxlen < (tbl'.buckets i).count
        then (tbl'.buckets i).count / tbl'.ideal_chain_maxlen else 0 := by
  obtain ⟨handle', tbl', hexpand, hcore, hbkts, hexpanded⟩ := hashExpandBuckets_spec h.app h.bkts h.num_items hes hroom
  have happ : AppHolds hashFcn handle' head tbl'.tail es := hexpanded.tail ▸ h.app.sameCore hcore
  have hitems : tbl'.num_items = es.length := hexpanded.num_items.trans h.num_items
  have hideal : tbl'.ideal_chain_maxlen = es.length ⌈/⌉ tbl'.num_buckets := h.num_items ▸ hexpanded.ideal
  exact ⟨handle', tbl', hexpand, ⟨happ, hbkts, hitems⟩, hexpanded.num_buckets, hideal, hexpanded.nonideal, hexpanded.mult⟩

theorem expansion_example : ∃ handle head tbl handle' tbl', hashExpandBuckets handle tbl = some (handle', tbl') ∧
    TableHolds hashJen handle' head tbl' [(0, ascii "^hello (.*)"), (1, ascii "^bye"), (3, ascii "(.*)")] ∧
      tbl'.num_buckets = tbl.num_buckets * 2 := by
  obtain ⟨m, hm, hrefines, -⟩ := run_refines twoClients_fits
  obtain ⟨tbl, htbl, htable⟩ := hrefines.holds.table (by decide)
  have hroom : ∀ m ∈ Machine.run (DictEvent.step hashJen) .null twoClients, Room m.hash := by
    decide +kernel
  obtain ⟨handle', tbl', hexpand, htable', hbuckets, -⟩ := expansion htable (by decide) (hroom m hm tbl htbl).2
  exact ⟨m.hash.handle, m.hash.head, tbl, handle', tbl', hexpand, htable', hbuckets⟩

end Expansion
end Ivy.Hash
