import Ivy.Hash.Buckets
import Mathlib.Data.List.Pairwise

/-! The elements that a hash table holds, in the order of their insertion. `HASH_FIND`,
`HASH_ADD_KEYPTR`, `HASH_DELETE` and the expansion of the buckets are those of a list. -/
namespace Ivy.Hash
open Doubly

def filing (hh : UTHashHandle) : Text × ℕ × UInt32 := (hh.key, hh.keylen, hh.hashv)

def Filed (hashFcn : Text → UInt32) (handle : Handles) (n : ℕ × Text) : Prop :=
  (handle n.1).map filing = some (n.2, n.2.length, hashFcn n.2)

/-- The elements in the order of the `next` links. -/
structure AppHolds (hashFcn : Text → UInt32) (handle : Handles) (head : Option ℕ) (tail : ℕ)
    (es : List (ℕ × Text)) : Prop where
  seg : Seg (appLinks handle) none head (es.map Prod.fst) (some tail) none
  nodup : (es.map Prod.fst).Nodup
  filed : ∀ n ∈ es, Filed hashFcn handle n

def inBkt (hashFcn : Text → UInt32) (num_bkts : ℕ) (es : List (ℕ × Text)) (i : ℕ) : List ℕ :=
  (es.filter fun n => hashToBkt (hashFcn n.2) num_bkts = i).map Prod.fst

structure BktsHold (hashFcn : Text → UInt32) (handle : Handles) (tbl : UTHashTable) (es : List (ℕ × Text)) :
    Prop where
  num_buckets : tbl.num_buckets = 2 ^ tbl.log2_num_buckets
  bucket : ∀ i < tbl.num_buckets, ∃ as, BucketHolds handle (tbl.buckets i) as ∧
    as.Perm (inBkt hashFcn tbl.num_buckets es i)

structure TableHolds (hashFcn : Text → UInt32) (handle : Handles) (head : Option ℕ) (tbl : UTHashTable)
    (es : List (ℕ × Text)) : Prop where
  app : AppHolds hashFcn handle head tbl.tail es
  bkts : BktsHold hashFcn handle tbl es
  num_items : tbl.num_items = es.length

/-- An empty hash has no table. -/
structure Holds (hashFcn : Text → UInt32) (m : Memory) (es : List (ℕ × Text)) : Prop where
  null : es = [] → m.head = none ∧ m.tbl = none
  table : es ≠ [] → ∃ tbl, m.tbl = some tbl ∧ TableHolds hashFcn m.handle m.head tbl es

section Lists
variable {hashFcn : Text → UInt32} {handle handle' : Handles} {head : Option ℕ} {tail : ℕ}
  {es : List (ℕ × Text)} {tbl : UTHashTable}

theorem hashToBkt_two_pow (hashv : UInt32) (k : ℕ) : hashToBkt hashv (2 ^ k) = hashv.toNat % 2 ^ k :=
  Nat.and_two_pow_sub_one_eq_mod _ _

theorem hashToBkt_lt (hashv : UInt32) (k : ℕ) : hashToBkt hashv (2 ^ k) < 2 ^ k := by
  rw [hashToBkt_two_pow]
  exact Nat.mod_lt _ (Nat.two_pow_pos k)

theorem mem_inBkt {num_bkts i a : ℕ} :
    a ∈ inBkt hashFcn num_bkts es i ↔ ∃ n ∈ es, hashToBkt (hashFcn n.2) num_bkts = i ∧ n.1 = a := by
  simp [inBkt, and_assoc]

theorem inBkt_append {num_bkts i : ℕ} (fs : List (ℕ × Text)) :
    inBkt hashFcn num_bkts (es ++ fs) i = inBkt hashFcn num_bkts es i ++ inBkt hashFcn num_bkts fs i := by
  simp [inBkt]

theorem inBkt_cons {num_bkts i : ℕ} (n : ℕ × Text) :
    inBkt hashFcn num_bkts (n :: es) i =
      if hashToBkt (hashFcn n.2) num_bkts = i then n.1 :: inBkt hashFcn num_bkts es i
      else inBkt hashFcn num_bkts es i := by
  unfold inBkt
  rw [List.filter_cons]
  split_ifs <;> simp_all

theorem inBkt_subset {num_bkts i a : ℕ} (h : a ∈ inBkt hashFcn num_bkts es i) : a ∈ es.map Prod.fst := by
  obtain ⟨n, hn, -, rfl⟩ := mem_inBkt.mp h
  exact List.mem_map_of_mem hn

/-- An element belongs in one bucket. -/
theorem inBkt_unique {num_bkts i j a : ℕ} (hnodup : (es.map Prod.fst).Nodup)
    (hi : a ∈ inBkt hashFcn num_bkts es i) (hj : a ∈ inBkt hashFcn num_bkts es j) : i = j := by
  obtain ⟨n, hn, hni, hna⟩ := mem_inBkt.mp hi
  obtain ⟨n', hn', hnj, hna'⟩ := mem_inBkt.mp hj
  have hsame : n = n' := List.inj_on_of_nodup_map hnodup hn hn' (hna.trans hna'.symm)
  exact hni.symm.trans (hsame ▸ hnj)

theorem SameCore.appLinks_eq (h : SameCore handle handle') : appLinks handle' = appLinks handle := by
  funext a
  have hcomp (x : Option UTHashHandle) : (x.map fun hh => (⟨hh.prev, hh.next⟩ : Links ℕ)) =
      (x.map core).map fun hh => ⟨hh.prev, hh.next⟩ := by
    rw [Option.map_map]
    rfl
  rw [appLinks, hcomp, h a, ← hcomp, appLinks]

theorem Filed.exists_handle {n : ℕ × Text} (h : Filed hashFcn handle n) :
    ∃ hh, handle n.1 = some hh ∧ hh.key = n.2 ∧ hh.keylen = n.2.length ∧ hh.hashv = hashFcn n.2 := by
  obtain ⟨hh, ha, hfiling⟩ := Option.map_eq_some_iff.mp h
  obtain ⟨hkey, hrest⟩ := Prod.mk.inj hfiling
  obtain ⟨hkeylen, hhashv⟩ := Prod.mk.inj hrest
  exact ⟨hh, ha, hkey, hkeylen, hhashv⟩

theorem SameCore.filed (h : SameCore handle handle') {n : ℕ × Text} (hn : Filed hashFcn handle n) :
    Filed hashFcn handle' n := by
  have hcomp (x : Option UTHashHandle) : x.map filing = (x.map core).map filing := by
    rw [Option.map_map]
    rfl
  rw [Filed, hcomp, h n.1, ← hcomp]
  exact hn

theorem AppHolds.sameCore (h : AppHolds hashFcn handle head tail es) (hcore : SameCore handle handle') :
    AppHolds hashFcn handle' head tail es where
  seg := hcore.appLinks_eq ▸ h.seg
  nodup := h.nodup
  filed n hn := hcore.filed (h.filed n hn)

theorem Filed.bktOf_eq {n : ℕ × Text} (h : Filed hashFcn handle n) (num_bkts : ℕ) :
    bktOf handle num_bkts n.1 = hashToBkt (hashFcn n.2) num_bkts := by
  obtain ⟨hh, ha, -, -, hhashv⟩ := h.exists_handle
  rw [bktOf, ha, Option.elim_some, hhashv]

theorem perm_flatMap_chain {chain : ℕ → List ℕ} {num_bkts : ℕ} (hnodup : (es.map Prod.fst).Nodup)
    (hlt : ∀ n ∈ es, hashToBkt (hashFcn n.2) num_bkts < num_bkts)
    (hchain : ∀ i < num_bkts, (chain i).Nodup ∧ (chain i).Perm (inBkt hashFcn num_bkts es i)) :
    ((List.range num_bkts).flatMap chain).Perm (es.map Prod.fst) ∧ ((List.range num_bkts).flatMap chain).Nodup := by
  have hdisjoint : ∀ i < num_bkts, ∀ j < num_bkts, i ≠ j → List.Disjoint (chain i) (chain j) := by
    intro i hi j hj hne a hai haj
    exact hne (inBkt_unique hnodup ((hchain i hi).2.mem_iff.mp hai) ((hchain j hj).2.mem_iff.mp haj))
  have hflat : ((List.range num_bkts).flatMap chain).Nodup := by
    rw [List.nodup_flatMap]
    refine ⟨fun i hi => (hchain i (List.mem_range.mp hi)).1, ?_⟩
    apply List.nodup_range.pairwise_of_forall_ne
    exact fun i hi j hj => hdisjoint i (List.mem_range.mp hi) j (List.mem_range.mp hj)
  refine ⟨(List.perm_ext_iff_of_nodup hflat hnodup).mpr fun a => ?_, hflat⟩
  rw [List.mem_flatMap]
  constructor
  · intro h
    obtain ⟨i, hi, ha⟩ := h
    exact inBkt_subset ((hchain i (List.mem_range.mp hi)).2.mem_iff.mp ha)
  · intro h
    obtain ⟨n, hn, rfl⟩ := List.mem_map.mp h
    have hlt := hlt n hn
    exact ⟨_, List.mem_range.mpr hlt, (hchain _ hlt).2.mem_iff.mpr (mem_inBkt.mpr ⟨n, hn, rfl, rfl⟩)⟩

end Lists

/-- The ideal length of a chain is the number of elements for each bucket, rounded up. -/
theorem ideal_eq_ceilDiv (n k : ℕ) : ((n >>> k) + if n &&& (2 ^ k - 1) = 0 then 0 else 1) = n ⌈/⌉ 2 ^ k := by
  have hpos := Nat.two_pow_pos k
  rw [Nat.ceilDiv_eq_add_pred_div, Nat.and_two_pow_sub_one_eq_mod, Nat.shiftRight_eq_div_pow]
  have hdiv := Nat.div_add_mod n (2 ^ k)
  have hlt := Nat.mod_lt n hpos
  have hcomm := Nat.mul_comm (2 ^ k) (n / 2 ^ k)
  symm
  split_ifs with hmod
  · apply Nat.div_eq_of_lt_le
    · rw [Nat.add_zero]
      omega
    · rw [Nat.add_zero, Nat.add_mul]
      omega
  · apply Nat.div_eq_of_lt_le
    · rw [Nat.add_mul]
      omega
    · rw [Nat.add_mul, Nat.add_mul]
      omega

structure Expanded (tbl tbl' : UTHashTable) : Prop where
  num_buckets : tbl'.num_buckets = tbl.num_buckets * 2
  num_items : tbl'.num_items = tbl.num_items
  tail : tbl'.tail = tbl.tail
  ideal : tbl'.ideal_chain_maxlen = tbl.num_items ⌈/⌉ tbl'.num_buckets
  mult : ∀ j, (tbl'.buckets j).expand_mult =
    if tbl'.ideal_chain_maxlen < (tbl'.buckets j).count then (tbl'.buckets j).count / tbl'.ideal_chain_maxlen else 0
  nonideal : tbl'.nonideal_items =
    ∑ j ∈ Finset.range tbl'.num_buckets, ((tbl'.buckets j).count - tbl'.ideal_chain_maxlen)
  ineff : tbl'.ineff_expands = if tbl.num_items / 2 < tbl'.nonideal_items then tbl.ineff_expands + 1 else 0
  noexpand : tbl'.noexpand = (tbl.noexpand || decide (1 < tbl'.ineff_expands))

section Expand
variable {hashFcn : Text → UInt32} {handle : Handles} {head : Option ℕ} {tail : ℕ} {es : List (ℕ × Text)}
  {tbl : UTHashTable}

/-- The expansion of the buckets keeps the elements. -/
theorem hashExpandBuckets_spec (happ : AppHolds hashFcn handle head tail es) (hbkts : BktsHold hashFcn handle tbl es)
    (hitems : tbl.num_items = es.length) (hes : es ≠ []) (hroom : tbl.num_buckets * 2 < 2 ^ 32) :
    ∃ handle' tbl', hashExpandBuckets handle tbl = some (handle', tbl') ∧ SameCore handle handle' ∧
      BktsHold hashFcn handle' tbl' es ∧ Expanded tbl tbl' := by
  choose! chain hchain hperm using hbkts.bucket
  have hpow : tbl.num_buckets * 2 = 2 ^ (tbl.log2_num_buckets + 1) := by rw [hbkts.num_buckets, pow_succ]
  generalize hideal : tbl.num_items ⌈/⌉ 2 ^ (tbl.log2_num_buckets + 1) = ideal
  have hpos : 0 < ideal := by
    have hlen := List.length_pos_of_ne_nil hes
    by_contra hzero
    have hle : tbl.num_items ⌈/⌉ 2 ^ (tbl.log2_num_buckets + 1) ≤ 0 := by omega
    rw [ceilDiv_le_iff_le_mul (Nat.two_pow_pos _)] at hle
    omega
  have hlt : ∀ n ∈ es, hashToBkt (hashFcn n.2) tbl.num_buckets < tbl.num_buckets := by
    intro n _
    rw [hbkts.num_buckets]
    exact hashToBkt_lt _ _
  have hbktlt : ∀ a, bktOf handle (tbl.num_buckets * 2) a < tbl.num_buckets * 2 := by
    intro a
    rw [hpow, bktOf]
    cases handle a with
    | none => exact Nat.two_pow_pos _
    | some hh => exact hashToBkt_lt _ _
  obtain ⟨hmoved, hnodup⟩ := perm_flatMap_chain happ.nodup hlt fun i hi => ⟨(hchain i hi).nodup, hperm i hi⟩
  have hfuel : ∀ i ∈ List.range tbl.num_buckets, (chain i).length ≤ tbl.num_items := by
    intro i hi
    rw [(hperm i (List.mem_range.mp hi)).length_eq, inBkt, List.length_map, hitems]
    exact List.length_filter_le _ _
  obtain ⟨x, hx, hall⟩ := Moved.moveChains hpos hbktlt
    (fun i hi => (hchain i (List.mem_range.mp hi)).seg) hfuel (by simpa using hnodup) moved_nil
  rw [List.nil_append] at hall
  have hnew : ∀ j < tbl.num_buckets * 2,
      (((List.range tbl.num_buckets).flatMap chain).filter
        (bktOf handle (tbl.num_buckets * 2) · = j)).reverse.Perm (inBkt hashFcn (tbl.num_buckets * 2) es j) := by
    intro j _
    apply (List.reverse_perm _).trans ((hmoved.filter _).trans _)
    rw [List.filter_map, inBkt]
    have hsame : es.filter ((bktOf handle (tbl.num_buckets * 2) · = j) ∘ Prod.fst) =
        es.filter fun n => hashToBkt (hashFcn n.2) (tbl.num_buckets * 2) = j := by
      apply List.filter_congr
      intro n hn
      rw [Function.comp_apply, (happ.filed n hn).bktOf_eq]
    rw [hsame]
  let ineff := if tbl.num_items >>> 1 < x.nonideal_items then tbl.ineff_expands + 1 else 0
  refine ⟨x.handle, ⟨x.buckets, tbl.num_buckets * 2, tbl.log2_num_buckets + 1, tbl.num_items, tbl.tail, ideal,
    x.nonideal_items, ineff, tbl.noexpand || 1 < ineff⟩, ?_, hall.core, ⟨hpow, ?_⟩, ?_⟩
  · unfold hashExpandBuckets
    have hceil := (ideal_eq_ceilDiv tbl.num_items (tbl.log2_num_buckets + 1)).trans hideal
    rw [← hpow] at hceil
    simp only [hceil]
    rw [if_neg (by omega), hx]
    rfl
  · exact fun j hj => ⟨_, hall.bucket j, hnew j hj⟩
  · exact {
      num_buckets := rfl
      num_items := rfl
      tail := rfl
      ideal := by rw [hpow, hideal]
      mult := hall.mult
      nonideal := hall.nonideal
      ineff := by simp only [ineff, Nat.shiftRight_one]
      noexpand := rfl }

end Expand

def filedBucket (head : UTHashBucket) (addhh : ℕ) : UTHashBucket := ⟨some addhh, head.count + 1, head.expand_mult⟩

def filedIn (tbl : UTHashTable) (bkt addhh : ℕ) : UTHashTable :=
  { tbl with buckets := Function.update tbl.buckets bkt (filedBucket (tbl.buckets bkt) addhh) }

/-- The bucket has come to its threshold. -/
def Crowded (tbl : UTHashTable) (bkt : ℕ) : Prop :=
  u32 (((tbl.buckets bkt).expand_mult + 1) * 10) ≤ (tbl.buckets bkt).count + 1 ∧ tbl.noexpand = false

def AddedTo (tbl : UTHashTable) (bkt addhh : ℕ) (tbl' : UTHashTable) : Prop :=
  Crowded tbl bkt ∧ Expanded (filedIn tbl bkt addhh) tbl' ∨ ¬ Crowded tbl bkt ∧ tbl' = filedIn tbl bkt addhh

section Add
variable {hashFcn : Text → UInt32} {handle handle' : Handles} {head : Option ℕ} {tail add : ℕ} {key : Text}
  {es : List (ℕ × Text)} {tbl : UTHashTable}

theorem BktsHold.congr (h : BktsHold hashFcn handle tbl es)
    (hsame : ∀ a ∈ es.map Prod.fst, bktLinks handle' a = bktLinks handle a) : BktsHold hashFcn handle' tbl es where
  num_buckets := h.num_buckets
  bucket i hi := by
    obtain ⟨as, has, hperm⟩ := h.bucket i hi
    exact ⟨as, has.congr fun c hc => hsame c (inBkt_subset (hperm.mem_iff.mp hc)), hperm⟩

theorem linkFirst_spec (h : BktsHold hashFcn handle tbl es) (hnodup : ((es ++ [(add, key)]).map Prod.fst).Nodup)
    (hadd : handle add ≠ none) :
    ∃ handle', linkFirst handle (tbl.buckets (hashToBkt (hashFcn key) tbl.num_buckets)).hh_head add = some handle' ∧
      SameCore handle handle' ∧
      BktsHold hashFcn handle' (filedIn tbl (hashToBkt (hashFcn key) tbl.num_buckets) add) (es ++ [(add, key)]) := by
  generalize hb : hashToBkt (hashFcn key) tbl.num_buckets = bkt
  have hbkt : bkt < tbl.num_buckets := by
    rw [← hb, h.num_buckets]
    exact hashToBkt_lt _ _
  have hes : (es.map Prod.fst).Nodup := hnodup.sublist (by simp)
  have hfresh : add ∉ es.map Prod.fst := by
    rw [List.map_append] at hnodup
    exact fun hmem => (List.nodup_append.mp hnodup).2.2 add hmem add (by simp) rfl
  obtain ⟨as, has, hperm⟩ := h.bucket bkt hbkt
  have hnot : add ∉ as := fun hmem => hfresh (inBkt_subset (hperm.mem_iff.mp hmem))
  obtain ⟨handle', hlink, hfirst, hcore, hsame⟩ := has.linkFirst hadd hnot (tbl.buckets bkt).expand_mult
  refine ⟨handle', hlink, hcore, h.num_buckets, fun i hi => ?_⟩
  change ∃ cs, BucketHolds handle' (Function.update tbl.buckets bkt _ i) cs ∧
    cs.Perm (inBkt hashFcn tbl.num_buckets (es ++ [(add, key)]) i)
  rw [inBkt_append]
  by_cases hib : i = bkt
  · subst hib
    rw [Function.update_self]
    refine ⟨add :: as, hfirst, ?_⟩
    have hlast : inBkt hashFcn tbl.num_buckets [(add, key)] i = [add] := by
      rw [inBkt_cons, if_pos hb]
      rfl
    rw [hlast]
    exact (hperm.cons add).trans (List.perm_append_singleton add _).symm
  · rw [Function.update_of_ne hib]
    obtain ⟨cs, hcs, hperm'⟩ := h.bucket i hi
    have hlast : inBkt hashFcn tbl.num_buckets [(add, key)] i = [] := by
      rw [inBkt_cons, hb, if_neg (Ne.symm hib)]
      rfl
    rw [hlast, List.append_nil]
    refine ⟨cs, hcs.congr fun c hc => ?_, hperm'⟩
    have hci := hperm'.mem_iff.mp hc
    have hnotin : c ∉ add :: as := by
      apply List.not_mem_cons_of_ne_of_not_mem
      · exact fun heq => hfresh (heq ▸ inBkt_subset hci)
      · exact fun hcb => hib (inBkt_unique hes hci (hperm.mem_iff.mp hcb))
    rw [bktLinks, bktLinks, hsame c hnotin]

theorem hashAddToBkt_spec (happ : AppHolds hashFcn handle head tail (es ++ [(add, key)]))
    (hbkts : BktsHold hashFcn handle tbl es) (hitems : tbl.num_items = es.length + 1)
    (hroom : tbl.num_buckets * 2 < 2 ^ 32) :
    ∃ handle' tbl', hashAddToBkt handle tbl (hashToBkt (hashFcn key) tbl.num_buckets) add = some (handle', tbl') ∧
      SameCore handle handle' ∧ BktsHold hashFcn handle' tbl' (es ++ [(add, key)]) ∧
      AddedTo tbl (hashToBkt (hashFcn key) tbl.num_buckets) add tbl' := by
  obtain ⟨hh, hhh, -⟩ := (happ.filed (add, key) (by simp)).exists_handle
  obtain ⟨handle', hlink, hcore, hfiled⟩ := linkFirst_spec hbkts happ.nodup (hhh ▸ Option.some_ne_none hh)
  unfold hashAddToBkt
  simp only [hlink, Option.bind_some]
  split_ifs with hcrowded
  · obtain ⟨handle'', tbl', hexpand, hcore', hbkts', hexpanded⟩ := hashExpandBuckets_spec (happ.sameCore hcore) hfiled
      (by simp [filedIn, hitems]) (by simp) hroom
    exact ⟨handle'', tbl', hexpand, hcore.trans hcore', hbkts', .inl ⟨hcrowded, hexpanded⟩⟩
  · exact ⟨handle', _, rfl, hcore, hfiled, .inr ⟨hcrowded, rfl⟩⟩

end Add
end Ivy.Hash
