import Ivy.Hash.Operations
import Mathlib.Algebra.BigOperators.Ring.Finset
import Mathlib.Algebra.Order.BigOperators.Group.Finset

/-! The check of the whole hash that `HASH_DEBUG` compiles in, and how long the chains of its
buckets get. -/
namespace Ivy.Hash
open Doubly

def countChain (handle : Handles) (prev next : UTHashHandle → Option ℕ) :
    ℕ → Option ℕ → Option ℕ → ℕ → Option (Option ℕ)
  | _, _, none, count => some (some count)
  | 0, _, some _, _ => none
  | fuel + 1, before, some thh, count => (handle thh).bind fun hh =>
    if before ≠ prev hh then some none else countChain handle prev next fuel (some thh) (next hh) (count + 1)

def fsckBucket (fuel : ℕ) (handle : Handles) (bucket : UTHashBucket) (count : Option ℕ) : Option (Option ℕ) :=
  match count with
  | none => some none
  | some count => (countChain handle (·.hh_prev) (·.hh_next) fuel none bucket.hh_head 0).map fun
    | none => none
    | some bkt_count => if bucket.count ≠ bkt_count then none else some (count + bkt_count)

/-- `HASH_FSCK`; `false` is a `HASH_OOPS`, which ends the process. -/
def hashFsck (fuel : ℕ) (m : Memory) : Option Bool :=
  match m.head with
  | none => some true
  | some head => m.tbl.bind fun tbl =>
    ((List.range tbl.num_buckets).foldlM (fun count i => fsckBucket fuel m.handle (tbl.buckets i) count)
      (some 0)).bind fun
      | none => some false
      | some count =>
        if count ≠ tbl.num_items then some false
        else (countChain m.handle (·.prev) (·.next) fuel none (some head) 0).map fun
          | none => false
          | some count => count = tbl.num_items

section Fsck
variable {hashFcn : Text → UInt32} {handle : Handles} {m : Memory} {es : List (ℕ × Text)} {tbl : UTHashTable}

theorem countChain_eq {prev next : UTHashHandle → Option ℕ} {before p l : Option ℕ} {as : List ℕ} {fuel : ℕ}
    (h : Seg (fun a => (handle a).map fun hh => ⟨prev hh, next hh⟩) before p as l none)
    (hfuel : as.length ≤ fuel) (count : ℕ) :
    countChain handle prev next fuel before p count = some (some (count + as.length)) := by
  induction as generalizing before p fuel count with
  | nil =>
    obtain rfl : p = none := h.2
    cases fuel <;> rfl
  | cons a as ih =>
    obtain ⟨rfl, q, hlink, hrest⟩ := h
    obtain ⟨hh, ha, hlinks⟩ := Option.map_eq_some_iff.mp hlink
    obtain ⟨hprev, hnext⟩ := Links.mk.inj hlinks
    cases fuel with
    | zero => simp at hfuel
    | succ fuel =>
      have ih := ih hrest (Nat.le_of_succ_le_succ hfuel) (count + 1)
      rw [countChain, ha, Option.bind_some, if_neg (not_not.mpr hprev.symm), hnext, ih, List.length_cons,
        Nat.add_right_comm, Nat.add_assoc]

theorem TableHolds.sum_count (h : TableHolds hashFcn handle m.head tbl es) :
    ∑ i ∈ Finset.range tbl.num_buckets, (tbl.buckets i).count = es.length := by
  choose! chain hchain hperm using h.bkts.bucket
  have hlt : ∀ n ∈ es, hashToBkt (hashFcn n.2) tbl.num_buckets < tbl.num_buckets := by
    intro n _
    rw [h.bkts.num_buckets]
    exact hashToBkt_lt _ _
  have hall := (perm_flatMap_chain h.app.nodup hlt fun i hi => ⟨(hchain i hi).nodup, hperm i hi⟩).1.length_eq
  rw [List.length_flatMap, List.length_map] at hall
  have hcount : ∀ i ∈ Finset.range tbl.num_buckets, (tbl.buckets i).count = (chain i).length :=
    fun i hi => (hchain i (Finset.mem_range.mp hi)).count
  rw [← hall, Finset.sum_congr rfl hcount]
  rfl

theorem fsckBuckets_eq {fuel : ℕ} {chain : ℕ → List ℕ} {is : List ℕ}
    (h : ∀ i ∈ is, BucketHolds handle (tbl.buckets i) (chain i) ∧ (chain i).length ≤ fuel) (count : ℕ) :
    is.foldlM (fun count i => fsckBucket fuel handle (tbl.buckets i) count) (some count) =
      some (some (count + (is.map fun i => (tbl.buckets i).count).sum)) := by
  induction is generalizing count with
  | nil => rfl
  | cons i is ih =>
    obtain ⟨hbucket, hfuel⟩ := h i List.mem_cons_self
    have hone : fsckBucket fuel handle (tbl.buckets i) (some count) = some (some (count + (tbl.buckets i).count)) := by
      have hcount := countChain_eq hbucket.seg hfuel 0
      rw [Nat.zero_add, ← hbucket.count] at hcount
      rw [fsckBucket, hcount, Option.map_some]
      simp
    rw [List.foldlM_cons, hone]
    have hrest := ih (fun j hj => h j (List.mem_cons_of_mem i hj)) (count + (tbl.buckets i).count)
    rw [Nat.add_assoc] at hrest
    exact hrest

theorem Holds.hashFsck {m : Memory} (h : Holds hashFcn m es) {fuel : ℕ} (hfuel : es.length ≤ fuel) :
    hashFsck fuel m = some true := by
  rcases eq_or_ne es [] with rfl | hes
  · rw [Hash.hashFsck, (h.null rfl).1]
  · obtain ⟨tbl, htbl, htable⟩ := h.table hes
    obtain ⟨head, hhead⟩ : ∃ head, m.head = some head := by
      cases es with
      | nil => exact absurd rfl hes
      | cons n es => exact ⟨n.1, htable.app.seg.1⟩
    choose! chain hchain hperm using htable.bkts.bucket
    have hall : ∀ i ∈ List.range tbl.num_buckets,
        BucketHolds m.handle (tbl.buckets i) (chain i) ∧ (chain i).length ≤ fuel := by
      intro i hi
      have hi := List.mem_range.mp hi
      refine ⟨hchain i hi, le_trans ?_ hfuel⟩
      rw [(hperm i hi).length_eq, inBkt, List.length_map]
      exact List.length_filter_le _ _
    have hsum : ((List.range tbl.num_buckets).map fun i => (tbl.buckets i).count).sum = es.length := htable.sum_count
    have hbuckets := fsckBuckets_eq hall 0
    rw [hsum, Nat.zero_add] at hbuckets
    have happ := htable.app.seg
    rw [hhead] at happ
    have hlen : (es.map Prod.fst).length ≤ fuel := by rwa [List.length_map]
    have hwalk := countChain_eq happ hlen 0
    rw [Nat.zero_add, List.length_map] at hwalk
    unfold Hash.hashFsck
    rw [hhead, htbl]
    simp only [Option.bind_some, hbuckets]
    rw [if_neg (not_not.mpr htable.num_items.symm), hwalk, Option.map_some, htable.num_items]
    exact congrArg some (decide_eq_true rfl)

end Fsck

/-- The chains are as long as `HASH_BKT_CAPACITY_THRESH` allows, with the delays of `expand_mult`, and
there is one delay for each bucket at most. -/
structure Balanced (tbl : UTHashTable) : Prop where
  chain : ∀ i < tbl.num_buckets, (tbl.buckets i).count ≤ ((tbl.buckets i).expand_mult + 1) * 10
  delayed : ∀ i < tbl.num_buckets, 0 < (tbl.buckets i).expand_mult →
    (tbl.buckets i).count < ((tbl.buckets i).expand_mult + 1) * 10
  delays : ∑ i ∈ Finset.range tbl.num_buckets, (tbl.buckets i).expand_mult ≤ tbl.num_buckets

/-- Unless the expansion was given up, the chains are short. -/
structure ShortChains (tbl : UTHashTable) : Prop where
  balanced : tbl.noexpand = false → Balanced tbl
  ideal : tbl.ideal_chain_maxlen ≤ 10

section Short
variable {tbl tbl' : UTHashTable} {n bkt addhh : ℕ}

theorem Balanced.items_lt (h : Balanced tbl) (hpos : 0 < tbl.num_buckets)
    (hsum : ∑ i ∈ Finset.range tbl.num_buckets, (tbl.buckets i).count = n) : n < tbl.num_buckets * 20 := by
  have hle : ∀ i ∈ Finset.range tbl.num_buckets, (tbl.buckets i).count ≤ ((tbl.buckets i).expand_mult + 1) * 10 :=
    fun i hi => h.chain i (Finset.mem_range.mp hi)
  have hbound : ∑ i ∈ Finset.range tbl.num_buckets, ((tbl.buckets i).expand_mult + 1) * 10 =
      (∑ i ∈ Finset.range tbl.num_buckets, (tbl.buckets i).expand_mult) * 10 + tbl.num_buckets * 10 := by
    rw [← Finset.sum_mul, Finset.sum_add_distrib, Finset.sum_const, Finset.card_range, smul_eq_mul, Nat.mul_one,
      Nat.add_mul]
  have hdelays := h.delays
  by_cases hdelay : ∃ i < tbl.num_buckets, 0 < (tbl.buckets i).expand_mult
  · obtain ⟨i, hi, hmult⟩ := hdelay
    have hlt := Finset.sum_lt_sum hle ⟨i, Finset.mem_range.mpr hi, h.delayed i hi hmult⟩
    rw [hsum, hbound] at hlt
    omega
  · have hzero : ∑ i ∈ Finset.range tbl.num_buckets, (tbl.buckets i).expand_mult = 0 := by
      apply Finset.sum_eq_zero
      intro i hi
      by_contra hne
      exact hdelay ⟨i, Finset.mem_range.mp hi, by omega⟩
    have hsumle := Finset.sum_le_sum hle
    rw [hsum, hbound, hzero] at hsumle
    omega

theorem Expanded.shortChains (h : Expanded tbl tbl') (hpos : 0 < tbl.num_buckets)
    (hitems : tbl.num_items ≤ tbl.num_buckets * 20) (hsome : 0 < tbl.num_items)
    (hsum : ∑ i ∈ Finset.range tbl'.num_buckets, (tbl'.buckets i).count = tbl.num_items) : ShortChains tbl' := by
  have hpos' : 0 < tbl'.num_buckets := by
    rw [h.num_buckets]
    omega
  have hideal : tbl'.ideal_chain_maxlen ≤ 10 := by
    rw [h.ideal, ceilDiv_le_iff_le_mul hpos', h.num_buckets]
    omega
  have hcover : tbl.num_items ≤ tbl'.num_buckets * tbl'.ideal_chain_maxlen := by
    rw [← ceilDiv_le_iff_le_mul hpos', h.ideal]
  have hidealpos : 0 < tbl'.ideal_chain_maxlen := by
    by_contra hzero
    have hz : tbl'.ideal_chain_maxlen = 0 := by omega
    rw [hz] at hcover
    omega
  have hover : ∀ i, tbl'.ideal_chain_maxlen < (tbl'.buckets i).count →
      (tbl'.buckets i).count < ((tbl'.buckets i).expand_mult + 1) * 10 := by
    intro i hlt
    rw [h.mult i, if_pos hlt]
    calc (tbl'.buckets i).count
        < tbl'.ideal_chain_maxlen * ((tbl'.buckets i).count / tbl'.ideal_chain_maxlen + 1) :=
          Nat.lt_mul_div_succ _ hidealpos
      _ = ((tbl'.buckets i).count / tbl'.ideal_chain_maxlen + 1) * tbl'.ideal_chain_maxlen := Nat.mul_comm _ _
      _ ≤ ((tbl'.buckets i).count / tbl'.ideal_chain_maxlen + 1) * 10 := Nat.mul_le_mul_left _ hideal
  refine ⟨fun _ => ⟨?_, ?_, ?_⟩, hideal⟩
  · intro i _
    by_cases hlt : tbl'.ideal_chain_maxlen < (tbl'.buckets i).count
    · exact (hover i hlt).le
    · rw [h.mult i, if_neg hlt]
      omega
  · intro i _ hmult
    apply hover i
    by_contra hle
    rw [h.mult i, if_neg hle] at hmult
    exact Nat.lt_irrefl 0 hmult
  · have hmul : (∑ i ∈ Finset.range tbl'.num_buckets, (tbl'.buckets i).expand_mult) * tbl'.ideal_chain_maxlen ≤
        tbl'.num_buckets * tbl'.ideal_chain_maxlen := by
      refine le_trans ?_ hcover
      rw [← hsum, Finset.sum_mul]
      apply Finset.sum_le_sum
      intro i _
      rw [h.mult i]
      split_ifs
      · exact Nat.div_mul_le_self _ _
      · rw [Nat.zero_mul]
        exact Nat.zero_le _
    exact Nat.le_of_mul_le_mul_right hmul hidealpos

theorem AddedTo.shortChains (h : AddedTo tbl bkt addhh tbl') (hshort : ShortChains tbl) (hpos : 0 < tbl.num_buckets)
    (hitems : (∑ i ∈ Finset.range tbl.num_buckets, (tbl.buckets i).count) + 1 = tbl.num_items)
    (hsum : ∑ i ∈ Finset.range tbl'.num_buckets, (tbl'.buckets i).count = tbl'.num_items) : ShortChains tbl' := by
  rcases h with ⟨hcrowded, hexpanded⟩ | ⟨hcalm, rfl⟩
  · have hlt := (hshort.balanced hcrowded.2).items_lt hpos rfl
    have hle : tbl.num_items ≤ tbl.num_buckets * 20 := by omega
    rw [hexpanded.num_items] at hsum
    exact hexpanded.shortChains hpos hle (hitems ▸ Nat.succ_pos _) hsum
  · refine ⟨fun hnoexpand => ?_, hshort.ideal⟩
    have hnoexpand : tbl.noexpand = false := hnoexpand
    obtain ⟨hchain, hdelayed, hdelays⟩ := hshort.balanced hnoexpand
    have hbelow : (tbl.buckets bkt).count + 1 < ((tbl.buckets bkt).expand_mult + 1) * 10 := by
      have hnot : ¬ u32 (((tbl.buckets bkt).expand_mult + 1) * 10) ≤ (tbl.buckets bkt).count + 1 :=
        fun hle => hcalm ⟨hle, hnoexpand⟩
      have hwrap : u32 (((tbl.buckets bkt).expand_mult + 1) * 10) ≤ ((tbl.buckets bkt).expand_mult + 1) * 10 :=
        Nat.mod_le _ _
      omega
    have hmult : ∀ i, ((filedIn tbl bkt addhh).buckets i).expand_mult = (tbl.buckets i).expand_mult := by
      intro i
      by_cases hi : i = bkt
      · simp only [filedIn, filedBucket, hi, Function.update_self]
      · simp only [filedIn, Function.update_of_ne hi]
    have hcount : ∀ i, i = bkt ∧ ((filedIn tbl bkt addhh).buckets i).count = (tbl.buckets bkt).count + 1 ∨
        ((filedIn tbl bkt addhh).buckets i).count = (tbl.buckets i).count := by
      intro i
      by_cases hi : i = bkt
      · left
        simp only [filedIn, filedBucket, hi, Function.update_self, true_and]
      · right
        simp only [filedIn, Function.update_of_ne hi]
    refine ⟨fun i hi => ?_, fun i hi => ?_, ?_⟩
    · rw [hmult i]
      rcases hcount i with ⟨rfl, hci⟩ | hci
      · omega
      · exact hci ▸ hchain i hi
    · rw [hmult i]
      rcases hcount i with ⟨rfl, hci⟩ | hci
      · omega
      · exact hci ▸ hdelayed i hi
    · rw [Finset.sum_congr rfl fun i _ => hmult i]
      exact hdelays

theorem Shrunk.shortChains (h : Shrunk tbl tbl') (hshort : ShortChains tbl) : ShortChains tbl' := by
  refine ⟨fun hnoexpand => ?_, h.ideal ▸ hshort.ideal⟩
  obtain ⟨hchain, hdelayed, hdelays⟩ := hshort.balanced (h.noexpand ▸ hnoexpand)
  refine ⟨fun i hi => ?_, fun i hi => ?_, ?_⟩
  · rw [h.num_buckets] at hi
    obtain ⟨hcount, hmult⟩ := h.buckets i
    exact hmult ▸ hcount.trans (hchain i hi)
  · rw [h.num_buckets] at hi
    obtain ⟨hcount, hmult⟩ := h.buckets i
    intro hpos
    rw [hmult] at hpos ⊢
    exact hcount.trans_lt (hdelayed i hi hpos)
  · rw [h.num_buckets, Finset.sum_congr rfl fun i _ => (h.buckets i).2]
    exact hdelays

end Short

def Short (m : Memory) : Prop := ∀ tbl ∈ m.tbl, ShortChains tbl

section Memory
variable {hashFcn : Text → UInt32} {m m' : Memory} {es : List (ℕ × Text)} {add : ℕ} {key : Text}

theorem short_tableFor (h : Short m) : ShortChains (tableFor m add) := by
  unfold tableFor
  cases htbl : m.tbl with
  | none => exact ⟨fun _ => ⟨by simp [hashMakeTable, emptyBucket], by simp [hashMakeTable, emptyBucket],
      by simp [hashMakeTable, emptyBucket]⟩, by simp [hashMakeTable]⟩
  | some tbl =>
    obtain ⟨hbalanced, hideal⟩ := h tbl htbl
    exact ⟨fun hnoexpand => ⟨(hbalanced hnoexpand).chain, (hbalanced hnoexpand).delayed,
      (hbalanced hnoexpand).delays⟩, hideal⟩

theorem Holds.tableFor (h : Holds hashFcn m es) (add : ℕ) :
    0 < (tableFor m add).num_buckets ∧ (tableFor m add).num_items = es.length ∧
      ∑ i ∈ Finset.range (tableFor m add).num_buckets, ((tableFor m add).buckets i).count = es.length := by
  unfold Hash.tableFor
  rcases eq_or_ne es [] with rfl | hes
  · rw [(h.null rfl).2]
    simp [hashMakeTable, emptyBucket]
  · obtain ⟨tbl, htbl, htable⟩ := h.table hes
    rw [htbl]
    refine ⟨?_, htable.num_items, htable.sum_count⟩
    change 0 < tbl.num_buckets
    rw [htable.bkts.num_buckets]
    exact Nat.two_pow_pos _

/-- Additions keep the chains short. -/
theorem Holds.short_add (h : Holds hashFcn m es) (hshort : Short m) {tbl : UTHashTable} {bkt : ℕ}
    (h' : Holds hashFcn m' (es ++ [(add, key)])) (htbl : m'.tbl = some tbl)
    (hto : AddedTo { Hash.tableFor m add with num_items := (Hash.tableFor m add).num_items + 1 } bkt add tbl) :
    Short m' := by
  intro t ht
  obtain rfl := Option.some.inj (ht.symm.trans htbl)
  obtain ⟨t', ht', htable⟩ := h'.table (by simp)
  obtain rfl := Option.some.inj (ht'.symm.trans htbl)
  obtain ⟨hpos, hitems, hsum⟩ := h.tableFor add
  obtain ⟨hbalanced, hideal⟩ : ShortChains (Hash.tableFor m add) := short_tableFor hshort
  have hstart : ShortChains { Hash.tableFor m add with num_items := (Hash.tableFor m add).num_items + 1 } :=
    ⟨fun hnoexpand => ⟨(hbalanced hnoexpand).chain, (hbalanced hnoexpand).delayed, (hbalanced hnoexpand).delays⟩, hideal⟩
  apply hto.shortChains hstart hpos
  · change (∑ i ∈ Finset.range (Hash.tableFor m add).num_buckets, _) + 1 = (Hash.tableFor m add).num_items + 1
    rw [hitems, hsum]
  · rw [htable.sum_count, htable.num_items]

theorem short_delete (hshort : Short m) (hshrunk : ∀ tbl' ∈ m'.tbl, ∃ tbl ∈ m.tbl, Shrunk tbl tbl') : Short m' := by
  intro tbl' htbl'
  obtain ⟨tbl, htbl, h⟩ := hshrunk tbl' htbl'
  exact h.shortChains (hshort tbl htbl)

end Memory
end Ivy.Hash
