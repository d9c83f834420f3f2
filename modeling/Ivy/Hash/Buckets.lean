import Ivy.Hash.Table
import Mathlib.Algebra.BigOperators.Group.Finset.Piecewise
import Mathlib.Algebra.Order.Floor.Div

/-! The two lists that a hash handle is in, and how `HASH_EXPAND_BUCKETS` distributes the handles
over twice as many buckets. -/
namespace Ivy.Hash
open Doubly

def appLinks (handle : Handles) (a : ℕ) : Option (Links ℕ) := (handle a).map fun hh => ⟨hh.prev, hh.next⟩

def bktLinks (handle : Handles) (a : ℕ) : Option (Links ℕ) :=
  (handle a).map fun hh => ⟨hh.hh_prev, hh.hh_next⟩

/-- What a handle holds besides its links in a bucket. -/
def core (hh : UTHashHandle) : UTHashHandle := { hh with hh_prev := none, hh_next := none }

/-- The handles differ in their links in the buckets only. -/
def SameCore (handle handle' : Handles) : Prop := ∀ a, (handle' a).map core = (handle a).map core

theorem SameCore.trans {handle handle' handle'' : Handles} (h : SameCore handle handle')
    (h' : SameCore handle' handle'') : SameCore handle handle'' := fun a => (h' a).trans (h a)

/-- An assignment through a pointer that is null or leads to a handle. -/
def Handles.after (handle : Handles) (p : Option ℕ) (f : UTHashHandle → UTHashHandle) : Handles := fun a =>
  if p = some a then (handle a).map f else handle a

section Assign
variable {handle : Handles} {p : Option ℕ} {a : ℕ} {f : UTHashHandle → UTHashHandle}

theorem assign_eq (h : ∀ a, p = some a → handle a ≠ none) : handle.assign p f = some (handle.after p f) := by
  cases p with
  | none =>
    have hsame : handle.after none f = handle := by
      funext c
      simp [Handles.after]
    rw [hsame, Handles.assign]
  | some a =>
    obtain ⟨hh, ha⟩ := Option.ne_none_iff_exists'.mp (h a rfl)
    rw [Handles.assign, ha, Option.map_some]
    congr 1
    funext c
    unfold Handles.after
    by_cases hc : c = a
    · subst hc
      simp [ha]
    · simp [hc, Ne.symm hc]

theorem after_of_ne (h : p ≠ some a) : handle.after p f a = handle a := if_neg h

theorem after_self : handle.after (some a) f a = (handle a).map f := if_pos rfl

theorem after_ne_none : handle.after p f a ≠ none ↔ handle a ≠ none := by
  unfold Handles.after
  split_ifs <;> simp

theorem links_after {g : UTHashHandle → Links ℕ} {f' : Links ℕ → Links ℕ} (h : ∀ hh, g (f hh) = f' (g hh)) :
    (fun a => (handle.after p f a).map g) = Doubly.assign (fun a => (handle a).map g) p f' := by
  funext a
  unfold Handles.after Doubly.assign
  split_ifs
  · rw [Option.map_map, Option.map_map]
    exact congrArg (Option.map · (handle a)) (funext h)
  · rfl

theorem bktLinks_after_hh_prev (v : Option ℕ) :
    bktLinks (handle.after p fun hh => { hh with hh_prev := v }) = setPrev (bktLinks handle) p v :=
  links_after fun _ => rfl

theorem bktLinks_after_hh_next (v : Option ℕ) :
    bktLinks (handle.after p fun hh => { hh with hh_next := v }) = setNext (bktLinks handle) p v :=
  links_after fun _ => rfl

theorem appLinks_after_prev (v : Option ℕ) :
    appLinks (handle.after p fun hh => { hh with prev := v }) = setPrev (appLinks handle) p v :=
  links_after fun _ => rfl

theorem appLinks_after_next (v : Option ℕ) :
    appLinks (handle.after p fun hh => { hh with next := v }) = setNext (appLinks handle) p v :=
  links_after fun _ => rfl

theorem map_after {β : Type*} {g : UTHashHandle → β} (hg : ∀ hh, g (f hh) = g hh) (a : ℕ) :
    (handle.after p f a).map g = (handle a).map g := by
  unfold Handles.after
  split_ifs
  · rw [Option.map_map]
    exact congrArg (Option.map · (handle a)) (funext hg)
  · rfl

theorem live_of_seg {link : ℕ → Option (Links ℕ)} {b l q : Option ℕ} {as : List ℕ} (h : Seg link b p as l q)
    (ha : a ∈ as) : link a ≠ none := by
  obtain ⟨links, hlinks⟩ := h.link_eq ha
  rw [hlinks]
  exact Option.some_ne_none links

theorem live_of_bktLinks (h : bktLinks handle a ≠ none) : handle a ≠ none := by
  intro hnone
  exact h (by rw [bktLinks, hnone, Option.map_none])

theorem live_of_appLinks (h : appLinks handle a ≠ none) : handle a ≠ none := by
  intro hnone
  exact h (by rw [appLinks, hnone, Option.map_none])

end Assign

/-- The handles of a bucket. -/
structure BucketHolds (handle : Handles) (bucket : UTHashBucket) (as : List ℕ) : Prop where
  seg : Seg (bktLinks handle) none bucket.hh_head as as.getLast? none
  nodup : as.Nodup
  count : bucket.count = as.length

namespace BucketHolds
variable {handle handle' : Handles} {bucket : UTHashBucket} {as bs : List ℕ} {a : ℕ}

theorem congr (h : BucketHolds handle bucket as) (hsame : ∀ c ∈ as, bktLinks handle' c = bktLinks handle c) :
    BucketHolds handle' bucket as := ⟨h.seg.congr hsame, h.nodup, h.count⟩

theorem live (h : BucketHolds handle bucket as) (ha : a ∈ as) : handle a ≠ none :=
  live_of_bktLinks (live_of_seg h.seg ha)

theorem linkFirst (h : BucketHolds handle bucket as) (ha : handle a ≠ none) (hnot : a ∉ as) (mult : ℕ) :
    ∃ handle', linkFirst handle bucket.hh_head a = some handle' ∧
      BucketHolds handle' ⟨some a, bucket.count + 1, mult⟩ (a :: as) ∧ SameCore handle handle' ∧
      ∀ c ∉ a :: as, handle' c = handle c := by
  have hhead : bucket.hh_head = as.head? := by simpa using h.seg.first_eq
  have hmem : ∀ c, bucket.hh_head = some c → c ∈ as := fun c hc => List.mem_of_mem_head? (hhead ▸ hc)
  have hne : bucket.hh_head ≠ some a := fun hc => hnot (hmem a hc)
  let f (hh : UTHashHandle) : UTHashHandle := { hh with hh_prev := none, hh_next := bucket.hh_head }
  let first := handle.after (some a) f
  let next := first.after bucket.hh_head fun hh => { hh with hh_prev := some a }
  have hfirst : handle.assign (some a) f = some first := by
    apply assign_eq
    intro c hc
    exact Option.some.inj hc ▸ ha
  have hnext : first.assign bucket.hh_head (fun hh => { hh with hh_prev := some a }) = some next := by
    apply assign_eq
    intro c hc
    exact after_ne_none.mpr (h.live (hmem c hc))
  have hother : ∀ c ∈ as, first c = handle c := fun c hc => after_of_ne fun heq => hnot (Option.some.inj heq ▸ hc)
  have hlinks : bktLinks next a = some ⟨none, bucket.hh_head⟩ := by
    obtain ⟨hh, hhh⟩ := Option.ne_none_iff_exists'.mp ha
    have hnexta : next a = first a := after_of_ne hne
    have hfirsta : first a = (handle a).map f := after_self
    rw [bktLinks, hnexta, hfirsta, hhh]
    rfl
  have hrest : ∀ c ∈ as, bktLinks next c = setPrev (bktLinks handle) bucket.hh_head (some a) c := by
    intro c hc
    have hsame : bktLinks first c = bktLinks handle c := by rw [bktLinks, hother c hc, bktLinks]
    rw [bktLinks_after_hh_prev]
    unfold setPrev Doubly.assign
    rw [hsame]
  have hcore : SameCore handle first := map_after fun _ => rfl
  have hcore' : SameCore first next := map_after fun _ => rfl
  have hseg := h.seg.push h.nodup hlinks hrest
  refine ⟨next, ?_, ⟨?_, List.nodup_cons.mpr ⟨hnot, h.nodup⟩, ?_⟩, ?_, ?_⟩
  · rw [Hash.linkFirst, hfirst, Option.bind_some, hnext]
  · rw [List.getLast?_cons]
    cases hlast : as.getLast? <;> simpa [hlast] using hseg
  · rw [h.count, List.length_cons]
  · exact hcore.trans hcore'
  · intro c hc
    obtain ⟨hca, hcs⟩ := not_or.mp (List.mem_cons.not.mp hc)
    have hsome : some a ≠ some c := fun heq => hca (Option.some.inj heq).symm
    exact (after_of_ne fun heq => hcs (hmem c heq)).trans (after_of_ne hsome)

theorem hashDelInBkt (h : BucketHolds handle bucket (as ++ a :: bs)) :
    ∃ handle' bucket', hashDelInBkt handle bucket a = some (handle', bucket') ∧
      BucketHolds handle' bucket' (as ++ bs) ∧ bucket'.expand_mult = bucket.expand_mult ∧
      SameCore handle handle' ∧ ∀ c ∉ as ++ bs, handle' c = handle c := by
  have ha : a ∈ as ++ a :: bs := by simp
  obtain ⟨del, hdel⟩ := Option.ne_none_iff_exists'.mp (h.live ha)
  have hlink : bktLinks handle a = some ⟨del.hh_prev, del.hh_next⟩ := by rw [bktLinks, hdel, Option.map_some]
  obtain ⟨hhprev, hhnext⟩ : del.hh_prev = as.getLast? ∧ del.hh_next = bs.head? := by
    simpa using hlink.symm.trans h.seg.neighbours
  have hprev : ∀ c, del.hh_prev = some c → c ∈ as := fun c hc => List.mem_of_mem_getLast? (hhprev ▸ hc)
  have hnext : ∀ c, del.hh_next = some c → c ∈ bs := fun c hc => List.mem_of_mem_head? (hhnext ▸ hc)
  let first := handle.after del.hh_prev fun hh => { hh with hh_next := del.hh_next }
  let second := first.after del.hh_next fun hh => { hh with hh_prev := del.hh_prev }
  have hfirst : handle.assign del.hh_prev (fun hh => { hh with hh_next := del.hh_next }) = some first := by
    apply assign_eq
    intro c hc
    exact h.live (by simp [hprev c hc])
  have hsecond : first.assign del.hh_next (fun hh => { hh with hh_prev := del.hh_prev }) = some second := by
    apply assign_eq
    intro c hc
    exact after_ne_none.mpr (h.live (by simp [hnext c hc]))
  have hrest : ∀ c ∈ as ++ bs, bktLinks second c =
      setPrev (setNext (bktLinks handle) del.hh_prev del.hh_next) del.hh_next del.hh_prev c := by
    intro c hc
    rw [bktLinks_after_hh_prev, bktLinks_after_hh_next]
  have hcore : SameCore handle first := map_after fun _ => rfl
  have hcore' : SameCore first second := map_after fun _ => rfl
  have hseg := h.seg.unlink h.nodup hlink hrest
  have hnodup : (as ++ bs).Nodup := h.nodup.sublist (by simp)
  have hhead : (if bucket.hh_head = some a then del.hh_next else bucket.hh_head) = as.head?.or del.hh_next := by
    have hstart := h.seg.first_eq
    have hnot : a ∉ as := fun hmem => (List.nodup_append.mp h.nodup).2.2 a hmem a (by simp) rfl
    cases as with
    | nil => exact if_pos hstart
    | cons d as =>
      have hne : bucket.hh_head ≠ some a := by
        intro heq
        have hda := Option.some.inj (hstart.symm.trans heq)
        exact hnot (hda ▸ List.mem_cons_self)
      rw [if_neg hne]
      exact hstart
  have hlast : bs.getLast?.or del.hh_prev = (as ++ bs).getLast? := by
    rw [List.getLast?_append, hhprev]
  let head := if bucket.hh_head = some a then del.hh_next else bucket.hh_head
  refine ⟨second, ⟨head, bucket.count - 1, bucket.expand_mult⟩, ?_, ⟨?_, hnodup, ?_⟩, rfl, ?_, ?_⟩
  · rw [Hash.hashDelInBkt, hdel, Option.bind_some, hfirst, Option.bind_some, hsecond, Option.map_some]
  · rw [← hlast]
    change Seg (bktLinks second) none head _ _ none
    rw [show head = as.head?.or del.hh_next from hhead]
    exact hseg
  · change bucket.count - 1 = (as ++ bs).length
    rw [h.count, List.length_append, List.length_append, List.length_cons]
    omega
  · exact hcore.trans hcore'
  · intro c hc
    have hsecond : del.hh_next ≠ some c := fun heq => hc (by simp [hnext c heq])
    have hfirst : del.hh_prev ≠ some c := fun heq => hc (by simp [hprev c heq])
    exact (after_of_ne hsecond).trans (after_of_ne hfirst)

end BucketHolds

/-- The handles that went into their new buckets, from the first one. -/
structure Moved (handle : Handles) (num_bkts ideal : ℕ) (bkt : ℕ → ℕ) (moved : List ℕ) (x : Expansion) : Prop where
  core : SameCore handle x.handle
  rest : ∀ a ∉ moved, x.handle a = handle a
  bucket : ∀ j, BucketHolds x.handle (x.buckets j) (moved.filter (bkt · = j)).reverse
  mult : ∀ j, (x.buckets j).expand_mult = if ideal < (x.buckets j).count then (x.buckets j).count / ideal else 0
  nonideal : x.nonideal_items = ∑ j ∈ Finset.range num_bkts, ((x.buckets j).count - ideal)

/-- The bucket that a handle goes to. -/
def bktOf (handle : Handles) (num_bkts a : ℕ) : ℕ := (handle a).elim 0 fun hh => hashToBkt hh.hashv num_bkts

section Expansion
variable {handle : Handles} {num_bkts ideal : ℕ} {moved as : List ℕ} {x : Expansion} {a : ℕ}

theorem moved_nil : Moved handle num_bkts ideal (bktOf handle num_bkts) [] ⟨handle, fun _ => emptyBucket, 0⟩ where
  core _ := rfl
  rest _ _ := rfl
  bucket _ := ⟨⟨rfl, rfl⟩, List.nodup_nil, rfl⟩
  mult _ := by simp [emptyBucket]
  nonideal := by simp [emptyBucket]

/-- What `moveToBkt` makes of the buckets. -/
def movedBuckets (ideal : ℕ) (buckets : ℕ → UTHashBucket) (bkt a : ℕ) : ℕ → UTHashBucket :=
  let count := (buckets bkt).count + 1
  Function.update buckets bkt ⟨some a, count, if ideal < count then count / ideal else (buckets bkt).expand_mult⟩

theorem sum_nonideal_movedBuckets {buckets : ℕ → UTHashBucket} {bkt : ℕ} (hbkt : bkt < num_bkts) :
    ∑ j ∈ Finset.range num_bkts, ((movedBuckets ideal buckets bkt a j).count - ideal) =
      (∑ j ∈ Finset.range num_bkts, ((buckets j).count - ideal)) +
        if ideal < (buckets bkt).count + 1 then 1 else 0 := by
  have hmem := Finset.mem_range.mpr hbkt
  have hother : ∀ j ∈ (Finset.range num_bkts).erase bkt,
      (movedBuckets ideal buckets bkt a j).count - ideal = (buckets j).count - ideal := by
    intro j hj
    rw [movedBuckets, Function.update_of_ne (Finset.ne_of_mem_erase hj)]
  rw [← Finset.add_sum_erase _ _ hmem, Finset.sum_congr rfl hother, ← Finset.add_sum_erase _ _ hmem]
  simp only [movedBuckets, Function.update_self]
  split_ifs <;> omega

theorem Moved.moveToBkt (h : Moved handle num_bkts ideal (bktOf handle num_bkts) moved x) (hideal : 0 < ideal)
    (hbkt : bktOf handle num_bkts a < num_bkts) (ha : handle a ≠ none) (hnot : a ∉ moved) :
    ∃ y, moveToBkt num_bkts ideal x a = some y ∧
      Moved handle num_bkts ideal (bktOf handle num_bkts) (moved ++ [a]) y := by
  obtain ⟨hh, hhh⟩ := Option.ne_none_iff_exists'.mp ha
  have hxa : x.handle a = some hh := (h.rest a hnot).trans hhh
  have hto : hashToBkt hh.hashv num_bkts = bktOf handle num_bkts a := by
    rw [bktOf, hhh, Option.elim_some]
  generalize hb : bktOf handle num_bkts a = bkt at hbkt hto
  let count := (x.buckets bkt).count + 1
  let chain (j : ℕ) := (moved.filter (bktOf handle num_bkts · = j)).reverse
  have hmem : ∀ j, ∀ c ∈ chain j, c ∈ moved ∧ bktOf handle num_bkts c = j := by
    intro j c hc
    simpa [chain] using hc
  obtain ⟨next, hnext, hfirst, hcore, hsame⟩ :=
    (h.bucket bkt).linkFirst (hxa ▸ Option.some_ne_none hh) (fun hc => hnot (hmem bkt a hc).1)
      (if ideal < count then count / ideal else (x.buckets bkt).expand_mult)
  let y : Expansion := ⟨next, movedBuckets ideal x.buckets bkt a, x.nonideal_items + if ideal < count then 1 else 0⟩
  have hself : y.buckets bkt =
      ⟨some a, count, if ideal < count then count / ideal else (x.buckets bkt).expand_mult⟩ :=
    Function.update_self _ _ _
  have hother : ∀ j ≠ bkt, y.buckets j = x.buckets j := fun j hj => Function.update_of_ne hj _ _
  refine ⟨y, ?_, h.core.trans hcore, ?_, ?_, ?_, ?_⟩
  · unfold Hash.moveToBkt
    rw [hxa, Option.bind_some]
    simp only [hto]
    rw [if_neg (by omega), hnext]
    rfl
  · intro c hc
    obtain ⟨hcm, hca⟩ := not_or.mp (List.mem_append.not.mp hc)
    have hnotin : c ∉ a :: chain bkt :=
      List.not_mem_cons_of_ne_of_not_mem (List.ne_of_not_mem_cons hca) fun hmemc => hcm (hmem bkt c hmemc).1
    exact (hsame c hnotin).trans (h.rest c hcm)
  · intro j
    by_cases hj : j = bkt
    · subst hj
      have hchain : ((moved ++ [a]).filter (bktOf handle num_bkts · = j)).reverse = a :: chain j := by
        simp [chain, hb]
      rw [hchain, hself]
      exact hfirst
    · have hchain : ((moved ++ [a]).filter (bktOf handle num_bkts · = j)).reverse = chain j := by
        have hne : ¬ bktOf handle num_bkts a = j := fun heq => hj (heq.symm.trans hb)
        simp [chain, hne]
      rw [hchain, hother j hj]
      apply (h.bucket j).congr
      intro c hc
      have hnotin : c ∉ a :: chain bkt := by
        obtain ⟨hcm, hcj⟩ := hmem j c hc
        apply List.not_mem_cons_of_ne_of_not_mem
        · exact fun heq => hnot (heq ▸ hcm)
        · exact fun hcb => hj (hcj.symm.trans (hmem bkt c hcb).2)
      rw [bktLinks, bktLinks]
      exact congrArg _ (hsame c hnotin)
  · intro j
    by_cases hj : j = bkt
    · subst hj
      have hmult := h.mult j
      rw [hself]
      simp only
      split_ifs at hmult ⊢ <;> omega
    · rw [hother j hj]
      exact h.mult j
  · change x.nonideal_items + _ = _
    rw [sum_nonideal_movedBuckets hbkt, h.nonideal]

theorem Moved.moveChain (h : Moved handle num_bkts ideal (bktOf handle num_bkts) moved x) (hideal : 0 < ideal)
    (hbkt : ∀ a, bktOf handle num_bkts a < num_bkts) {b p l : Option ℕ} (hseg : Seg (bktLinks handle) b p as l none)
    (hnodup : as.Nodup) (hdisjoint : ∀ a ∈ as, a ∉ moved) {fuel : ℕ} (hfuel : as.length ≤ fuel) :
    ∃ y, moveChain num_bkts ideal fuel x p = some y ∧
      Moved handle num_bkts ideal (bktOf handle num_bkts) (moved ++ as) y := by
  induction as generalizing moved x b p fuel with
  | nil =>
    obtain rfl : p = none := hseg.2
    exact ⟨x, by cases fuel <;> rfl, by rwa [List.append_nil]⟩
  | cons a as ih =>
    obtain ⟨hp, next, hlink, hrest⟩ := hseg
    obtain ⟨hnot, hnodup⟩ := List.nodup_cons.mp hnodup
    obtain ⟨hh, hhh, hlinks⟩ := Option.map_eq_some_iff.mp hlink
    have hmoved := hdisjoint a List.mem_cons_self
    obtain ⟨y, hy, hmy⟩ := h.moveToBkt hideal (hbkt a) (hhh ▸ Option.some_ne_none hh) hmoved
    have hdisjoint' : ∀ c ∈ as, c ∉ moved ++ [a] := by
      intro c hc hmem
      rcases List.mem_append.mp hmem with hmem | hmem
      · exact hdisjoint c (List.mem_cons_of_mem a hc) hmem
      · exact hnot (List.mem_singleton.mp hmem ▸ hc)
    cases fuel with
    | zero => simp at hfuel
    | succ fuel =>
      obtain ⟨z, hz, hmz⟩ := ih hmy hrest hnodup hdisjoint' (Nat.le_of_succ_le_succ hfuel)
      refine ⟨z, ?_, by rwa [List.append_assoc] at hmz⟩
      have hnext : hh.hh_next = next := congrArg Links.next hlinks
      rw [hp, Hash.moveChain, (h.rest a hmoved).trans hhh, Option.bind_some, hy, Option.bind_some, hnext, hz]

theorem Moved.moveChains {heads : ℕ → Option ℕ} {chain : ℕ → List ℕ} {fuel : ℕ} (hideal : 0 < ideal)
    (hbkt : ∀ a, bktOf handle num_bkts a < num_bkts) {is : List ℕ}
    (hseg : ∀ i ∈ is, Seg (bktLinks handle) none (heads i) (chain i) (chain i).getLast? none)
    (hfuel : ∀ i ∈ is, (chain i).length ≤ fuel) (hnodup : (moved ++ is.flatMap chain).Nodup)
    (h : Moved handle num_bkts ideal (bktOf handle num_bkts) moved x) :
    ∃ y, is.foldlM (fun x i => Hash.moveChain num_bkts ideal fuel x (heads i)) x = some y ∧
      Moved handle num_bkts ideal (bktOf handle num_bkts) (moved ++ is.flatMap chain) y := by
  induction is generalizing moved x with
  | nil => exact ⟨x, rfl, by simpa using h⟩
  | cons i is ih =>
    rw [List.flatMap_cons, ← List.append_assoc] at hnodup ⊢
    have hparts := List.nodup_append.mp (List.nodup_append.mp hnodup).1
    have hdisjoint : ∀ a ∈ chain i, a ∉ moved := fun a ha hmem => hparts.2.2 a hmem a ha rfl
    obtain ⟨y, hy, hmy⟩ := h.moveChain hideal hbkt (hseg i List.mem_cons_self) hparts.2.1 hdisjoint
      (hfuel i List.mem_cons_self)
    obtain ⟨z, hz, hmz⟩ := ih (fun j hj => hseg j (List.mem_cons_of_mem i hj))
      (fun j hj => hfuel j (List.mem_cons_of_mem i hj)) hnodup hmy
    refine ⟨z, ?_, hmz⟩
    rw [List.foldlM_cons, hy]
    exact hz

end Expansion
end Ivy.Hash
