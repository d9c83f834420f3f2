import Ivy.Hash.Elements
import Ivy.Lib.Keyed

/-! `HASH_FIND`, `HASH_ADD_KEYPTR` and `HASH_DELETE` of a hash that holds some elements. -/
namespace Ivy.Hash
open Doubly

section Find
variable {hashFcn : Text → UInt32} {handle : Handles} {m : Memory} {es : List (ℕ × Text)}

def keyAt (handle : Handles) (a : ℕ) : Text := (handle a).elim [] (·.key)

theorem Filed.keyAt_eq {n : ℕ × Text} (h : Filed hashFcn handle n) : keyAt handle n.1 = n.2 := by
  obtain ⟨hh, ha, hkey, -⟩ := h.exists_handle
  rw [keyAt, ha, Option.elim_some, hkey]

theorem hashFindInBkt_eq {b p l : Option ℕ} {as : List ℕ} {key : Text} {fuel : ℕ}
    (h : Seg (bktLinks handle) b p as l none)
    (hfiled : ∀ a ∈ as, ∃ hh, handle a = some hh ∧ hh.keylen = hh.key.length) (hfuel : as.length ≤ fuel) :
    hashFindInBkt handle key fuel p = some (as.find? fun a => keyAt handle a = key) := by
  induction as generalizing b p fuel with
  | nil =>
    obtain rfl : p = none := h.2
    cases fuel <;> rfl
  | cons a as ih =>
    obtain ⟨rfl, next, hlink, hrest⟩ := h
    obtain ⟨hh, ha, hkeylen⟩ := hfiled a List.mem_cons_self
    obtain ⟨hh', ha', hlinks⟩ := Option.map_eq_some_iff.mp hlink
    obtain rfl : hh = hh' := Option.some.inj (ha.symm.trans ha')
    have hnext : hh.hh_next = next := congrArg Links.next hlinks
    have hkeyAt : keyAt handle a = hh.key := by rw [keyAt, ha, Option.elim_some]
    cases fuel with
    | zero => simp at hfuel
    | succ fuel =>
      have ih := ih hrest (fun c hc => hfiled c (List.mem_cons_of_mem a hc)) (Nat.le_of_succ_le_succ hfuel)
      have hcmp : (hh.keylen = key.length ∧ hh.key.take key.length = key) ↔ hh.key = key := by
        constructor
        · intro h
          have htake := h.2
          rwa [← h.1, hkeylen, List.take_length] at htake
        · intro h
          simp [hkeylen, h]
      rw [hashFindInBkt, ha, Option.bind_some, List.find?_cons, hkeyAt, hnext]
      by_cases hkey : hh.key = key
      · rw [if_pos (hcmp.mpr hkey), hkey]
        simp
      · rw [if_neg (hcmp.not.mpr hkey), ih]
        simp [hkey]

theorem Holds.hashFind (h : Holds hashFcn m es) (hkeys : (es.map Prod.snd).Nodup) (key : Text) :
    hashFind hashFcn m key = some ((Keyed.find Prod.snd es key).map Prod.fst) := by
  rcases eq_or_ne es [] with rfl | hes
  · rw [Hash.hashFind, (h.null rfl).1]
    rfl
  · obtain ⟨tbl, htbl, happ, hbkts, hitems⟩ := h.table hes
    have hhead : ∃ a, m.head = some a := by
      cases es with
      | nil => exact absurd rfl hes
      | cons n es => exact ⟨n.1, happ.seg.1⟩
    obtain ⟨a, hhead⟩ := hhead
    have hlt : hashToBkt (hashFcn key) tbl.num_buckets < tbl.num_buckets := by
      rw [hbkts.num_buckets]
      exact hashToBkt_lt _ _
    obtain ⟨as, has, hperm⟩ := hbkts.bucket _ hlt
    have hmem : ∀ c ∈ as, ∃ n ∈ es, hashToBkt (hashFcn n.2) tbl.num_buckets = hashToBkt (hashFcn key) tbl.num_buckets ∧
        n.1 = c := fun c hc => mem_inBkt.mp (hperm.mem_iff.mp hc)
    have hfiled : ∀ c ∈ as, ∃ hh, m.handle c = some hh ∧ hh.keylen = hh.key.length := by
      intro c hc
      obtain ⟨n, hn, -, rfl⟩ := hmem c hc
      obtain ⟨hh, ha, hkey, hkeylen, -⟩ := (happ.filed n hn).exists_handle
      exact ⟨hh, ha, by rw [hkeylen, hkey]⟩
    have hfuel : as.length ≤ tbl.num_items := by
      rw [hperm.length_eq, inBkt, List.length_map, hitems]
      exact List.length_filter_le _ _
    rw [Hash.hashFind, hhead, htbl]
    refine (hashFindInBkt_eq has.seg hfiled hfuel).trans (congrArg some ?_)
    cases hfind : Keyed.find Prod.snd es key with
    | none =>
      rw [Option.map_none, List.find?_eq_none]
      intro c hc hkey
      obtain ⟨n, hn, -, rfl⟩ := hmem c hc
      rw [(happ.filed n hn).keyAt_eq] at hkey
      exact Keyed.find_eq_none.mp hfind (of_decide_eq_true hkey ▸ List.mem_map_of_mem hn)
    | some n =>
      obtain ⟨hn, hkey⟩ := (Keyed.find_eq_some hkeys).mp hfind
      have hnas : n.1 ∈ as := hperm.mem_iff.mpr (mem_inBkt.mpr ⟨n, hn, by rw [hkey], rfl⟩)
      -- no other element of the bucket has the key
      have honly : ∀ c ∈ as, keyAt m.handle c = key → c = n.1 := by
        intro c hc hck
        obtain ⟨n', hn', -, rfl⟩ := hmem c hc
        rw [(happ.filed n' hn').keyAt_eq] at hck
        rw [List.inj_on_of_nodup_map hkeys hn' hn (hck.trans hkey.symm)]
      cases hfound : as.find? fun c => keyAt m.handle c = key with
      | none =>
        have hnot := List.find?_eq_none.mp hfound n.1 hnas
        rw [(happ.filed n hn).keyAt_eq] at hnot
        exact absurd hkey (by simpa using hnot)
      | some c =>
        have hck := List.find?_some hfound
        rw [honly c (List.mem_of_find?_eq_some hfound) (of_decide_eq_true hck), Option.map_some]

end Find

section Add
variable {hashFcn : Text → UInt32} {handle handle' : Handles} {head : Option ℕ} {tail : ℕ} {m : Memory}
  {es : List (ℕ × Text)} {add : ℕ} {key : Text}

theorem AppHolds.congr (h : AppHolds hashFcn handle head tail es)
    (hsame : ∀ a ∈ es.map Prod.fst, handle' a = handle a) : AppHolds hashFcn handle' head tail es where
  seg := h.seg.congr fun a ha => congrArg _ (hsame a ha)
  nodup := h.nodup
  filed n hn := by
    rw [Filed, hsame n.1 (List.mem_map_of_mem hn)]
    exact h.filed n hn

theorem AppHolds.getLast?_eq (h : AppHolds hashFcn handle head tail es) :
    (es.map Prod.fst).getLast? = some tail := by simpa using h.seg.last_eq.symm

theorem AppHolds.head_eq (h : AppHolds hashFcn handle head tail es) : head = (es.map Prod.fst).head? := by
  simpa using h.seg.first_eq

theorem AppHolds.live (h : AppHolds hashFcn handle head tail es) {a : ℕ} (ha : a ∈ es.map Prod.fst) :
    handle a ≠ none := live_of_appLinks (live_of_seg h.seg ha)

theorem AppHolds.linkAfter (h : AppHolds hashFcn handle head tail es) (hadd : add ∉ es.map Prod.fst)
    {hh : UTHashHandle} (hself : handle add = some hh) (hnext : hh.next = none)
    (hfiling : filing hh = (key, key.length, hashFcn key)) :
    ∃ first handle', handle.assign (some tail) (fun hh => { hh with next := some add }) = some first ∧
      first.assign (some add) (fun hh => { hh with prev := some tail }) = some handle' ∧
      AppHolds hashFcn handle' head add (es ++ [(add, key)]) ∧ ∀ c, bktLinks handle' c = bktLinks handle c := by
  have htail : tail ∈ es.map Prod.fst := List.mem_of_mem_getLast? h.getLast?_eq
  have hne : some tail ≠ some add := fun heq => hadd (Option.some.inj heq ▸ htail)
  let first := handle.after (some tail) fun hh => { hh with next := some add }
  let second := first.after (some add) fun hh => { hh with prev := some tail }
  have hfirst : handle.assign (some tail) (fun hh => { hh with next := some add }) = some first := by
    apply assign_eq
    intro c hc
    exact Option.some.inj hc ▸ h.live htail
  have hsecond : first.assign (some add) (fun hh => { hh with prev := some tail }) = some second := by
    apply assign_eq
    intro c hc
    obtain rfl := Option.some.inj hc
    rw [after_ne_none, hself]
    exact Option.some_ne_none hh
  have hsecondadd : second add = some { hh with prev := some tail } := by
    have hsame : second add = (first add).map fun hh => { hh with prev := some tail } := after_self
    have hfirstadd : first add = handle add := after_of_ne hne
    rw [hsame, hfirstadd, hself, Option.map_some]
  have hlink : appLinks second add = some ⟨some tail, none⟩ := by
    rw [appLinks, hsecondadd, Option.map_some, hnext]
  have hrest : ∀ c ∈ es.map Prod.fst, appLinks second c = setNext (appLinks handle) (some tail) (some add) c := by
    intro c hc
    have hca : some add ≠ some c := fun heq => hadd (Option.some.inj heq ▸ hc)
    have hsame : second c = first c := after_of_ne hca
    rw [← appLinks_after_next, appLinks, hsame]
    rfl
  have hseg := h.seg.concat h.nodup hlink hrest
  have hfiled (c : ℕ) : (second c).map filing = (handle c).map filing := by
    have hfirst : ∀ c, (first c).map filing = (handle c).map filing := map_after fun _ => rfl
    have hsecond : ∀ c, (second c).map filing = (first c).map filing := map_after fun _ => rfl
    exact (hsecond c).trans (hfirst c)
  have hhead : (es.map Prod.fst).head?.or (some add) = head := by
    rw [h.head_eq]
    cases hes : es with
    | nil => simp [hes] at htail
    | cons n es => rfl
  refine ⟨first, second, hfirst, hsecond, ⟨?_, ?_, ?_⟩, fun c => ?_⟩
  · rw [List.map_append]
    exact hhead ▸ hseg
  · rw [List.map_append]
    exact h.nodup.append (List.nodup_singleton _) (by simpa using hadd)
  · intro n hn
    rw [Filed, hfiled]
    rcases List.mem_append.mp hn with hn | hn
    · exact h.filed n hn
    · rw [List.mem_singleton.mp hn, hself, Option.map_some, hfiling]
  · have hfirst : ∀ c, bktLinks first c = bktLinks handle c := map_after fun _ => rfl
    have hsecond : ∀ c, bktLinks second c = bktLinks first c := map_after fun _ => rfl
    exact (hsecond c).trans (hfirst c)

/-- The table that a new element is linked into. -/
def tableFor (m : Memory) (add : ℕ) : UTHashTable :=
  m.tbl.elim (hashMakeTable add) fun tbl => { tbl with tail := add }

theorem linkLast_spec (h : Holds hashFcn m es) (hadd : add ∉ es.map Prod.fst) (hh : UTHashHandle)
    (hlinks : hh.prev = none ∧ hh.next = none) (hfiling : filing hh = (key, key.length, hashFcn key)) :
    ∃ head handle, linkLast { m with handle := Function.update m.handle add (some hh) } add =
        some (head, handle, tableFor m add) ∧
      AppHolds hashFcn handle (some head) (tableFor m add).tail (es ++ [(add, key)]) ∧
      BktsHold hashFcn handle (tableFor m add) es ∧ (tableFor m add).num_items = es.length := by
  let alloc : Handles := Function.update m.handle add (some hh)
  have halloc : ∀ c ∈ es.map Prod.fst, alloc c = m.handle c :=
    fun c hc => Function.update_of_ne (ne_of_mem_of_not_mem hc hadd) _ _
  have hself : alloc add = some hh := Function.update_self _ _ _
  rcases eq_or_ne es [] with rfl | hes
  · obtain ⟨hhead, htbl⟩ := h.null rfl
    rw [linkLast, hhead, tableFor, htbl]
    refine ⟨add, alloc, rfl, ⟨⟨rfl, none, ?_, rfl, rfl⟩, by simp, ?_⟩, ⟨rfl, fun i _ => ?_⟩, rfl⟩
    · change (alloc add).map _ = _
      rw [hself, Option.map_some, hlinks.1, hlinks.2]
    · intro n hn
      obtain rfl := List.mem_singleton.mp hn
      rw [Filed, hself, Option.map_some, hfiling]
    · exact ⟨[], ⟨⟨rfl, rfl⟩, List.nodup_nil, rfl⟩, .refl _⟩
  · obtain ⟨tbl, htbl, happ, hbkts, hitems⟩ := h.table hes
    obtain ⟨first, handle, hfirst, hsecond, happ', hsame⟩ := (happ.congr halloc).linkAfter hadd hself hlinks.2 hfiling
    obtain ⟨head, hhead⟩ : ∃ head, m.head = some head := by
      cases es with
      | nil => exact absurd rfl hes
      | cons n es => exact ⟨n.1, happ.seg.1⟩
    have hkept : BktsHold hashFcn handle tbl es := hbkts.congr fun c hc => by
      rw [hsame c, bktLinks, halloc c hc, bktLinks]
    rw [tableFor, htbl]
    refine ⟨head, handle, ?_, hhead ▸ happ', ⟨hkept.num_buckets, hkept.bucket⟩, hitems⟩
    rw [linkLast, hhead]
    change (alloc.assign _ _).bind _ = _
    rw [hfirst, Option.bind_some, hsecond, Option.map_some]
    rfl

theorem Holds.hashAddKeyptr (h : Holds hashFcn m es) (hadd : add ∉ es.map Prod.fst) (hkey : key.length < 2 ^ 32)
    (hfew : es.length + 1 < 2 ^ 32) (hroom : ∀ tbl, m.tbl = some tbl → tbl.num_buckets * 2 < 2 ^ 32) :
    ∃ m' tbl, hashAddKeyptr hashFcn m key add = some m' ∧ m'.tbl = some tbl ∧ Holds hashFcn m' (es ++ [(add, key)]) ∧
      AddedTo { tableFor m add with num_items := (tableFor m add).num_items + 1 }
        (hashToBkt (hashFcn key) (tableFor m add).num_buckets) add tbl := by
  let hh : UTHashHandle := ⟨none, none, none, none, key, u32 key.length, hashFcn key⟩
  have hfiling : filing hh = (key, key.length, hashFcn key) := by
    simp only [filing, hh, u32_of_lt hkey]
  obtain ⟨head, handle, hlink, happ, hbkts, hitems⟩ := linkLast_spec h hadd hh ⟨rfl, rfl⟩ hfiling
  have hroom' : (tableFor m add).num_buckets * 2 < 2 ^ 32 := by
    cases htbl : m.tbl with
    | none => simp [tableFor, htbl, hashMakeTable]
    | some tbl => simpa [tableFor, htbl] using hroom tbl htbl
  let tbl : UTHashTable := { tableFor m add with num_items := (tableFor m add).num_items + 1 }
  have hbkts' : BktsHold hashFcn handle tbl es := ⟨hbkts.num_buckets, hbkts.bucket⟩
  have hitems' : tbl.num_items = es.length + 1 := by rw [← hitems]
  obtain ⟨handle', tbl', hadded, hcore, hbkts'', hto⟩ := hashAddToBkt_spec happ hbkts' hitems' hroom'
  have htail : tbl'.tail = (tableFor m add).tail ∧ tbl'.num_items = tbl.num_items := by
    rcases hto with ⟨-, hexp⟩ | ⟨-, heq⟩
    · exact ⟨hexp.tail, hexp.num_items⟩
    · rw [heq]
      exact ⟨rfl, rfl⟩
  refine ⟨⟨some head, handle', some tbl'⟩, tbl', ?_, rfl, ⟨by simp, fun _ => ⟨tbl', rfl, ?_, hbkts'', ?_⟩⟩, hto⟩
  · have hnot : ¬ 2 ^ 32 ≤ (tableFor m add).num_items + 1 := by omega
    change (linkLast { m with handle := Function.update m.handle add (some hh) } add).bind _ = _
    rw [hlink, Option.bind_some]
    change (if 2 ^ 32 ≤ (tableFor m add).num_items + 1 then none else (hashAddToBkt handle tbl _ add).map _) = _
    rw [if_neg hnot, hadded]
    rfl
  · rw [htail.1]
    exact happ.sameCore hcore
  · rw [htail.2, hitems', List.length_append, List.length_singleton]

end Add

structure Shrunk (tbl tbl' : UTHashTable) : Prop where
  num_buckets : tbl'.num_buckets = tbl.num_buckets
  noexpand : tbl'.noexpand = tbl.noexpand
  ideal : tbl'.ideal_chain_maxlen = tbl.ideal_chain_maxlen
  buckets : ∀ i, (tbl'.buckets i).count ≤ (tbl.buckets i).count ∧
    (tbl'.buckets i).expand_mult = (tbl.buckets i).expand_mult

section Delete
variable {hashFcn : Text → UInt32} {handle handle' : Handles} {head : Option ℕ} {tail : ℕ} {m : Memory}
  {pre post : List (ℕ × Text)} {n : ℕ × Text} {tbl : UTHashTable}

theorem AppHolds.unlink (h : AppHolds hashFcn handle head tail (pre ++ n :: post)) {del : UTHashHandle}
    (hdel : handle n.1 = some del) (hkept : pre ++ post ≠ []) :
    ∃ tail' first handle', (if n.1 = tail then del.prev else some tail) = some tail' ∧
      handle.assign del.prev (fun hh => { hh with next := del.next }) = some first ∧
      first.assign del.next (fun hh => { hh with prev := del.prev }) = some handle' ∧
      AppHolds hashFcn handle' (if del.prev = none then del.next else head) tail' (pre ++ post) ∧
      (∀ c, bktLinks handle' c = bktLinks handle c) ∧ ∀ c ∉ (pre ++ post).map Prod.fst, handle' c = handle c := by
  have hlink : appLinks handle n.1 = some ⟨del.prev, del.next⟩ := by rw [appLinks, hdel, Option.map_some]
  have hmap : (pre ++ n :: post).map Prod.fst = pre.map Prod.fst ++ n.1 :: post.map Prod.fst := by simp
  have hseg := h.seg
  have hnodup := h.nodup
  have hlast := h.getLast?_eq
  rw [hmap] at hseg hnodup hlast
  obtain ⟨hprev, hnext⟩ : del.prev = (pre.map Prod.fst).getLast? ∧ del.next = (post.map Prod.fst).head? := by
    simpa using hlink.symm.trans hseg.neighbours
  have hprevmem : ∀ c, del.prev = some c → c ∈ pre.map Prod.fst :=
    fun c hc => List.mem_of_mem_getLast? (hprev ▸ hc)
  have hnextmem : ∀ c, del.next = some c → c ∈ post.map Prod.fst :=
    fun c hc => List.mem_of_mem_head? (hnext ▸ hc)
  have hlive : ∀ c ∈ pre.map Prod.fst ++ post.map Prod.fst, handle c ≠ none := by
    intro c hc
    apply h.live
    rw [hmap]
    rcases List.mem_append.mp hc with hc | hc <;> simp [hc]
  let first := handle.after del.prev fun hh => { hh with next := del.next }
  let second := first.after del.next fun hh => { hh with prev := del.prev }
  have hfirst : handle.assign del.prev (fun hh => { hh with next := del.next }) = some first := by
    apply assign_eq
    exact fun c hc => hlive c (List.mem_append_left _ (hprevmem c hc))
  have hsecond : first.assign del.next (fun hh => { hh with prev := del.prev }) = some second := by
    apply assign_eq
    intro c hc
    exact after_ne_none.mpr (hlive c (List.mem_append_right _ (hnextmem c hc)))
  have hrest : ∀ c ∈ pre.map Prod.fst ++ post.map Prod.fst, appLinks second c =
      setPrev (setNext (appLinks handle) del.prev del.next) del.next del.prev c := by
    intro c _
    rw [appLinks_after_prev, appLinks_after_next]
  have hunlinked := hseg.unlink hnodup hlink hrest
  have htail : (if n.1 = tail then del.prev else some tail) = (post.map Prod.fst).getLast?.or del.prev := by
    cases hpost : (post.map Prod.fst).getLast? with
    | none =>
      have hnil := List.getLast?_eq_none_iff.mp hpost
      rw [hnil, List.getLast?_concat] at hlast
      rw [if_pos (Option.some.inj hlast), Option.none_or]
    | some c =>
      rw [List.getLast?_append, List.getLast?_cons, hpost] at hlast
      have hct : c = tail := by simpa using hlast
      have hne : n.1 ≠ tail := by
        intro heq
        have hmem : n.1 ∈ post.map Prod.fst := by
          rw [heq, ← hct]
          exact List.mem_of_mem_getLast? hpost
        exact (List.nodup_cons.mp (List.nodup_append.mp hnodup).2.1).1 hmem
      rw [if_neg hne, Option.some_or, hct]
  have hhead : (if del.prev = none then del.next else head) = (pre.map Prod.fst).head?.or del.next := by
    have hstart := hseg.first_eq
    cases hpre : pre.map Prod.fst with
    | nil =>
      rw [hpre, List.getLast?_nil] at hprev
      rw [if_pos hprev]
      rfl
    | cons c cs =>
      rw [hpre] at hprev hstart
      have hne : del.prev ≠ none := by
        rw [hprev, Ne, List.getLast?_eq_none_iff]
        exact List.cons_ne_nil c cs
      rw [if_neg hne]
      exact hstart
  obtain ⟨tail', htail'⟩ : ∃ tail', (post.map Prod.fst).getLast?.or del.prev = some tail' := by
    rw [hprev, ← List.getLast?_append, ← List.map_append]
    exact ⟨_, List.getLast?_eq_some_getLast (by simpa using hkept)⟩
  refine ⟨tail', first, second, htail.trans htail', hfirst, hsecond, ⟨?_, ?_, ?_⟩, ?_, ?_⟩
  · rw [hhead, List.map_append, ← htail']
    exact hunlinked
  · rw [List.map_append]
    exact hnodup.sublist (by simp)
  · intro c hc
    have hkeep₁ : ∀ c, (first c).map filing = (handle c).map filing := map_after fun _ => rfl
    have hkeep₂ : ∀ c, (second c).map filing = (first c).map filing := map_after fun _ => rfl
    have hmem : c ∈ pre ++ n :: post := by
      rcases List.mem_append.mp hc with hc | hc <;> simp [hc]
    exact ((hkeep₂ c.1).trans (hkeep₁ c.1)).trans (h.filed c hmem)
  · intro c
    have hkeep₁ : ∀ c, bktLinks first c = bktLinks handle c := map_after fun _ => rfl
    have hkeep₂ : ∀ c, bktLinks second c = bktLinks first c := map_after fun _ => rfl
    exact (hkeep₂ c).trans (hkeep₁ c)
  · intro c hc
    rw [List.map_append] at hc
    have hne₁ : del.prev ≠ some c := fun heq => hc (List.mem_append_left _ (hprevmem c heq))
    have hne₂ : del.next ≠ some c := fun heq => hc (List.mem_append_right _ (hnextmem c heq))
    exact (after_of_ne hne₂).trans (after_of_ne hne₁)

theorem BktsHold.unlink (h : BktsHold hashFcn handle tbl (pre ++ n :: post))
    (hnodup : ((pre ++ n :: post).map Prod.fst).Nodup) :
    ∃ handle' bucket, hashDelInBkt handle (tbl.buckets (hashToBkt (hashFcn n.2) tbl.num_buckets)) n.1 =
        some (handle', bucket) ∧ SameCore handle handle' ∧
      (∀ c ∉ (pre ++ post).map Prod.fst, handle' c = handle c) ∧
      BktsHold hashFcn handle'
        { tbl with buckets := Function.update tbl.buckets (hashToBkt (hashFcn n.2) tbl.num_buckets) bucket }
        (pre ++ post) ∧
      bucket.count ≤ (tbl.buckets (hashToBkt (hashFcn n.2) tbl.num_buckets)).count ∧
      bucket.expand_mult = (tbl.buckets (hashToBkt (hashFcn n.2) tbl.num_buckets)).expand_mult := by
  generalize hb : hashToBkt (hashFcn n.2) tbl.num_buckets = bkt
  have hbkt : bkt < tbl.num_buckets := by
    rw [← hb, h.num_buckets]
    exact hashToBkt_lt _ _
  obtain ⟨cs, hcs, hperm⟩ := h.bucket bkt hbkt
  have hmem : n.1 ∈ cs := hperm.mem_iff.mpr (mem_inBkt.mpr ⟨n, by simp, hb, rfl⟩)
  obtain ⟨as, bs, rfl⟩ := List.append_of_mem hmem
  obtain ⟨handle', bucket, hdel, hholds, hmult, hcore, hsame⟩ := hcs.hashDelInBkt
  have hrest : (as ++ bs).Perm (inBkt hashFcn tbl.num_buckets (pre ++ post) bkt) := by
    rw [inBkt_append, inBkt_cons, if_pos hb] at hperm
    rw [inBkt_append]
    exact (List.perm_middle.symm.trans (hperm.trans List.perm_middle)).cons_inv
  refine ⟨handle', bucket, hdel, hcore, ?_, ⟨h.num_buckets, fun i hi => ?_⟩, ?_, hmult⟩
  · intro c hc
    exact hsame c fun hmem => hc (inBkt_subset (hrest.mem_iff.mp hmem))
  · change ∃ ds, BucketHolds handle' (Function.update tbl.buckets bkt bucket i) ds ∧
      ds.Perm (inBkt hashFcn tbl.num_buckets (pre ++ post) i)
    by_cases hib : i = bkt
    · subst hib
      rw [Function.update_self]
      exact ⟨as ++ bs, hholds, hrest⟩
    · rw [Function.update_of_ne hib]
      obtain ⟨ds, hds, hperm'⟩ := h.bucket i hi
      have hnew : inBkt hashFcn tbl.num_buckets (pre ++ n :: post) i =
          inBkt hashFcn tbl.num_buckets (pre ++ post) i := by
        rw [inBkt_append, inBkt_append, inBkt_cons, hb, if_neg (Ne.symm hib)]
      refine ⟨ds, hds.congr fun c hc => ?_, hnew ▸ hperm'⟩
      have hnotin : c ∉ as ++ bs := by
        intro hcs
        have hother : c ∈ inBkt hashFcn tbl.num_buckets (pre ++ n :: post) bkt := by
          apply hperm.mem_iff.mp
          rcases List.mem_append.mp hcs with hcs | hcs <;> simp [hcs]
        exact hib (inBkt_unique hnodup (hperm'.mem_iff.mp hc) hother)
      rw [bktLinks, bktLinks, hsame c hnotin]
  · rw [hholds.count, hcs.count, List.length_append, List.length_append, List.length_cons]
    omega

theorem Holds.hashDelete (h : Holds hashFcn m (pre ++ n :: post)) :
    ∃ m', hashDelete m n.1 = some m' ∧ Holds hashFcn m' (pre ++ post) ∧
      (∀ c ∉ (pre ++ post).map Prod.fst, m'.handle c = m.handle c) ∧
      ∀ tbl' ∈ m'.tbl, ∃ tbl ∈ m.tbl, Shrunk tbl tbl' := by
  obtain ⟨tbl, htbl, happ, hbkts, hitems⟩ := h.table (by simp)
  obtain ⟨del, hdel, -, -, hhashv⟩ := (happ.filed n (by simp)).exists_handle
  have hlink : appLinks m.handle n.1 = some ⟨del.prev, del.next⟩ := by rw [appLinks, hdel, Option.map_some]
  have hseg := happ.seg
  rw [List.map_append, List.map_cons] at hseg
  obtain ⟨hprev, hnext⟩ : del.prev = (pre.map Prod.fst).getLast? ∧ del.next = (post.map Prod.fst).head? := by
    simpa using hlink.symm.trans hseg.neighbours
  rw [Hash.hashDelete, htbl, Option.bind_some, hdel, Option.bind_some]
  split_ifs with halone
  · -- the last element takes the table with it
    have hpre : pre = [] := by
      rw [hprev, List.getLast?_eq_none_iff, List.map_eq_nil_iff] at halone
      exact halone.1
    have hpost : post = [] := by
      rw [hnext, List.head?_eq_none_iff, List.map_eq_nil_iff] at halone
      exact halone.2
    subst hpre hpost
    exact ⟨_, rfl, ⟨fun _ => ⟨rfl, rfl⟩, fun hne => absurd rfl hne⟩, fun _ _ => rfl, by simp⟩
  · have hkept : pre ++ post ≠ [] := by
      intro hnil
      obtain ⟨hpre, hpost⟩ := List.append_eq_nil_iff.mp hnil
      subst hpre hpost
      exact halone ⟨hprev, hnext⟩
    obtain ⟨tail, first, second, htail, hfirst, hsecond, happ', hlinks, hsame⟩ := happ.unlink hdel hkept
    have hbkts' : BktsHold hashFcn second tbl (pre ++ n :: post) := hbkts.congr fun c _ => hlinks c
    obtain ⟨handle', bucket, hbucket, hcore, hsame', hheld, hcount, hmult⟩ := hbkts'.unlink happ.nodup
    let tbl' : UTHashTable := { tbl with
      buckets := Function.update tbl.buckets (hashToBkt (hashFcn n.2) tbl.num_buckets) bucket
      num_items := tbl.num_items - 1
      tail := tail }
    refine ⟨⟨if del.prev = none then del.next else m.head, handle', some tbl'⟩, ?_, ⟨?_, fun _ => ⟨tbl', rfl, ?_⟩⟩, ?_, ?_⟩
    · rw [unlinkElement, htail, Option.bind_some, hfirst, Option.bind_some, hsecond, Option.bind_some]
      simp only [hhashv]
      rw [hbucket]
      rfl
    · exact fun hnil => absurd hnil hkept
    · refine ⟨happ'.sameCore hcore, ⟨hheld.num_buckets, hheld.bucket⟩, ?_⟩
      change tbl.num_items - 1 = _
      rw [hitems, List.length_append, List.length_append, List.length_cons]
      omega
    · exact fun c hc => (hsame' c hc).trans (hsame c hc)
    · intro t ht
      obtain rfl := Option.some.inj ht
      refine ⟨tbl, rfl, rfl, rfl, rfl, fun i => ?_⟩
      by_cases hi : i = hashToBkt (hashFcn n.2) tbl.num_buckets
      · rw [hi]
        simp only [tbl', Function.update_self]
        exact ⟨hcount, hmult⟩
      · simp only [tbl', Function.update_of_ne hi]
        exact ⟨le_rfl, trivial⟩

theorem Holds.free {es : List (ℕ × Text)} (h : Holds hashFcn m es) {a : ℕ} (ha : a ∉ es.map Prod.fst) :
    Holds hashFcn (m.free a) es where
  null := h.null
  table hes := by
    obtain ⟨tbl, htbl, happ, hbkts, hitems⟩ := h.table hes
    have hsame : ∀ c ∈ es.map Prod.fst, (m.free a).handle c = m.handle c :=
      fun c hc => Function.update_of_ne (ne_of_mem_of_not_mem hc ha) _ _
    have hbkts' : BktsHold hashFcn (m.free a).handle tbl es := hbkts.congr fun c hc => by
      rw [bktLinks, hsame c hc, bktLinks]
    exact ⟨tbl, htbl, happ.congr hsame, hbkts', hitems⟩

end Delete
end Ivy.Hash
