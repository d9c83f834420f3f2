import Ivy.Lib.Doubly
import Ivy.Protocol.Text
import Mathlib.Algebra.BigOperators.Group.Finset.Basic

/-! The macros of `uthash.h` that the dictionary of regexps uses, over its memory. A hash handle
and the element that it is in have the same address. What the C standard leaves undefined, a read of
a freed handle among it, has no result. -/
namespace Ivy.Hash

def u32 (n : ℕ) : ℕ := n % 2 ^ 32

theorem u32_of_lt {n : ℕ} (h : n < 2 ^ 32) : u32 n = n := Nat.mod_eq_of_lt h

/-- `UT_hash_handle`; `key` is the text that the pointer leads to. All handles share one table. -/
structure UTHashHandle where
  prev : Option ℕ
  next : Option ℕ
  hh_prev : Option ℕ
  hh_next : Option ℕ
  key : Text
  keylen : ℕ
  hashv : UInt32

structure UTHashBucket where
  hh_head : Option ℕ
  count : ℕ
  expand_mult : ℕ

/-- `UT_hash_table`; the first `num_buckets` of the buckets are allocated. -/
structure UTHashTable where
  buckets : ℕ → UTHashBucket
  num_buckets : ℕ
  log2_num_buckets : ℕ
  num_items : ℕ
  tail : ℕ
  ideal_chain_maxlen : ℕ
  nonideal_items : ℕ
  ineff_expands : ℕ
  noexpand : Bool

/-- A `char` that is made `unsigned`: its sign is kept. -/
def char (b : UInt8) : UInt32 := b.toInt8.toInt32.toUInt32

def hashJenMix (a b c : UInt32) : UInt32 × UInt32 × UInt32 :=
  let a := (a - b - c) ^^^ (c >>> 13)
  let b := (b - c - a) ^^^ (a <<< 8)
  let c := (c - a - b) ^^^ (b >>> 13)
  let a := (a - b - c) ^^^ (c >>> 12)
  let b := (b - c - a) ^^^ (a <<< 16)
  let c := (c - a - b) ^^^ (b >>> 5)
  let a := (a - b - c) ^^^ (c >>> 3)
  let b := (b - c - a) ^^^ (a <<< 10)
  let c := (c - a - b) ^^^ (b >>> 15)
  (a, b, c)

def jenWord (k : Text) (i : ℕ) : UInt32 :=
  char (k.getD i 0) + (char (k.getD (i + 1) 0) <<< 8) + (char (k.getD (i + 2) 0) <<< 16) +
    (char (k.getD (i + 3) 0) <<< 24)

/-- The blocks of twelve bytes, and what is left of the key. -/
def jenBlocks (i j hashv : UInt32) : ℕ → Text → UInt32 × UInt32 × UInt32 × Text
  | 0, key => (i, j, hashv, key)
  | blocks + 1, key =>
    let (i, j, hashv) := hashJenMix (i + jenWord key 0) (j + jenWord key 4) (hashv + jenWord key 8)
    jenBlocks i j hashv blocks (key.drop 12)

/-- `HASH_JEN`; the bytes that the `switch` finds missing count as zero. -/
def hashJen (key : Text) : UInt32 :=
  let (i, j, hashv, k) := jenBlocks 0x9e3779b9 0x9e3779b9 0xfeedbeef (key.length / 12) key
  let hashv := hashv + UInt32.ofNat key.length
  let hashv := hashv + (char (k.getD 10 0) <<< 24) + (char (k.getD 9 0) <<< 16) + (char (k.getD 8 0) <<< 8)
  (hashJenMix (i + jenWord k 0) (j + jenWord k 4) hashv).2.2

/-- The handles of the elements that are allocated. -/
abbrev Handles := ℕ → Option UTHashHandle

/-- The variable that points to the first element, and what it leads to. -/
structure Memory where
  head : Option ℕ
  handle : Handles
  tbl : Option UTHashTable

/-- An assignment to a handle through a pointer, where it is not null. -/
def Handles.assign (handle : Handles) (p : Option ℕ) (f : UTHashHandle → UTHashHandle) : Option Handles :=
  match p with
  | none => some handle
  | some a => (handle a).map fun hh => Function.update handle a (some (f hh))

def hashToBkt (hashv : UInt32) (num_bkts : ℕ) : ℕ := hashv.toNat &&& (num_bkts - 1)

def emptyBucket : UTHashBucket := ⟨none, 0, 0⟩

def hashMakeTable (head : ℕ) : UTHashTable := ⟨fun _ => emptyBucket, 32, 5, 0, head, 0, 0, 0, false⟩

def hashFindInBkt (handle : Handles) (key : Text) : ℕ → Option ℕ → Option (Option ℕ)
  | _, none => some none
  | 0, some _ => none
  | fuel + 1, some a => (handle a).bind fun out =>
    if out.keylen = key.length ∧ out.key.take key.length = key then some (some a)
    else hashFindInBkt handle key fuel out.hh_next

/-- What the loops of `HASH_EXPAND_BUCKETS` change. -/
structure Expansion where
  handle : Handles
  buckets : ℕ → UTHashBucket
  nonideal_items : ℕ

def linkFirst (handle : Handles) (hh_head : Option ℕ) (thh : ℕ) : Option Handles :=
  (handle.assign (some thh) fun hh => { hh with hh_prev := none, hh_next := hh_head }).bind fun handle =>
    Handles.assign handle hh_head fun hh => { hh with hh_prev := some thh }

def moveToBkt (num_bkts ideal_chain_maxlen : ℕ) (x : Expansion) (thh : ℕ) : Option Expansion :=
  (x.handle thh).bind fun hh =>
    let bkt := hashToBkt hh.hashv num_bkts
    let newbkt := x.buckets bkt
    let count := newbkt.count + 1
    let nonideal := ideal_chain_maxlen < count
    if nonideal ∧ ideal_chain_maxlen = 0 then none
    else
      let expand_mult := if nonideal then count / ideal_chain_maxlen else newbkt.expand_mult
      (linkFirst x.handle newbkt.hh_head thh).map fun handle =>
        { handle := handle
          buckets := Function.update x.buckets bkt ⟨some thh, count, expand_mult⟩
          nonideal_items := x.nonideal_items + if nonideal then 1 else 0 }

def moveChain (num_bkts ideal_chain_maxlen : ℕ) : ℕ → Expansion → Option ℕ → Option Expansion
  | _, x, none => some x
  | 0, _, some _ => none
  | fuel + 1, x, some thh => (x.handle thh).bind fun hh =>
    (moveToBkt num_bkts ideal_chain_maxlen x thh).bind fun x =>
      moveChain num_bkts ideal_chain_maxlen fuel x hh.hh_next

/-- `HASH_EXPAND_BUCKETS`; there are no tables of `2 ^ 32` buckets. -/
def hashExpandBuckets (handle : Handles) (tbl : UTHashTable) : Option (Handles × UTHashTable) :=
  let num_buckets := tbl.num_buckets * 2
  let ideal_chain_maxlen := (tbl.num_items >>> (tbl.log2_num_buckets + 1)) +
    if tbl.num_items &&& (num_buckets - 1) = 0 then 0 else 1
  if 2 ^ 32 ≤ num_buckets then none
  else
    ((List.range tbl.num_buckets).foldlM (fun x i =>
      moveChain num_buckets ideal_chain_maxlen tbl.num_items x (tbl.buckets i).hh_head)
        ⟨handle, fun _ => emptyBucket, 0⟩).map fun x =>
      let ineff_expands := if tbl.num_items >>> 1 < x.nonideal_items then tbl.ineff_expands + 1 else 0
      (x.handle, { tbl with
        buckets := x.buckets
        num_buckets := num_buckets
        log2_num_buckets := tbl.log2_num_buckets + 1
        ideal_chain_maxlen := ideal_chain_maxlen
        nonideal_items := x.nonideal_items
        ineff_expands := ineff_expands
        noexpand := tbl.noexpand || 1 < ineff_expands })

def hashAddToBkt (handle : Handles) (tbl : UTHashTable) (bkt addhh : ℕ) : Option (Handles × UTHashTable) :=
  let head := tbl.buckets bkt
  let count := head.count + 1
  (linkFirst handle head.hh_head addhh).bind fun handle =>
    let tbl := { tbl with buckets := Function.update tbl.buckets bkt ⟨some addhh, count, head.expand_mult⟩ }
    if u32 ((head.expand_mult + 1) * 10) ≤ count ∧ tbl.noexpand = false then hashExpandBuckets handle tbl
    else some (handle, tbl)

section
variable (hashFcn : Text → UInt32) (m : Memory)

/-- `HASH_FIND` of a key without zero byte, with its length. -/
def hashFind (key : Text) : Option (Option ℕ) :=
  match m.head with
  | none => some none
  | some _ => m.tbl.bind fun tbl =>
    hashFindInBkt m.handle key tbl.num_items (tbl.buckets (hashToBkt (hashFcn key) tbl.num_buckets)).hh_head

/-- The first element gets a table, another one is linked after the last. -/
def linkLast (add : ℕ) : Option (ℕ × Handles × UTHashTable) :=
  match m.head with
  | none => some (add, m.handle, hashMakeTable add)
  | some head => m.tbl.bind fun tbl =>
    (m.handle.assign (some tbl.tail) fun hh => { hh with next := some add }).bind fun handle =>
      (Handles.assign handle (some add) fun hh => { hh with prev := some tbl.tail }).map fun handle =>
        (head, handle, { tbl with tail := add })

/-- `HASH_ADD_KEYPTR` of an element that was just allocated; there are no tables of `2 ^ 32` elements. -/
def hashAddKeyptr (key : Text) (add : ℕ) : Option Memory :=
  let hh : UTHashHandle := ⟨none, none, none, none, key, u32 key.length, hashFcn key⟩
  (linkLast { m with handle := Function.update m.handle add (some hh) } add).bind fun (head, handle, tbl) =>
    if 2 ^ 32 ≤ tbl.num_items + 1 then none
    else
      (hashAddToBkt handle { tbl with num_items := tbl.num_items + 1 }
        (hashToBkt (hashFcn key) tbl.num_buckets) add).map fun (handle, tbl) => ⟨some head, handle, some tbl⟩

end

def hashDelInBkt (handle : Handles) (head : UTHashBucket) (hh_del : ℕ) : Option (Handles × UTHashBucket) :=
  (handle hh_del).bind fun del =>
    (Handles.assign handle del.hh_prev fun hh => { hh with hh_next := del.hh_next }).bind fun handle =>
      (handle.assign del.hh_next fun hh => { hh with hh_prev := del.hh_prev }).map fun handle =>
        (handle, { head with
          hh_head := if head.hh_head = some hh_del then del.hh_next else head.hh_head
          count := head.count - 1 })

/-- The branch of `HASH_DELETE` for an element that has a neighbour. -/
def unlinkElement (m : Memory) (tbl : UTHashTable) (delptr : ℕ) (del : UTHashHandle) : Option Memory :=
  (if delptr = tbl.tail then del.prev else some tbl.tail).bind fun tail =>
    (m.handle.assign del.prev fun hh => { hh with next := del.next }).bind fun handle =>
      (Handles.assign handle del.next fun hh => { hh with prev := del.prev }).bind fun handle =>
        let head := if del.prev = none then del.next else m.head
        let bkt := hashToBkt del.hashv tbl.num_buckets
        (hashDelInBkt handle (tbl.buckets bkt) delptr).map fun (handle, bucket) =>
          ⟨head, handle, some { tbl with
            buckets := Function.update tbl.buckets bkt bucket
            num_items := tbl.num_items - 1
            tail := tail }⟩

def hashDelete (m : Memory) (delptr : ℕ) : Option Memory :=
  m.tbl.bind fun tbl => (m.handle delptr).bind fun del =>
    if del.prev = none ∧ del.next = none then some { m with head := none, tbl := none }
    else unlinkElement m tbl delptr del

def Memory.free (m : Memory) (a : ℕ) : Memory := { m with handle := Function.update m.handle a none }

end Ivy.Hash
