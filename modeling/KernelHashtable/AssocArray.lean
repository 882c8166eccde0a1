import KernelHashtable.Hash
import KernelHashtable.Hashtable
import KernelHashtable.KList

/-!
# The associative array of assoc_array.c

An entry is a block with a hash node, a list node and the three payload fields. The
array, its `hashtable_t` and the bucket table are three further blocks. Functions
return `none` where the C code has no defined meaning, in particular where it touches a
block that is not live. What `memcmp` answers when it is asked to compare beyond the
end of a stored key is left open: `past` gives that answer for every entry.

The functions take an array pointer that is not null. The sizes are those of 64-bit
targets.
-/

namespace KernelHashtable.Assoc
open Hash Hashtable HList KList

def sizeofAssocArray : ℕ := 48
def sizeofAssocArrayEntry : ℕ := 56

/-- A pointer to the bytes of a key: in a block of the library, or in memory of the
caller that keeps its contents. -/
inductive KeyPtr where
  | null
  | block (b : ℕ)
  | caller (bytes : List UInt8)
  deriving DecidableEq

structure Store where
  heap : Heap
  key : ℕ → KeyPtr
  keySize : ℕ → UInt8
  data : ℕ → ℕ

namespace Store

def object (st : Store) : KeyPtr → Option (List UInt8)
  | .null => none
  | .block b => if st.heap.live b then some (st.heap.bytes b) else none
  | .caller bytes => some bytes

def read (st : Store) (p : KeyPtr) (n : ℕ) : Option (List UInt8) := do
  let bytes ← st.object p
  if n ≤ bytes.length then some (bytes.take n) else none

def freeKey (st : Store) : KeyPtr → Option Store
  | .null => some st
  | .block b => do
    let h ← st.heap.free b
    return { st with heap := h }
  | .caller _ => none

def freeEntryBlock (st : Store) (entry : ℕ) : Option Store := do
  let h ← st.heap.free entry
  return { st with heap := h }

def freeData (st : Store) (data : ℕ) : Store := { st with heap := st.heap.freeForeign data }

end Store

def fillAssocArrayEntry (st : Store) (entry data : ℕ) (key : KeyPtr) (keySize : UInt8) :
    Option (Int × Store) := do
  guard (st.heap.live entry)
  match st.heap.malloc keySize.toNat with
  | (none, h) => return (1, { st with heap := h, key := Function.update st.key entry .null })
  | (some b, h) => do
    let st := { st with heap := h, key := Function.update st.key entry (.block b) }
    let bytes ← st.read key keySize.toNat
    return (0, { st with
      heap := st.heap.setBytes b bytes
      keySize := Function.update st.keySize entry keySize
      data := Function.update st.data entry data })

def freeAssocArrayEntry (st : Store) (entry : ℕ) : Option Store := do
  guard (st.heap.live entry)
  let st := st.freeData (st.data entry)
  let st ← st.freeKey (st.key entry)
  st.freeEntryBlock entry

/-- `fill_entry` of main.c, whose keys lie in the data. -/
def fillMacEntry (st : Store) (entry data : ℕ) (key : KeyPtr) (keySize : UInt8) :
    Option (Int × Store) := do
  guard (st.heap.live entry)
  return (0, { st with
    key := Function.update st.key entry key
    keySize := Function.update st.keySize entry keySize
    data := Function.update st.data entry data })

/-- `free_entry` of main.c. `hostname` reads that field of the data. -/
def freeMacEntry (hostname : ℕ → ℕ) (st : Store) (entry : ℕ) : Option Store := do
  guard (st.heap.live entry)
  guard (st.data entry ≠ 0)
  let st := st.freeData (hostname (st.data entry))
  let st := st.freeData (st.data entry)
  st.freeEntryBlock entry

def mockArrayFillFunc (st : Store) (_entry _data : ℕ) (_key : KeyPtr) (_keySize : UInt8) :
    Option (Int × Store) :=
  some (1, st)

/-- The two callbacks of an array: the defaults, which null arguments stand for, or
those of main.c. A caller may put the mock in the place of the default `fill_entry`;
`refuses` says, by the count of the requests made so far, when he has done so. -/
inductive Callbacks where
  | default (refuses : ℕ → Bool)
  | mac (hostname : ℕ → ℕ)

def Callbacks.fillEntry : Callbacks → Store → ℕ → ℕ → KeyPtr → UInt8 → Option (Int × Store)
  | .default refuses, st =>
    if refuses st.heap.calls then mockArrayFillFunc st else fillAssocArrayEntry st
  | .mac _, st => fillMacEntry st

def Callbacks.freeEntry : Callbacks → Store → ℕ → Option Store
  | .default _ => freeAssocArrayEntry
  | .mac hostname => freeMacEntry hostname

structure AssocArray where
  store : Store
  self : ℕ
  ht : HashtableT
  mem : Buckets ℕ ℕ
  ring : Links (Loc ℕ)
  size : ℕ
  cb : Callbacks

namespace AssocArray

def nodeOk (arr : AssocArray) (e : ℕ) : Bool := arr.store.heap.live e

def ringOk (arr : AssocArray) : Loc ℕ → Bool
  | .head => arr.store.heap.live arr.self
  | .node e => arr.store.heap.live e

def headOk (arr : AssocArray) (b : ℕ) : Bool :=
  Hashtable.headOk lp64 arr.store.heap arr.ht.table b

def htBits (arr : AssocArray) : Option UInt32 := do
  guard (arr.store.heap.live arr.self)
  guard (arr.store.heap.live arr.ht.self)
  return arr.ht.bits

def fuel (arr : AssocArray) : ℕ := arr.store.heap.fresh + 1

end AssocArray

structure Raw where
  mem : Buckets ℕ ℕ
  ring : Links (Loc ℕ)
  key : ℕ → KeyPtr
  keySize : ℕ → UInt8
  data : ℕ → ℕ

/-- The array is `none` where the call returns null. -/
def arrayCreate (h : Heap) (raw : Raw) (bits : UInt32) (cb : Callbacks) :
    Option (Option AssocArray × Heap) :=
  match h.malloc sizeofAssocArray with
  | (none, h) => some (none, h)
  | (some self, h) => do
    let (ht, h, mem) ← htCreate lp64 h raw.mem bits
    match ht with
    | none => do
      let h ← h.free self
      return (none, h)
    | some ht => do
      let arr : AssocArray :=
        ⟨⟨h, raw.key, raw.keySize, raw.data⟩, self, ht, mem, raw.ring, 0, cb⟩
      let ring ← kInitListHead arr.ringOk arr.ring (.addr .head)
      return (some { arr with ring := ring }, h)

def memcmpEq (past : ℕ → Bool) (st : Store) (cur : ℕ) (key : KeyPtr) (keySize : UInt8) :
    Option Bool := do
  let bytes ← st.read key keySize.toNat
  let stored ← st.object (st.key cur)
  if keySize.toNat ≤ stored.length then return decide (stored.take keySize.toNat = bytes)
  else return past cur

/-- The walk of `array_get_by_key`: the entry it returns and the entries whose keys it
hands to `memcmp`, the latest first. -/
def bucketWalk (past : ℕ → Bool) (arr : AssocArray) (key : KeyPtr) (keySize : UInt8) :
    Option (Option ℕ × List ℕ) := do
  let bits ← arr.htBits
  let bytes ← arr.store.read key keySize.toNat
  let hashKey := (hash32Str bytes).toUInt32
  let bkt := calcBkt hashKey (oneShl bits).toInt32
  let pos ← loadFirst arr.headOk arr.mem bkt.toNat
  hlistForEachEntrySafe (fun _ p => loadNext arr.nodeOk arr.mem p) (fun compared cur => do
    let eq ← memcmpEq past arr.store cur key keySize
    return (cur :: compared, eq)) arr.fuel pos []

def arrayGetByKey (past : ℕ → Bool) (arr : AssocArray) (key : KeyPtr) (keySize : UInt8) :
    Option (Option ℕ) := do
  let (cur, _) ← bucketWalk past arr key keySize
  return cur

def arrayAdd (arr : AssocArray) (data : ℕ) (key : KeyPtr) (keySize : UInt8) :
    Option (Int × AssocArray) :=
  match arr.store.heap.malloc sizeofAssocArrayEntry with
  | (none, h) => some (-1, { arr with store := { arr.store with heap := h } })
  | (some newEntry, h) => do
    let arr := { arr with store := { arr.store with heap := h } }
    let (ret, store) ← arr.cb.fillEntry arr.store newEntry data key keySize
    let arr := { arr with store := store }
    if ret ≠ 0 then do
      let store ← arr.store.freeEntryBlock newEntry
      return (-1, { arr with store := store })
    else do
      let bytes ← arr.store.read key keySize.toNat
      let hashKey : Int32 := (hash32Str bytes).toUInt32.toInt32
      let _ ← arr.htBits
      let mem ← hashtableAdd arr.headOk arr.nodeOk arr.mem arr.ht newEntry hashKey.toUInt32
      let ring ← kListAddTail arr.ringOk arr.ring (.addr (.node newEntry)) (.addr .head)
      return (0, { arr with mem := mem, ring := ring, size := arr.size + 1 })

def unlinkAndFree (arr : AssocArray) (e : ℕ) : Option AssocArray := do
  let mem ← hlistDel arr.headOk arr.nodeOk arr.mem (.addr e)
  let ring ← kListDel arr.ringOk arr.ring (.addr (.node e))
  let store ← arr.cb.freeEntry arr.store e
  return { arr with mem := mem, ring := ring, store := store, size := arr.size - 1 }

def arrayDel (past : ℕ → Bool) (arr : AssocArray) (key : KeyPtr) (keySize : UInt8) :
    Option (Int × AssocArray) := do
  let existingEntry ← arrayGetByKey past arr key keySize
  match existingEntry with
  | none => return (1, arr)
  | some e => do
    let arr ← unlinkAndFree arr e
    return (0, arr)

def arrayAddReplace (past : ℕ → Bool) (arr : AssocArray) (data : ℕ) (key : KeyPtr)
    (keySize : UInt8) : Option (Int × AssocArray) := do
  let (_, arr) ← arrayDel past arr key keySize
  arrayAdd arr data key keySize

def hashDelEntry (arr : AssocArray) (cur : ℕ) : Option AssocArray := do
  let mem ← hashDel arr.headOk arr.nodeOk arr.mem cur
  return { arr with mem := mem }

def freeEntryOf (arr : AssocArray) (cur : ℕ) : Option AssocArray := do
  let store ← arr.cb.freeEntry arr.store cur
  return { arr with store := store }

/-- `array_free`, with `HT_FREE` written out. -/
def arrayFree (arr : AssocArray) : Option (Int × Heap) := do
  let bits ← arr.htBits
  let arr ← clearHashtableBits (fun arr bkt => loadFirst arr.headOk arr.mem bkt)
    (fun arr p => loadNext arr.nodeOk arr.mem p) arr.fuel hashDelEntry freeEntryOf bits arr
  let h ← arr.store.heap.free arr.ht.table
  let h ← h.free arr.ht.self
  let h ← h.free arr.self
  return (0, h)

/-- `k_list_empty(&arr->list) || arr->size == 0`. -/
def emptyOrZero (arr : AssocArray) : Option Bool := do
  let empty ← kListEmpty arr.ringOk arr.ring (.addr .head)
  return empty || arr.size == 0

def endEntry (arr : AssocArray) (isFirst : Bool) : Option (Ptr (Loc ℕ)) :=
  if isFirst then arr.ring.loadNext arr.ringOk (.addr .head)
  else arr.ring.loadPrev arr.ringOk (.addr .head)

/-- `_array_get_first`. -/
def arrayGetEnd (arr : AssocArray) (isFirst : Bool) : Option (Ptr (Loc ℕ)) := do
  let isNone ← emptyOrZero arr
  if isNone then return .null else endEntry arr isFirst

def arrayGetFirst (arr : AssocArray) : Option (Ptr (Loc ℕ)) := arrayGetEnd arr true
def arrayGetLast (arr : AssocArray) : Option (Ptr (Loc ℕ)) := arrayGetEnd arr false

/-- `_array_del_first`. -/
def arrayDelEnd (arr : AssocArray) (isFirst : Bool) : Option (Int × AssocArray) := do
  let isNone ← emptyOrZero arr
  if isNone then return (-1, arr) else do
    let e ← endEntry arr isFirst
    match e with
    | .null => return (-1, arr)
    | .addr (.node e) => do
      let arr ← unlinkAndFree arr e
      return (0, arr)
    | _ => none

def arrayDelFirst (arr : AssocArray) : Option (Int × AssocArray) := arrayDelEnd arr true
def arrayDelLast (arr : AssocArray) : Option (Int × AssocArray) := arrayDelEnd arr false

def bucketCount (arr : AssocArray) (i : ℕ) : Option UInt64 := do
  let pos ← loadFirst arr.headOk arr.mem i
  let (_, count) ← hlistForEachEntry (fun _ p => loadNext arr.nodeOk arr.mem p)
    (fun (count : UInt64) _ => some (count + 1, false)) arr.fuel pos 0
  return count

def sizeDiv (a b : UInt64) : Option UInt64 := if b = 0 then none else some (a / b)

def arrayCollisionPercent (arr : AssocArray) : Option Int32 := do
  guard (arr.store.heap.live arr.self)
  let size := UInt64.ofNat arr.size
  if size = 0 then return 0 else do
    let bits ← arr.htBits
    let numBuckets := oneShl bits
    let collisions ← (List.range numBuckets.toNat).foldlM (fun (collisions : UInt64) i => do
      let count ← bucketCount arr i
      return if 1 < count then collisions + (count - 1) else collisions) 0
    let percent ← sizeDiv (collisions * 100) size
    return percent.toUInt32.toInt32

end KernelHashtable.Assoc
