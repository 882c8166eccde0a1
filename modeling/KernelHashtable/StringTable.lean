import KernelHashtable.HashCustom
import KernelHashtable.HashtableTraverse
import Mathlib.Data.List.Find

/-!
# The table of strings of test_hashtable.c

An entry is a block with a hash node and a pointer to a copy of the string. Nothing checks
what `malloc` returns, so a request that is refused leaves the program without a meaning.
-/

namespace KernelHashtable.Strings
open Hash Hashtable HList

structure CString where
  chars : List UInt8
  nonzero : 0 ∉ chars
  deriving DecidableEq

namespace CString

def bytes (str : CString) : List UInt8 := str.chars ++ [0]

def strlen (str : CString) : ℕ := str.chars.length

theorem ext_chars {s t : CString} (h : s.chars = t.chars) : s = t := by
  cases s
  cases t
  simpa using h

end CString

/-- Whether `strcmp` returns 0. It reads both arrays up to a difference or a terminator. -/
def strcmpEq : List UInt8 → List UInt8 → Option Bool
  | x :: xs, y :: ys => if x ≠ y then some false else if x = 0 then some true else strcmpEq xs ys
  | _, _ => none

theorem strcmpEq_append {xs ys : List UInt8} (hx : 0 ∉ xs) (hy : 0 ∉ ys) :
    strcmpEq (xs ++ [0]) (ys ++ [0]) = some (decide (xs = ys)) := by
  induction xs generalizing ys with
  | nil =>
    cases ys with
    | nil => rfl
    | cons y ys =>
      have hy0 : (0 : UInt8) ≠ y := fun e => hy (by simp [e])
      simp [strcmpEq, hy0]
  | cons x xs ih =>
    have hx0 : x ≠ 0 := fun e => hx (by simp [e])
    cases ys with
    | nil => simp [strcmpEq, hx0]
    | cons y ys =>
      obtain rfl | hxy := eq_or_ne x y
      · have hrec := ih (fun h => hx (List.mem_cons_of_mem x h))
          fun h => hy (List.mem_cons_of_mem x h)
        simpa [strcmpEq, hx0] using hrec
      · simp [strcmpEq, hxy]

theorem strcmpEq_bytes (s t : CString) : strcmpEq s.bytes t.bytes = some (decide (s = t)) := by
  rw [CString.bytes, CString.bytes, strcmpEq_append s.nonzero t.nonzero]
  exact congrArg some (decide_eq_decide.mpr ⟨CString.ext_chars, congrArg CString.chars⟩)

theorem CString.bytes_inj {s t : CString} (h : s.bytes = t.bytes) : s = t :=
  CString.ext_chars (List.append_left_injective [0] h)

/-- A `size_t` passed for an `int`. -/
def toInt (n : ℕ) : ℤ := (Int32.ofNat n).toInt

def hashOf (char : CharKind) (str : CString) (len : ℤ) : Option UInt32 :=
  (hashTime33 char str.bytes len).map fun r => r.1.toUInt32

theorem toInt_le (n : ℕ) : toInt n ≤ n := by
  have hbv : toInt n = (n : ℤ).bmod (2 ^ 32) := BitVec.toInt_ofNat n
  rw [hbv, Int.bmod_def]
  split_ifs <;> omega

theorem hashOf_defined (char : CharKind) (str : CString) {len : ℤ} (hlen : len ≤ str.strlen + 1) :
    ∃ key, hashOf char str len = some key := by
  have hsome : ∃ r, hashTime33 char str.bytes len = some r := by
    by_cases hneg : len < 0
    · have hzero : len.toNat = 0 := Int.toNat_of_nonpos hneg.le
      have hloop : time33Loop char str.bytes 0 len ⟨5381, 0, []⟩ = some (len, ⟨5381, 0, []⟩) :=
        if_neg (by omega)
      have hswitch : time33Switch char str.bytes len ⟨5381, 0, []⟩ = some ⟨5381, 0, []⟩ :=
        if_neg (by omega)
      exact ⟨(5381, []), by simp [hashTime33, hzero, hloop, hswitch]⟩
    · obtain ⟨n, rfl⟩ := Int.eq_ofNat_of_zero_le (not_lt.mp hneg)
      have hn : n ≤ str.bytes.length := by
        rw [CString.bytes, List.length_append]
        exact_mod_cast hlen
      exact ⟨_, hashTime33_take hn⟩
  obtain ⟨r, hr⟩ := hsome
  exact ⟨r.1.toUInt32, by rw [hashOf, hr, Option.map_some]⟩

theorem hashOf_strlen (char : CharKind) (str : CString) :
    ∃ key, hashOf char str (toInt str.strlen) = some key :=
  hashOf_defined char str ((toInt_le _).trans (by omega))

def sizeofStringEntry : ℕ := 24

structure StringTable where
  heap : Heap
  ht : HashtableT
  mem : Buckets ℕ ℕ
  str : ℕ → ℕ

namespace StringTable

def nodeOk (s : StringTable) (e : ℕ) : Bool := s.heap.live e

def headOk (s : StringTable) (b : ℕ) : Bool := Hashtable.headOk lp64 s.heap s.ht.table b

def next (s : StringTable) (p : Ptr ℕ) : Option (Ptr ℕ) := loadNext s.nodeOk s.mem p

def htBits (s : StringTable) : Option UInt32 :=
  if s.heap.live s.ht.self then some s.ht.bits else none

def text (s : StringTable) (e : ℕ) : Option (List UInt8) :=
  if s.heap.live e && s.heap.live (s.str e) then some (s.heap.bytes (s.str e)) else none

def fuel (s : StringTable) : ℕ := s.heap.fresh + 1

def freeEntry (s : StringTable) (entry : ℕ) : Option StringTable := do
  guard (s.heap.live entry)
  let h ← s.heap.free (s.str entry)
  let h ← h.free entry
  return { s with heap := h }

def addEntry (char : CharKind) (s : StringTable) (str : CString) (size : ℕ) (len : ℤ) :
    Option StringTable :=
  match s.heap.malloc sizeofStringEntry with
  | (none, _) => none
  | (some entry, h) =>
    match h.malloc size with
    | (none, _) => none
    | (some p, h) => do
      guard (str.bytes.length ≤ size)
      let h := h.setBytes p str.bytes
      let s := { s with heap := h, str := Function.update s.str entry p }
      let key ← hashOf char str len
      let _ ← s.htBits
      let mem ← hashtableAdd s.headOk s.nodeOk s.mem s.ht entry key
      return { s with mem := mem }

def addStringToHashtable (char : CharKind) (s : StringTable) (str : CString) :
    Option StringTable :=
  addEntry char s str (str.strlen + 1) (toInt str.strlen)

def bucketOf (char : CharKind) (s : StringTable) (str : CString) : Option (Ptr ℕ) := do
  let key ← hashOf char str (toInt str.strlen)
  let bits ← s.htBits
  loadFirst s.headOk s.mem (calcBkt key (oneShl bits).toInt32).toNat

/-- The body of the loop of `delete_string_from_hashtable`, which returns from it. -/
def deleteIfEqual (str : CString) (s : StringTable) (cur : ℕ) : Option (StringTable × Bool) := do
  let bytes ← s.text cur
  let eq ← strcmpEq bytes str.bytes
  if eq then do
    let mem ← hlistDel s.headOk s.nodeOk s.mem (.addr cur)
    let s ← freeEntry { s with mem := mem } cur
    return (s, true)
  else return (s, false)

/-- The result is 0 where the string has been deleted, and 1 where it is not found. -/
def deleteStringFromHashtable (char : CharKind) (s : StringTable) (str : CString) :
    Option (ℕ × StringTable) := do
  let pos ← bucketOf char s str
  let (cur, s) ← hlistForEachEntrySafe next (deleteIfEqual str) s.fuel pos s
  return (if cur.isSome then 0 else 1, s)

/-- The entry whose member `str` the result points to. -/
def findStringInHashtable (char : CharKind) (s : StringTable) (str : CString) :
    Option (Option ℕ) := do
  let pos ← bucketOf char s str
  let (cur, _) ← hlistForEachEntry (fun _ => s.next) (fun (_ : Unit) cur => do
    let bytes ← s.text cur
    let eq ← strcmpEq bytes str.bytes
    return ((), eq)) s.fuel pos ()
  return cur

def countEntries (s : StringTable) : Option ℕ := do
  let bits ← s.htBits
  countEntriesInHashtable s.headOk s.nodeOk s.mem s.fuel bits

def hashDelEntry (s : StringTable) (cur : ℕ) : Option StringTable := do
  let mem ← hashDel s.headOk s.nodeOk s.mem cur
  return { s with mem := mem }

/-- `HT_FREE(ht, string_entry_t, node, free_entry)`. -/
def htFree (s : StringTable) : Option Heap := do
  let bits ← s.htBits
  let s ← clearHashtableBits (fun s bkt => loadFirst s.headOk s.mem bkt) next s.fuel
    hashDelEntry freeEntry bits s
  let h ← s.heap.free s.ht.table
  h.free s.ht.self

end StringTable

structure Entry where
  entry : ℕ
  block : ℕ
  text : CString
  key : UInt32

def Entry.blocks (e : Entry) : List ℕ := [e.entry, e.block]

def links (es : List Entry) : List (ℕ × UInt32) := es.map fun e => (e.entry, e.key)

def Entry.hits (bits key : UInt32) (str : CString) (e : Entry) : Bool :=
  decide (e.key.toNat % 2 ^ bits.toNat = key.toNat % 2 ^ bits.toNat) && decide (e.text = str)

def owned (s : StringTable) (es : List Entry) : List ℕ :=
  s.ht.self :: s.ht.table :: es.flatMap Entry.blocks

structure Rep (s : StringTable) (es : List Entry) : Prop where
  bits_le : s.ht.bits.toNat ≤ 30
  room : 2 ^ s.ht.bits.toNat * 8 ≤ s.heap.size s.ht.table
  table : IsTable (· < 2 ^ s.ht.bits.toNat) s.mem (bucket s.ht.bits (links es))
  text : ∀ e ∈ es, s.str e.entry = e.block ∧ s.heap.bytes e.block = e.text.bytes
  nodup : (owned s es).Nodup
  live_iff : ∀ b, s.heap.live b = true ↔ b ∈ owned s es
  balanced : s.heap.Balanced

section
variable {s : StringTable} {es A B : List Entry} {e : Entry}

theorem links_append (A B : List Entry) : links (A ++ B) = links A ++ links B := List.map_append

theorem owned_perm : (owned s (A ++ e :: B)).Perm (e.entry :: e.block :: owned s (A ++ B)) := by
  have hmove : ((A ++ e :: B).flatMap Entry.blocks).Perm
      (e.entry :: e.block :: (A ++ B).flatMap Entry.blocks) :=
    (List.perm_middle.flatMap_right Entry.blocks).trans (List.Perm.refl _)
  have hsplit : owned s (A ++ e :: B) =
      [s.ht.self, s.ht.table] ++ (A ++ e :: B).flatMap Entry.blocks := rfl
  rw [hsplit]
  refine (hmove.append_left _).trans ?_
  exact (List.perm_append_comm_assoc [s.ht.self, s.ht.table] [e.entry, e.block] _)

theorem addEntry_denied {char : CharKind} {str : CString} {size : ℕ} {len : ℤ}
    (hg : ¬ (s.heap.grants s.heap.calls sizeofStringEntry = true ∧
      s.heap.grants (s.heap.calls + 1) size = true)) :
    StringTable.addEntry char s str size len = none := by
  cases hg₁ : s.heap.grants s.heap.calls sizeofStringEntry with
  | false => rw [StringTable.addEntry, Heap.malloc_deny hg₁]
  | true =>
    have hg₂ : s.heap.grants (s.heap.calls + 1) size = false := by
      by_contra hn
      exact hg ⟨hg₁, by simpa using hn⟩
    have hm : (s.heap.grant sizeofStringEntry).malloc size =
        (none, (s.heap.grant sizeofStringEntry).deny) := Heap.malloc_deny hg₂
    simp only [StringTable.addEntry, Heap.malloc_grant hg₁, hm]

namespace Rep

theorem live_entry (hr : Rep s es) (he : e ∈ es) :
    s.heap.live e.entry = true ∧ s.heap.live e.block = true := by
  have hmem : ∀ b ∈ e.blocks, b ∈ owned s es := fun b hb =>
    List.mem_cons_of_mem _ (List.mem_cons_of_mem _ (List.mem_flatMap.mpr ⟨e, he, hb⟩))
  exact ⟨(hr.live_iff _).mpr (hmem _ (by simp [Entry.blocks])),
    (hr.live_iff _).mpr (hmem _ (by simp [Entry.blocks]))⟩

theorem headOk (hr : Rep s es) : ∀ b < 2 ^ s.ht.bits.toNat, s.headOk b = true := by
  intro b hb
  have hlive : s.heap.live s.ht.table = true := (hr.live_iff _).mpr (by simp [owned])
  have hfit : (b + 1) * 8 ≤ 2 ^ s.ht.bits.toNat * 8 := Nat.mul_le_mul_right 8 hb
  have hroom : (b + 1) * lp64.ptrBytes ≤ s.heap.size s.ht.table := hfit.trans hr.room
  simp [StringTable.headOk, Hashtable.headOk, hlive, hroom]

theorem htBits_eq (hr : Rep s es) : s.htBits = some s.ht.bits := by
  rw [StringTable.htBits, if_pos ((hr.live_iff _).mpr (by simp [owned]))]

theorem mem_links {b x : ℕ} (hx : x ∈ bucket s.ht.bits (links es) b) :
    ∃ e ∈ es, e.entry = x ∧ e.key.toNat % 2 ^ s.ht.bits.toNat = b := by
  obtain ⟨k, hk, hb⟩ := mem_bucket.mp hx
  obtain ⟨e, he, heq⟩ := List.mem_map.mp hk
  obtain ⟨rfl, rfl⟩ := Prod.mk.inj heq
  exact ⟨e, he, rfl, hb⟩

theorem nodeOk (hr : Rep s es) (b : ℕ) :
    ∀ x ∈ bucket s.ht.bits (links es) b, s.nodeOk x = true := by
  intro x hx
  obtain ⟨e, he, rfl, -⟩ := mem_links hx
  exact (hr.live_entry he).1

theorem bucket_length_lt (hr : Rep s es) (b : ℕ) :
    (bucket s.ht.bits (links es) b).length < s.fuel := by
  have hsub : ∀ x ∈ bucket s.ht.bits (links es) b, x ∈ List.range s.heap.fresh := by
    intro x hx
    exact List.mem_range.mpr (hr.balanced.lt_fresh (hr.nodeOk b x hx))
  have hle := (List.subperm_of_subset (hr.table.nodup b) hsub).length_le
  rw [List.length_range] at hle
  exact Nat.lt_succ_of_le hle

theorem bucket_split (s : StringTable) (A B : List Entry) (e : Entry) :
    bucket s.ht.bits (links (A ++ e :: B)) (e.key.toNat % 2 ^ s.ht.bits.toNat) =
      bucket s.ht.bits (links A) (e.key.toNat % 2 ^ s.ht.bits.toNat) ++
        e.entry :: bucket s.ht.bits (links B) (e.key.toNat % 2 ^ s.ht.bits.toNat) := by
  rw [links_append, bucket_append]
  exact congrArg _ bucket_cons_self

theorem unlink (hr : Rep s (A ++ e :: B)) :
    (∃ mem, hlistDel s.headOk s.nodeOk s.mem (.addr e.entry) = some mem ∧
      IsTable (· < 2 ^ s.ht.bits.toNat) mem (bucket s.ht.bits (links (A ++ B)))) ∧
    ∃ mem, hashDel s.headOk s.nodeOk s.mem e.entry = some mem ∧
      IsTable (· < 2 ^ s.ht.bits.toNat) mem (bucket s.ht.bits (links (A ++ B))) := by
  have hlt : e.key.toNat % 2 ^ s.ht.bits.toNat < 2 ^ s.ht.bits.toNat :=
    Nat.mod_lt _ (Nat.two_pow_pos _)
  have hrest : bucket s.ht.bits (links (A ++ B)) =
      Function.update (bucket s.ht.bits (links (A ++ e :: B)))
        (e.key.toNat % 2 ^ s.ht.bits.toNat)
        (bucket s.ht.bits (links A) (e.key.toNat % 2 ^ s.ht.bits.toNat) ++
          bucket s.ht.bits (links B) (e.key.toNat % 2 ^ s.ht.bits.toNat)) := by
    rw [links_append, links_append]
    exact bucket_del
  rw [hrest]
  constructor
  · exact hlistDel_isTable hr.table hr.headOk hlt (hr.nodeOk _) (bucket_split s A B e)
  · obtain ⟨mem, hmem, -, -, htab⟩ :=
      hlistDelInit_isTable hr.table hr.headOk hlt (hr.nodeOk _) (bucket_split s A B e)
    exact ⟨mem, hmem, htab⟩

theorem freeEntry (hr : Rep s (A ++ e :: B)) {mem : Buckets ℕ ℕ}
    (htab : IsTable (· < 2 ^ s.ht.bits.toNat) mem (bucket s.ht.bits (links (A ++ B)))) :
    ∃ h, StringTable.freeEntry { s with mem := mem } e.entry =
        some { s with mem := mem, heap := h } ∧
      Rep { s with mem := mem, heap := h } (A ++ B) ∧ h.grants = s.heap.grants := by
  obtain ⟨hle, hlb⟩ := hr.live_entry (show e ∈ A ++ e :: B by simp)
  have hnd := owned_perm.nodup_iff.mp hr.nodup
  obtain ⟨hne, hnd'⟩ := List.nodup_cons.mp hnd
  obtain ⟨hnb, hnd''⟩ := List.nodup_cons.mp hnd'
  have heb : e.entry ≠ e.block := fun h => hne (by simp [h])
  have hlive : (s.heap.release e.block).live e.entry = true := by simp [hle, heb]
  have htext := (hr.text e (by simp)).1
  refine ⟨(s.heap.release e.block).release e.entry, ?_, ?_, rfl⟩
  · simp [StringTable.freeEntry, hle, htext, Heap.free_live hlb, Heap.free_live hlive]
  · refine ⟨hr.bits_le, hr.room, htab, fun d hd => hr.text d ?_, hnd'', fun b => ?_,
      (hr.balanced.release hlb).release hlive⟩
    · exact ((List.sublist_cons_self e B).append_left A).subset hd
    · have hiff := hr.live_iff b
      rw [owned_perm.mem_iff, List.mem_cons, List.mem_cons] at hiff
      change (((s.heap.release e.block).release e.entry).live b = true) ↔ b ∈ owned s (A ++ B)
      rw [Heap.release_live, Heap.release_live]
      constructor
      · intro h
        obtain ⟨⟨hl, hbb⟩, hbe⟩ : (s.heap.live b = true ∧ b ≠ e.block) ∧ b ≠ e.entry := by
          simpa using h
        exact ((hiff.mp hl).resolve_left hbe).resolve_left hbb
      · intro h
        have hbe : b ≠ e.entry := fun h' => hne (List.mem_cons_of_mem _ (h' ▸ h))
        have hbb : b ≠ e.block := fun h' => hnb (h' ▸ h)
        simp [hiff.mpr (Or.inr (Or.inr h)), hbe, hbb]

theorem lt_fresh (hr : Rep s es) {b : ℕ} (hb : b ∈ owned s es) : b < s.heap.fresh :=
  hr.balanced.lt_fresh ((hr.live_iff b).mpr hb)

def taken (s : StringTable) (str : CString) (size : ℕ) : StringTable :=
  { s with
    heap := ((s.heap.grant sizeofStringEntry).grant size).setBytes (s.heap.fresh + 1) str.bytes
    str := Function.update s.str s.heap.fresh (s.heap.fresh + 1) }

theorem taken_live_iff (hr : Rep s es) (str : CString) (size b : ℕ) :
    (taken s str size).heap.live b = true ↔
      b = s.heap.fresh ∨ b = s.heap.fresh + 1 ∨ b ∈ owned s es := by
  have hlive : (taken s str size).heap.live b =
      (s.heap.live b || decide (b = s.heap.fresh) || decide (b = s.heap.fresh + 1)) := by
    change ((s.heap.grant sizeofStringEntry).grant size).live b = _
    rw [Heap.grant_live, Heap.grant_live]
    rfl
  rw [hlive, ← hr.live_iff]
  simp only [Bool.or_eq_true, decide_eq_true_eq]
  tauto

theorem taken_size (hr : Rep s es) (str : CString) (size : ℕ) :
    (taken s str size).heap.size s.ht.table = s.heap.size s.ht.table := by
  have hlt := hr.lt_fresh (show s.ht.table ∈ owned s es by simp [owned])
  change ((s.heap.grant sizeofStringEntry).grant size).size s.ht.table = _
  simp only [Heap.grant]
  rw [Function.update_of_ne (by omega), Function.update_of_ne (by omega)]

theorem taken_headOk (hr : Rep s es) (str : CString) (size : ℕ) :
    ∀ b < 2 ^ s.ht.bits.toNat, (taken s str size).headOk b = true := by
  intro b hb
  have hlive : (taken s str size).heap.live s.ht.table = true :=
    (hr.taken_live_iff str size _).mpr (by simp [owned])
  have hfit : (b + 1) * lp64.ptrBytes ≤ (taken s str size).heap.size s.ht.table := by
    rw [hr.taken_size]
    exact (Nat.mul_le_mul_right 8 hb : (b + 1) * 8 ≤ _).trans hr.room
  simp only [StringTable.headOk, Hashtable.headOk, Bool.and_eq_true, decide_eq_true_eq]
  exact ⟨hlive, hfit⟩

theorem addEntry (hr : Rep s es) {char : CharKind} {str : CString} {size : ℕ} {len : ℤ}
    {key : UInt32} (hkey : hashOf char str len = some key) (hfit : str.bytes.length ≤ size)
    (hg : s.heap.grants s.heap.calls sizeofStringEntry = true)
    (hg' : s.heap.grants (s.heap.calls + 1) size = true) :
    ∃ s', StringTable.addEntry char s str size len = some s' ∧
      Rep s' (⟨s.heap.fresh, s.heap.fresh + 1, str, key⟩ :: es) ∧ s'.ht = s.ht ∧
      s'.heap.grants = s.heap.grants := by
  have hnew : ∀ b, s.heap.fresh ∉ bucket s.ht.bits (links es) b := by
    intro b hb
    obtain ⟨d, hd, heq, -⟩ := mem_links hb
    have hlt := hr.balanced.lt_fresh (hr.live_entry hd).1
    omega
  obtain ⟨mem, hmem, -, htab⟩ := hlistAddHead_isTable hr.table (hr.taken_headOk str size)
    (Nat.mod_lt key.toNat (Nat.two_pow_pos _))
    ((hr.taken_live_iff str size s.heap.fresh).mpr (Or.inl rfl)) (fun x hx => by
      obtain ⟨d, hd, rfl, -⟩ := mem_links hx
      exact (hr.taken_live_iff str size _).mpr
        (Or.inr (Or.inr ((hr.live_iff _).mp (hr.live_entry hd).1)))) hnew
  rw [← bucket_add] at htab
  refine ⟨{ taken s str size with mem := mem }, ?_, ?_, rfl, rfl⟩
  · have hm : (s.heap.grant sizeofStringEntry).malloc size = (some (s.heap.fresh + 1),
        (s.heap.grant sizeofStringEntry).grant size) := Heap.malloc_grant hg'
    have hbits : (taken s str size).htBits = some s.ht.bits := by
      rw [StringTable.htBits, if_pos ((hr.taken_live_iff str size _).mpr (by simp [taken, owned]))]
      rfl
    have hadd : hashtableAdd (taken s str size).headOk (taken s str size).nodeOk s.mem s.ht
        s.heap.fresh key = some mem := by
      rw [hashtableAdd, hashAddBits, calcBkt_toNat (by have := hr.bits_le; omega)]
      exact hmem
    rw [StringTable.addEntry, Heap.malloc_grant hg]
    simp only [hm, hkey, hfit, guard, if_true, Option.bind_eq_bind, Option.bind_some,
      Option.pure_def]
    change ((taken s str size).htBits.bind fun _ => (hashtableAdd (taken s str size).headOk
      (taken s str size).nodeOk s.mem s.ht s.heap.fresh key).bind _) = _
    rw [hbits, hadd]
    rfl
  · have hnot : s.heap.fresh ∉ (s.heap.fresh + 1) :: owned s es ∧
        s.heap.fresh + 1 ∉ owned s es := by
      refine ⟨fun h => ?_, fun h => ?_⟩
      · rcases List.mem_cons.mp h with h | h
        · omega
        · exact absurd (hr.lt_fresh h) (by omega)
      · exact absurd (hr.lt_fresh h) (by omega)
    have hperm : (owned s (⟨s.heap.fresh, s.heap.fresh + 1, str, key⟩ :: es)).Perm
        (s.heap.fresh :: (s.heap.fresh + 1) :: owned s es) := owned_perm (A := [])
    refine ⟨hr.bits_le, (hr.taken_size str size).symm ▸ hr.room, htab, ?_, ?_, fun b => ?_,
      ((hr.balanced.grant _).grant _).setBytes _ _⟩
    · intro d hd
      rcases List.mem_cons.mp hd with rfl | hd
      · exact ⟨Function.update_self _ _ _, Function.update_self _ _ _⟩
      · have hlt := hr.balanced.lt_fresh (hr.live_entry hd).1
        have hlt' := hr.balanced.lt_fresh (hr.live_entry hd).2
        refine ⟨?_, ?_⟩
        · exact (Function.update_of_ne (by omega) _ _).trans (hr.text d hd).1
        · exact (Function.update_of_ne (by omega) _ _).trans (hr.text d hd).2
    · exact hperm.nodup_iff.mpr
        (List.nodup_cons.mpr ⟨hnot.1, List.nodup_cons.mpr ⟨hnot.2, hr.nodup⟩⟩)
    · refine (hr.taken_live_iff str size b).trans ?_
      have hmem := hperm.mem_iff (a := b)
      rw [List.mem_cons, List.mem_cons] at hmem
      exact hmem.symm

theorem text_eq (hr : Rep s es) (he : e ∈ es) : s.text e.entry = some e.text.bytes := by
  obtain ⟨hle, hlb⟩ := hr.live_entry he
  obtain ⟨hblock, hbytes⟩ := hr.text e he
  simp [StringTable.text, hle, hblock, hlb, hbytes]

theorem bucket_eq (bits : UInt32) (es : List Entry) (b : ℕ) : bucket bits (links es) b =
    (es.filter fun e => decide (e.key.toNat % 2 ^ bits.toNat = b)).map Entry.entry := by
  rw [bucket, links, List.filter_map, List.map_map]
  rfl

theorem find_bucket (hr : Rep s es) (key : UInt32) (str : CString) :
    (bucket s.ht.bits (links es) (key.toNat % 2 ^ s.ht.bits.toNat)).find?
        (fun x => decide (s.text x = some str.bytes)) =
      (es.find? (Entry.hits s.ht.bits key str)).map Entry.entry := by
  rw [bucket_eq, List.find?_map, List.find?_filter]
  refine congrArg (Option.map Entry.entry) ?_
  have hcongr : ∀ e ∈ es, decide (decide (e.key.toNat % 2 ^ s.ht.bits.toNat =
        key.toNat % 2 ^ s.ht.bits.toNat) = true ∧
      ((fun x => decide (s.text x = some str.bytes)) ∘ Entry.entry) e = true) =
        e.hits s.ht.bits key str := by
    intro e he
    have htext : e.text.bytes = str.bytes ↔ e.text = str := ⟨CString.bytes_inj, congrArg _⟩
    simp [Entry.hits, hr.text_eq he, htext]
  exact List.find?_congr hcongr

theorem bucketOf_eq (hr : Rep s es) {char : CharKind} {str : CString} {key : UInt32}
    (hkey : hashOf char str (toInt str.strlen) = some key) : StringTable.bucketOf char s str =
      some (headPtr (bucket s.ht.bits (links es) (key.toNat % 2 ^ s.ht.bits.toNat))) := by
  have hlt : key.toNat % 2 ^ s.ht.bits.toNat < 2 ^ s.ht.bits.toNat :=
    Nat.mod_lt _ (Nat.two_pow_pos _)
  have hhead := (hr.table.threads _ hlt).get_eq
  rw [Buckets.get_first] at hhead
  simp only [StringTable.bucketOf, hkey, hr.htBits_eq, Option.bind_eq_bind, Option.bind_some,
    calcBkt_toNat (by have := hr.bits_le; omega : s.ht.bits.toNat < 32), loadFirst,
    hr.headOk _ hlt, if_true, hhead]

theorem find (hr : Rep s es) {char : CharKind} {str : CString} {key : UInt32}
    (hkey : hashOf char str (toInt str.strlen) = some key) :
    StringTable.findStringInHashtable char s str =
      some ((es.find? (Entry.hits s.ht.bits key str)).map Entry.entry) := by
  have hlt : key.toNat % 2 ^ s.ht.bits.toNat < 2 ^ s.ht.bits.toNat :=
    Nat.mod_lt _ (Nat.two_pow_pos _)
  have hth := hr.table.threads _ hlt
  have hloop := hlistForEachEntry_threads (fun (_ : Unit) cur => do
    let bytes ← s.text cur
    let eq ← strcmpEq bytes str.bytes
    return ((), eq)) hth (hr.nodeOk _) (hr.bucket_length_lt _) ()
  rw [foldUntil_find (fun x => decide (s.text x = some str.bytes)), hr.find_bucket key str,
    hth.get_eq] at hloop
  · have hnext : s.next = loadNext s.nodeOk s.mem := rfl
    simp only [StringTable.findStringInHashtable, hr.bucketOf_eq hkey, hnext, Option.bind_eq_bind,
      Option.bind_some] at hloop ⊢
    rw [hloop]
    rfl
  · intro x hx
    obtain ⟨e, he, rfl, -⟩ := mem_links hx
    have htext : e.text.bytes = str.bytes ↔ e.text = str := ⟨CString.bytes_inj, congrArg _⟩
    simp [hr.text_eq he, strcmpEq_bytes, htext]

theorem next_split (hr : Rep s es) {b : ℕ} (hb : b < 2 ^ s.ht.bits.toNat) {us vs : List ℕ}
    {x : ℕ} (hx : bucket s.ht.bits (links es) b = us ++ x :: vs) :
    s.next (.addr x) = some (headPtr vs) := by
  have hth := hr.table.threads b hb
  rw [hx] at hth
  obtain ⟨-, -, -, hv, -⟩ := hth.mid
  rw [StringTable.next, loadNext_addr (hr.nodeOk b x (by simp [hx])), ← hv.get_eq, Buckets.get_next]

theorem deleteIfEqual_hit (hr : Rep s (A ++ e :: B)) : ∃ mem h,
    StringTable.deleteIfEqual e.text s e.entry = some ({ s with mem := mem, heap := h }, true) ∧
      Rep { s with mem := mem, heap := h } (A ++ B) ∧ h.grants = s.heap.grants := by
  obtain ⟨⟨mem, hmem, htab⟩, -⟩ := hr.unlink
  obtain ⟨h, hfree, hr', hgr⟩ := hr.freeEntry htab
  refine ⟨mem, h, ?_, hr', hgr⟩
  simp [StringTable.deleteIfEqual, hr.text_eq (show e ∈ A ++ e :: B by simp), strcmpEq_bytes,
    hmem, hfree]

theorem deleteIfEqual_miss (hr : Rep s es) (he : e ∈ es) {str : CString} (hne : e.text ≠ str) :
    StringTable.deleteIfEqual str s e.entry = some (s, false) := by
  simp [StringTable.deleteIfEqual, hr.text_eq he, strcmpEq_bytes, hne]

theorem delete (hr : Rep s es) {char : CharKind} {str : CString} {key : UInt32}
    (hkey : hashOf char str (toInt str.strlen) = some key) :
    ∃ s', StringTable.deleteStringFromHashtable char s str =
        some (if (es.find? (Entry.hits s.ht.bits key str)).isSome then 0 else 1, s') ∧
      Rep s' (es.eraseP (Entry.hits s.ht.bits key str)) ∧ s'.ht = s.ht ∧
      s'.heap.grants = s.heap.grants := by
  have hlt : key.toNat % 2 ^ s.ht.bits.toNat < 2 ^ s.ht.bits.toNat :=
    Nat.mod_lt _ (Nat.two_pow_pos _)
  have htext : ∀ d ∈ es, s.text d.entry = some str.bytes ↔ d.text = str := fun d hd => by
    rw [hr.text_eq hd, Option.some_inj]
    exact ⟨CString.bytes_inj, congrArg _⟩
  have hloop : hlistForEachEntrySafe StringTable.next (StringTable.deleteIfEqual str) s.fuel
      (headPtr (bucket s.ht.bits (links es) (key.toNat % 2 ^ s.ht.bits.toNat))) s = _ :=
    hlistForEachEntrySafe_find (fun x => decide (s.text x = some str.bytes))
      (fun us x vs hx => hr.next_split hlt hx) (fun x hx hp => by
        obtain ⟨d, hd, rfl, -⟩ := mem_links hx
        exact hr.deleteIfEqual_miss hd fun h => by simp [(htext d hd).mpr h] at hp)
      (fun x hx hp => by
        obtain ⟨d, hd, rfl, -⟩ := mem_links hx
        obtain ⟨A, B, rfl⟩ := List.append_of_mem hd
        obtain rfl := (htext d hd).mp (of_decide_eq_true hp)
        obtain ⟨mem, h, hbody, -⟩ := hr.deleteIfEqual_hit
        exact ⟨_, hbody⟩) (hr.bucket_length_lt _)
  rw [hr.find_bucket key str] at hloop
  cases hfind : es.find? (Entry.hits s.ht.bits key str) with
  | none =>
    rw [hfind] at hloop
    have hsame : es.eraseP (Entry.hits s.ht.bits key str) = es :=
      List.eraseP_of_forall_not (List.find?_eq_none.mp hfind)
    refine ⟨s, ?_, by rwa [hsame], rfl, rfl⟩
    simp only [StringTable.deleteStringFromHashtable, hr.bucketOf_eq hkey, Option.bind_eq_bind,
      Option.bind_some, hloop, Option.map_none]
    rfl
  | some d =>
    rw [hfind] at hloop
    obtain ⟨hhit, A, B, rfl, hA⟩ := List.find?_eq_some_iff_append.mp hfind
    have hd : d.text = str := by
      simp only [Entry.hits, Bool.and_eq_true, decide_eq_true_eq] at hhit
      exact hhit.2
    subst hd
    obtain ⟨mem, h, hbody, hr', hgr⟩ := hr.deleteIfEqual_hit
    have hrest : (A ++ d :: B).eraseP (Entry.hits s.ht.bits key d.text) = A ++ B := by
      rw [List.eraseP_append_right _ fun x hx => by simpa using hA x hx,
        List.eraseP_cons_of_pos hhit]
    refine ⟨{ s with mem := mem, heap := h }, ?_, by rwa [hrest], rfl, hgr⟩
    simp only [StringTable.deleteStringFromHashtable, hr.bucketOf_eq hkey, Option.bind_eq_bind,
      Option.bind_some, hloop, Option.map_some, hbody]
    rfl

theorem toTable (hr : Rep s es) :
    Hashtable.Rep lp64 s.ht.bits ⟨s.heap, s.ht, s.mem⟩ ⟨links es, []⟩ := by
  have hsub : ∀ l : List Entry, (l.map Entry.entry).Sublist (l.flatMap Entry.blocks) := by
    intro l
    induction l with
    | nil => exact .slnil
    | cons e l ih => exact (ih.cons e.block).cons_cons e.entry
  have hnd : (es.map Entry.entry).Nodup :=
    (List.nodup_cons.mp (List.nodup_cons.mp hr.nodup).2).2.sublist (hsub es)
  have hnodes : (⟨links es, []⟩ : Linkage ℕ).nodes = es.map Entry.entry := by
    rw [Linkage.nodes, links, List.map_map]
    rfl
  exact ⟨rfl, hr.headOk, hr.table, hnodes ▸ hnd, by simp⟩

theorem count (hr : Rep s es) : s.countEntries = some es.length := by
  have hcount := countEntriesInHashtable_eq (by have := hr.bits_le; omega : s.ht.bits.toNat < 32)
    hr.table hr.headOk hr.nodeOk (fun b => hr.bucket_length_lt b)
  have hlen := hr.toTable.visited_perm.length_eq
  rw [Linkage.nodes, links, List.length_map, List.length_map] at hlen
  rw [StringTable.countEntries, hr.htBits_eq, Option.bind_eq_bind, Option.bind_some, hcount]
  exact congrArg some hlen

theorem bucket_eq_cons {bits : UInt32} {b x : ℕ} {xs : List ℕ}
    (hb : bucket bits (links es) b = x :: xs) : ∃ A e B, es = A ++ e :: B ∧ e.entry = x ∧
      e.key.toNat % 2 ^ bits.toNat = b ∧ bucket bits (links A) b = [] ∧
      bucket bits (links B) b = xs := by
  rw [bucket_eq] at hb
  obtain ⟨e, ds, hcons, rfl, hds⟩ := List.map_eq_cons_iff.mp hb
  obtain ⟨A, B, rfl, hA, he, hB⟩ := List.filter_eq_cons_iff.mp hcons
  refine ⟨A, e, B, rfl, rfl, of_decide_eq_true he, ?_, ?_⟩
  · rw [bucket_eq, List.filter_eq_nil_iff.mpr hA, List.map_nil]
  · rw [bucket_eq, hB, hds]

def Remaining (ht : HashtableT) (bkt : ℕ → List ℕ) (s : StringTable) : Prop :=
  ∃ es, Rep s es ∧ s.ht = ht ∧ bkt = bucket ht.bits (links es)

theorem remaining_clears (ht : HashtableT) :
    Clears (fun s bkt => loadFirst s.headOk s.mem bkt) StringTable.next StringTable.hashDelEntry
      StringTable.freeEntry (2 ^ ht.bits.toNat) (Remaining ht) := by
  constructor
  · rintro bkt s ⟨es, hr, rfl, rfl⟩ b hb
    have hhead := (hr.table.threads b hb).get_eq
    rw [Buckets.get_first] at hhead
    rw [loadFirst, if_pos (hr.headOk b hb), hhead]
  · rintro bkt s ⟨es, hr, rfl, rfl⟩ b hb x xs hx
    exact hr.next_split hb (List.nil_append (x :: xs) ▸ hx : _ = [] ++ x :: xs)
  · rintro bkt s ⟨es, hr, rfl, rfl⟩ b hb x xs hx
    obtain ⟨A, e, B, rfl, rfl, rfl, hA, hB⟩ := bucket_eq_cons hx
    obtain ⟨-, mem, hmem, htab⟩ := hr.unlink
    obtain ⟨h, hfree, hr', -⟩ := hr.freeEntry htab
    have hrest : bucket s.ht.bits (links (A ++ B)) =
        Function.update (bucket s.ht.bits (links (A ++ e :: B)))
          (e.key.toNat % 2 ^ s.ht.bits.toNat) xs := by
      rw [← hB, ← List.nil_append (bucket s.ht.bits (links B) _), ← hA, links_append, links_append]
      exact bucket_del
    refine ⟨{ s with mem := mem, heap := h }, ?_, A ++ B, hr', rfl, hrest.symm⟩
    simp [clearEntry, StringTable.hashDelEntry, hmem, hfree]

theorem htFree (hr : Rep s es) : ∃ h, s.htFree = some h ∧ h.Balanced ∧ ∀ b, h.live b = false := by
  have hstart : Remaining s.ht (bucket s.ht.bits (links es)) s := ⟨es, hr, rfl, rfl⟩
  have hb := hr.bits_le
  obtain ⟨s', hloop, ds, hr', hht, hnone⟩ := (remaining_clears s.ht).all (by omega) hstart
    fun b _ => hr.bucket_length_lt b
  have hds : ds = [] := by
    apply List.eq_nil_iff_forall_not_mem.mpr
    intro d hd
    have hlt : d.key.toNat % 2 ^ s.ht.bits.toNat < 2 ^ s.ht.bits.toNat :=
      Nat.mod_lt _ (Nat.two_pow_pos _)
    have hmem : d.entry ∈ bucket s.ht.bits (links ds) (d.key.toNat % 2 ^ s.ht.bits.toNat) :=
      mem_bucket.mpr ⟨d.key, List.mem_map.mpr ⟨d, hd, rfl⟩, rfl⟩
    rw [← congrFun hnone _, if_pos hlt] at hmem
    exact List.not_mem_nil hmem
  subst hds
  have hlive := hr'.live_iff
  simp only [owned, hht, List.flatMap_nil, List.mem_cons, List.not_mem_nil, or_false] at hlive
  have hne : s.ht.self ≠ s.ht.table := by
    have hnd := hr.nodup
    simp only [owned, List.nodup_cons, List.mem_cons, not_or] at hnd
    exact hnd.1.1
  have htable : s'.heap.live s.ht.table = true := (hlive _).mpr (Or.inr rfl)
  have hself : (s'.heap.release s.ht.table).live s.ht.self = true := by
    simp [(hlive s.ht.self).mpr (Or.inl rfl), hne]
  refine ⟨(s'.heap.release s.ht.table).release s.ht.self, ?_,
    (hr'.balanced.release htable).release hself, fun b => ?_⟩
  · simp [StringTable.htFree, hr.htBits_eq, hloop, hht, Heap.free_live htable,
      Heap.free_live hself]
  · by_contra h
    rw [Bool.not_eq_false, Heap.release_live, Heap.release_live] at h
    simp only [Bool.and_eq_true, decide_eq_true_eq] at h
    rcases (hlive b).mp h.1.1 with rfl | rfl
    · exact h.2 rfl
    · exact h.1.2 rfl

end Rep
end
end KernelHashtable.Strings
