import KernelHashtable.AssocEntry
import Mathlib.Data.List.Perm.Subperm

/-!
# The representation invariant of the associative array

`Rep arr cs` says that the array holds the items `cs`, in the order of their addition:
the ring threads their entries in that order, each bucket chains those that hash to it
in the opposite order, the counter counts them, and the live blocks are theirs and the
three of the array. Each operation has one lemma that says what it does to the items.
-/

namespace KernelHashtable.Assoc
open Hash Hashtable HList KList

def keyBucket (bits : UInt32) (key : List UInt8) : ℕ :=
  (hash32Str key).toUInt32.toNat % 2 ^ bits.toNat

theorem keyBucket_lt (bits : UInt32) (key : List UInt8) : keyBucket bits key < 2 ^ bits.toNat :=
  Nat.mod_lt _ (Nat.two_pow_pos _)

def chain (bits : UInt32) (cs : List Item) (b : ℕ) : List Item :=
  (cs.filter fun c => decide (keyBucket bits c.key.bytes = b)).reverse

def bucket (bits : UInt32) (cs : List Item) (b : ℕ) : List ℕ := (chain bits cs b).map Item.entry

def owned (arr : AssocArray) (cs : List Item) : List ℕ :=
  arr.self :: arr.ht.self :: arr.ht.table :: cs.flatMap Item.blocks

structure Core (arr : AssocArray) (cs : List Item) : Prop where
  bits_le : arr.ht.bits.toNat ≤ 30
  table : IsTable (· < 2 ^ arr.ht.bits.toNat) arr.mem (bucket arr.ht.bits cs)
  items : ∀ c ∈ cs, Holds arr.cb arr.store c
  heads : 2 ^ arr.ht.bits.toNat * 8 ≤ arr.store.heap.size arr.ht.table
  owned_nodup : (owned arr cs).Nodup
  live_iff : ∀ b, arr.store.heap.live b = true ↔ b ∈ owned arr cs
  balanced : arr.store.heap.Balanced

structure Rep (arr : AssocArray) (cs : List Item) : Prop extends Core arr cs where
  ring : IsRing arr.ring .head (cs.map fun c => .node c.entry)
  size : arr.size = cs.length

section chains
variable {bits : UInt32} {A B : List Item} {c : Item} {b : ℕ}

theorem chain_append (b : ℕ) : chain bits (A ++ B) b = chain bits B b ++ chain bits A b := by
  simp [chain]

theorem chain_singleton_self : chain bits [c] (keyBucket bits c.key.bytes) = [c] := by
  simp [chain]

theorem chain_singleton_of_ne (hb : b ≠ keyBucket bits c.key.bytes) : chain bits [c] b = [] := by
  simp [chain, hb.symm]

theorem mem_chain : c ∈ chain bits A b ↔ c ∈ A ∧ keyBucket bits c.key.bytes = b := by
  simp [chain]

theorem bucket_append_singleton : bucket bits (A ++ [c]) = Function.update (bucket bits A)
    (keyBucket bits c.key.bytes) (c.entry :: bucket bits A (keyBucket bits c.key.bytes)) := by
  funext b
  by_cases hb : b = keyBucket bits c.key.bytes
  · rw [hb, Function.update_self, bucket, chain_append, chain_singleton_self]
    rfl
  · rw [Function.update_of_ne hb, bucket, chain_append, chain_singleton_of_ne hb]
    rfl

theorem bucket_split : bucket bits (A ++ c :: B) (keyBucket bits c.key.bytes) =
    bucket bits B (keyBucket bits c.key.bytes) ++
      c.entry :: bucket bits A (keyBucket bits c.key.bytes) := by
  have hsplit : A ++ c :: B = (A ++ [c]) ++ B := by simp
  rw [hsplit, bucket, chain_append, chain_append, chain_singleton_self]
  simp [bucket]

theorem bucket_remove : bucket bits (A ++ B) = Function.update (bucket bits (A ++ c :: B))
    (keyBucket bits c.key.bytes) (bucket bits B (keyBucket bits c.key.bytes) ++
      bucket bits A (keyBucket bits c.key.bytes)) := by
  funext b
  by_cases hb : b = keyBucket bits c.key.bytes
  · rw [hb, Function.update_self, bucket, chain_append]
    simp [bucket]
  · have hsplit : A ++ c :: B = (A ++ [c]) ++ B := by simp
    rw [Function.update_of_ne hb, hsplit, bucket, bucket, chain_append, chain_append,
      chain_append, chain_singleton_of_ne hb]
    simp

end chains

theorem owned_remove (arr : AssocArray) (A B : List Item) (c : Item) :
    (owned arr (A ++ c :: B)).Perm (c.blocks ++ owned arr (A ++ B)) := by
  have hflat : ((A ++ c :: B).flatMap Item.blocks).Perm
      (c.blocks ++ (A ++ B).flatMap Item.blocks) := by
    simp only [List.flatMap_append, List.flatMap_cons]
    rw [← List.append_assoc, ← List.append_assoc]
    exact List.perm_append_comm.append_right _
  have hthree : (owned arr (A ++ c :: B)).Perm
      ([arr.self, arr.ht.self, arr.ht.table] ++ (c.blocks ++ (A ++ B).flatMap Item.blocks)) :=
    hflat.append_left [arr.self, arr.ht.self, arr.ht.table]
  apply hthree.trans
  rw [← List.append_assoc]
  exact (List.perm_append_comm.append_right _).trans (by simp [owned])

theorem mem_blocks_owned {arr : AssocArray} {cs : List Item} {c : Item} {b : ℕ} (hc : c ∈ cs)
    (hb : b ∈ c.blocks) : b ∈ owned arr cs := by
  have hm : b ∈ cs.flatMap Item.blocks := List.mem_flatMap.mpr ⟨c, hc, hb⟩
  simp [owned, hm]

theorem entry_mem_owned {arr : AssocArray} {cs : List Item} {c : Item} (hc : c ∈ cs) :
    c.entry ∈ owned arr cs :=
  mem_blocks_owned hc (by simp [Item.blocks])

theorem length_le_blocks (cs : List Item) : cs.length ≤ (cs.flatMap Item.blocks).length := by
  induction cs with
  | nil => simp
  | cons d ds ih =>
    simp only [List.flatMap_cons, List.length_append, List.length_cons, Item.blocks]
    omega

namespace Core
variable {arr : AssocArray} {cs A B : List Item} {c : Item}

theorem live_owned (hr : Core arr cs) {b : ℕ} (hb : b ∈ owned arr cs) :
    arr.store.heap.live b = true :=
  (hr.live_iff b).mpr hb

theorem owned_lt (hr : Core arr cs) {b : ℕ} (hb : b ∈ owned arr cs) :
    b < arr.store.heap.fresh :=
  hr.balanced.lt_fresh (hr.live_owned hb)

theorem bits_lt (hr : Core arr cs) : arr.ht.bits.toNat < 32 := by
  have hle := hr.bits_le
  omega

theorem self_live (hr : Core arr cs) : arr.store.heap.live arr.self = true :=
  hr.live_owned (by simp [owned])

theorem htBits_eq (hr : Core arr cs) : arr.htBits = some arr.ht.bits := by
  have hht : arr.store.heap.live arr.ht.self = true := hr.live_owned (by simp [owned])
  simp [AssocArray.htBits, guard, hr.self_live, hht]

theorem headOk_of (hr : Core arr cs) :
    ∀ b, b < 2 ^ arr.ht.bits.toNat → arr.headOk b = true := by
  intro b hb
  have htab : arr.store.heap.live arr.ht.table = true := hr.live_owned (by simp [owned])
  have hfit : (b + 1) * 8 ≤ arr.store.heap.size arr.ht.table := by
    have hheads := hr.heads
    omega
  rw [AssocArray.headOk, Hashtable.headOk, htab, Bool.true_and]
  exact decide_eq_true hfit

theorem nodeOk_of (hr : Core arr cs) (b : ℕ) :
    ∀ e ∈ bucket arr.ht.bits cs b, arr.nodeOk e = true := by
  intro e he
  obtain ⟨c, hc, rfl⟩ := List.mem_map.mp he
  exact hr.live_owned (entry_mem_owned (mem_chain.mp hc).1)

theorem length_lt_fuel (hr : Core arr cs) : cs.length < arr.fuel := by
  have hlen : cs.length ≤ (owned arr cs).length := by
    have hflat := length_le_blocks cs
    simp only [owned, List.length_cons]
    omega
  have hsub : owned arr cs ⊆ List.range arr.store.heap.fresh := fun b hb =>
    List.mem_range.mpr (hr.owned_lt hb)
  have hle := (List.subperm_of_subset hr.owned_nodup hsub).length_le
  rw [List.length_range] at hle
  exact Nat.lt_succ_of_le (hlen.trans hle)

theorem bucket_length_lt (hr : Core arr cs) (b : ℕ) :
    (bucket arr.ht.bits cs b).length < arr.fuel := by
  have hle : (bucket arr.ht.bits cs b).length ≤ cs.length := by
    simpa [bucket, chain] using List.length_filter_le _ cs
  exact lt_of_le_of_lt hle hr.length_lt_fuel

theorem blocks_nodup (hr : Core arr (A ++ c :: B)) : c.blocks.Nodup :=
  (List.nodup_append.mp ((owned_remove arr A B c).nodup_iff.mp hr.owned_nodup)).1

theorem released (hr : Core arr (A ++ c :: B)) {st : Store} {mem : Buckets ℕ ℕ}
    (hrel : Released arr.cb arr.store st c)
    (htab : IsTable (· < 2 ^ arr.ht.bits.toNat) mem (bucket arr.ht.bits (A ++ B)))
    (ring : Links (Loc ℕ)) (n : ℕ) :
    Core ⟨st, arr.self, arr.ht, mem, ring, n, arr.cb⟩ (A ++ B) := by
  have hperm := owned_remove arr A B c
  obtain ⟨-, hrest, hdisj⟩ := List.nodup_append.mp (hperm.nodup_iff.mp hr.owned_nodup)
  refine ⟨hr.bits_le, htab, fun d hd => ?_, ?_, hrest, fun b => ?_,
    hrel.balanced hr.balanced⟩
  · have hd' : d ∈ A ++ c :: B := by
      rcases List.mem_append.mp hd with hd | hd
      · exact List.mem_append_left _ hd
      · exact List.mem_append_right _ (List.mem_cons_of_mem c hd)
    refine (hr.items d hd').frame ⟨by rw [hrel.key], by rw [hrel.keySize], by rw [hrel.data],
      fun b hb => ?_, fun b _ => by rw [hrel.bytes]⟩
    have hout : b ∉ c.blocks := fun h => hdisj b h b (mem_blocks_owned hd hb) rfl
    simp [hrel.live, hout]
  · rw [hrel.size]
    exact hr.heads
  · have hiff := hr.live_iff b
    rw [hperm.mem_iff, List.mem_append] at hiff
    rw [hrel.live, Bool.and_eq_true, hiff, decide_eq_true_eq]
    exact ⟨fun h => h.1.resolve_left h.2, fun h => ⟨Or.inr h, fun hb => hdisj b hb b h rfl⟩⟩

end Core

theorem Rep.ringOk_of {arr : AssocArray} {cs : List Item} (hr : Rep arr cs) :
    ∀ x ∈ Loc.head :: cs.map fun c => Loc.node c.entry, arr.ringOk x = true := by
  intro x hx
  rcases List.mem_cons.mp hx with rfl | hx
  · exact hr.self_live
  · obtain ⟨c, hc, rfl⟩ := List.mem_map.mp hx
    exact hr.live_owned (entry_mem_owned hc)

def agrees (past : ℕ → Bool) (k : Key) (e : ℕ × List UInt8) : Bool :=
  if k.bytes.length ≤ e.2.length then decide (e.2.take k.bytes.length = k.bytes) else past e.1

def collectKey (st : Store) (es : List (ℕ × List UInt8)) (e : ℕ) :
    Option (List (ℕ × List UInt8) × Bool) := do
  let stored ← st.read (st.key e) (st.keySize e).toNat
  return (es ++ [(e, stored)], false)

def bucketKeys (arr : AssocArray) (k : Key) : Option (List (ℕ × List UInt8)) := do
  let bits ← arr.htBits
  let bkt := calcBkt (hash32Str k.bytes).toUInt32 (oneShl bits).toInt32
  let pos ← loadFirst arr.headOk arr.mem bkt.toNat
  let (_, es) ← hlistForEachEntry (fun _ p => loadNext arr.nodeOk arr.mem p)
    (collectKey arr.store) arr.fuel pos []
  return es

def Item.stored (c : Item) : ℕ × List UInt8 := (c.entry, c.key.bytes)

def compares (past : ℕ → Bool) (k : Key) (c : Item) : Bool := agrees past k c.stored

theorem compares_eq (past : ℕ → Bool) (k : Key) (c : Item) : compares past k c =
    if k.bytes.length ≤ c.key.bytes.length then
      decide (c.key.bytes.take k.bytes.length = k.bytes) else past c.entry := rfl

def candidates (bits : UInt32) (cs : List Item) (k : Key) : List Item :=
  chain bits cs (keyBucket bits k.bytes)

def found (past : ℕ → Bool) (bits : UInt32) (cs : List Item) (k : Key) : Option Item :=
  (candidates bits cs k).find? (compares past k)

namespace Rep
variable {arr : AssocArray} {cs A B : List Item} {c : Item} {past : ℕ → Bool} {k : Key}

theorem memcmpEq_item (hr : Rep arr cs) (hc : c ∈ cs) :
    memcmpEq past arr.store c.entry k.ptr k.size = some (compares past k c) := by
  have hi := hr.items c hc
  simp only [memcmpEq, Key.size_toNat, Key.read_ptr, hi.ptr, hi.object, Option.bind_eq_bind,
    Option.bind_some, compares_eq]
  split_ifs <;> rfl

theorem read_stored (hr : Rep arr cs) (hc : c ∈ cs) :
    arr.store.read (arr.store.key c.entry) (arr.store.keySize c.entry).toNat =
      some c.key.bytes := by
  have hi := hr.items c hc
  simp [Store.read, hi.ptr, hi.object, hi.size]

theorem bkt_eq (hr : Rep arr cs) (k : Key) :
    (calcBkt (hash32Str k.bytes).toUInt32 (oneShl arr.ht.bits).toInt32).toNat =
      keyBucket arr.ht.bits k.bytes :=
  calcBkt_toNat hr.bits_lt _

theorem bucketKeys_eq (hr : Rep arr cs) :
    bucketKeys arr k = some ((candidates arr.ht.bits cs k).map Item.stored) := by
  have hlt := keyBucket_lt arr.ht.bits k.bytes
  simp only [bucketKeys, hr.htBits_eq, Option.bind_eq_bind, Option.bind_some, hr.bkt_eq,
    loadFirst, hr.headOk_of _ hlt, if_true]
  have hwalk := (hlistForEachEntry_threads (collectKey arr.store) (hr.table.threads _ hlt)
    (hr.nodeOk_of _) (hr.bucket_length_lt _) []).trans
    (foldUntil_collect Item.entry Item.stored (candidates arr.ht.bits cs k) fun c hc es => by
      simp [collectKey, hr.read_stored (mem_chain.mp hc).1, Item.stored])
  exact congrArg (fun o => Option.bind o _) hwalk

theorem bucketWalk_eq (hr : Rep arr cs) : bucketWalk past arr k.ptr k.size =
    some ((found past arr.ht.bits cs k).map Item.entry,
      ((upTo (compares past k) (candidates arr.ht.bits cs k)).map Item.entry).reverse) := by
  have hlt := keyBucket_lt arr.ht.bits k.bytes
  simp only [bucketWalk, hr.htBits_eq, Key.size_toNat, Key.read_ptr, Option.bind_eq_bind,
    Option.bind_some, hr.bkt_eq, loadFirst, hr.headOk_of _ hlt, if_true]
  refine (hlistForEachEntrySafe_threads _ (hr.table.threads _ hlt) (hr.nodeOk_of _)
    (hr.bucket_length_lt _) []).trans ?_
  refine (foldUntil_search Item.entry (compares past k) (candidates arr.ht.bits cs k)
    (fun c hc compared => ?_) []).trans (by rw [List.append_nil]; rfl)
  simp [hr.memcmpEq_item (mem_chain.mp hc).1]

theorem getByKey (hr : Rep arr cs) : arrayGetByKey past arr k.ptr k.size =
    some ((found past arr.ht.bits cs k).map Item.entry) := by
  simp [arrayGetByKey, hr.bucketWalk_eq]

theorem remove (hr : Rep arr (A ++ c :: B)) : ∃ arr', unlinkAndFree arr c.entry = some arr' ∧
    Rep arr' (A ++ B) ∧ arr'.self = arr.self ∧ arr'.ht = arr.ht ∧ arr'.cb = arr.cb ∧
      Released arr.cb arr.store arr'.store c := by
  have hc : c ∈ A ++ c :: B := by simp
  have hlt := keyBucket_lt arr.ht.bits c.key.bytes
  obtain ⟨mem, hmem, htab⟩ := hlistDel_isTable hr.table hr.headOk_of hlt (hr.nodeOk_of _)
    bucket_split
  have hring : IsRing arr.ring .head (A.map (fun c => Loc.node c.entry) ++
      Loc.node c.entry :: B.map fun c => Loc.node c.entry) := by
    simpa using hr.ring
  obtain ⟨ring, hdel, hring'⟩ := kListDel_isRing hring (by simpa using hr.ringOk_of)
  obtain ⟨st, hfree, hrel⟩ := freeEntry_released (hr.items c hc) hr.blocks_nodup
  rw [← bucket_remove] at htab
  refine ⟨⟨st, arr.self, arr.ht, mem, ring, arr.size - 1, arr.cb⟩, ?_, ?_, rfl, rfl, rfl, hrel⟩
  · simp [unlinkAndFree, hmem, hdel, hfree]
  · exact ⟨hr.released hrel htab _ _, by simpa using hring', by simp [hr.size]⟩

section
variable {st : Store} {data : ℕ}

theorem filled_new (hr : Rep arr cs) (hf : Filled arr.cb arr.store st c) :
    ∀ b ∈ c.blocks, b ∉ owned arr cs := by
  intro b hb ho
  have hge := hf.new b hb
  have hlt := hr.owned_lt ho
  omega

theorem filled_live (hr : Rep arr cs) (hf : Filled arr.cb arr.store st c) :
    ∀ b ∈ owned arr cs, st.heap.live b = true := by
  intro b hb
  rw [hf.live, hr.live_owned hb, Bool.true_or]

theorem filled_items (hr : Rep arr cs) (hf : Filled arr.cb arr.store st c) :
    ∀ d ∈ cs ++ [c], Holds arr.cb st d := by
  intro d hd
  rcases List.mem_append.mp hd with hd | hd
  · have hne : d.entry ≠ c.entry := fun e =>
      hr.filled_new hf c.entry (by simp [Item.blocks]) (e ▸ entry_mem_owned hd)
    refine (hr.items d hd).frame ⟨hf.key _ hne, hf.keySize _ hne, hf.data _ hne,
      fun b hb => ?_, fun b hb => ?_⟩
    · have hbo : b ∈ owned arr cs := mem_blocks_owned hd hb
      rw [hr.filled_live hf b hbo, hr.live_owned hbo]
    · exact hf.bytes b (hr.owned_lt (mem_blocks_owned hd hb))
  · rw [List.mem_singleton.mp hd]
    exact hf.holds

theorem filled_heads (hr : Rep arr cs) (hf : Filled arr.cb arr.store st c) :
    2 ^ arr.ht.bits.toNat * 8 ≤ st.heap.size arr.ht.table := by
  rw [hf.size _ (hr.owned_lt (by simp [owned]))]
  exact hr.heads

theorem filled_headOk (hr : Rep arr cs) (hf : Filled arr.cb arr.store st c) :
    ∀ b, b < 2 ^ arr.ht.bits.toNat →
      ({ arr with store := st } : AssocArray).headOk b = true := by
  intro b hb
  have htab := hr.filled_live hf arr.ht.table (by simp [owned])
  have hfit : (b + 1) * 8 ≤ st.heap.size arr.ht.table := by
    have hheads := hr.filled_heads hf
    omega
  rw [AssocArray.headOk, Hashtable.headOk, htab, Bool.true_and]
  exact decide_eq_true hfit

theorem filled_ringOk (hr : Rep arr cs) (hf : Filled arr.cb arr.store st c) :
    ∀ x ∈ Loc.head :: cs.map fun c => Loc.node c.entry,
      ({ arr with store := st } : AssocArray).ringOk x = true := by
  intro x hx
  rcases List.mem_cons.mp hx with rfl | hx
  · exact hr.filled_live hf arr.self (by simp [owned])
  · obtain ⟨d, hd, rfl⟩ := List.mem_map.mp hx
    exact hr.filled_live hf _ (entry_mem_owned hd)

theorem filled_owned_nodup (hr : Rep arr cs) (hf : Filled arr.cb arr.store st c) :
    (c.blocks ++ owned arr cs).Nodup := by
  refine List.nodup_append.mpr ⟨hf.nodup, hr.owned_nodup, fun b hb b' hb' e => ?_⟩
  exact hr.filled_new hf b hb (e ▸ hb')

theorem link (hr : Rep arr cs) (hf : Filled arr.cb arr.store st c) : ∃ mem ring,
    ({ arr with store := st } : AssocArray).htBits = some arr.ht.bits ∧
    hashtableAdd ({ arr with store := st } : AssocArray).headOk
      ({ arr with store := st } : AssocArray).nodeOk arr.mem arr.ht c.entry
      (hash32Str c.key.bytes).toUInt32 = some mem ∧
    kListAddTail ({ arr with store := st } : AssocArray).ringOk arr.ring (.addr (.node c.entry))
      (.addr .head) = some ring ∧
    Rep { arr with store := st, mem := mem, ring := ring, size := arr.size + 1 } (cs ++ [c]) := by
  have hlive := hr.filled_live hf
  have hout := hr.filled_new hf c.entry (by simp [Item.blocks])
  obtain ⟨mem, hmem, -, htab⟩ := hlistAddHead_isTable (n := c.entry) hr.table
    (hr.filled_headOk hf) (keyBucket_lt arr.ht.bits c.key.bytes) hf.holds.live
    (fun e he => by
      obtain ⟨d, hd, rfl⟩ := List.mem_map.mp he
      exact hlive _ (entry_mem_owned (mem_chain.mp hd).1))
    (fun b he => by
      obtain ⟨d, hd, hde⟩ := List.mem_map.mp he
      exact hout (hde ▸ entry_mem_owned (mem_chain.mp hd).1))
  obtain ⟨ring, hadd, hring⟩ := kListAddTail_isRing (n := Loc.node c.entry) hr.ring
    (hr.filled_ringOk hf) hf.holds.live
    (fun hx => by
      obtain ⟨d, hd, hde⟩ := List.mem_map.mp ((List.mem_cons.mp hx).resolve_left (by simp))
      exact hout (Loc.node.inj hde ▸ entry_mem_owned hd))
  refine ⟨mem, ring, ?_, ?_, hadd, ?_⟩
  · have hself := hlive arr.self (by simp [owned])
    have hht := hlive arr.ht.self (by simp [owned])
    simp [AssocArray.htBits, guard, hself, hht]
  · rw [hashtableAdd, hashAddBits, hr.bkt_eq]
    exact hmem
  · have hperm : (owned arr (cs ++ [c])).Perm (c.blocks ++ owned arr cs) := by
      simpa using owned_remove arr cs [] c
    refine ⟨⟨hr.bits_le, ?_, hr.filled_items hf, hr.filled_heads hf,
      hperm.nodup_iff.mpr (hr.filled_owned_nodup hf), fun b => ?_, hf.balanced hr.balanced⟩,
      by simpa using hring, by simp [hr.size]⟩
    · rw [bucket_append_singleton]
      exact htab
    · have hiff : b ∈ owned arr (cs ++ [c]) ↔ b ∈ c.blocks ∨ b ∈ owned arr cs := by
        rw [hperm.mem_iff, List.mem_append]
      rw [hf.live, Bool.or_eq_true, hr.live_iff, decide_eq_true_eq]
      exact or_comm.trans hiff.symm

theorem add_ok (hr : Rep arr cs) (hg : arr.cb.FillGranted arr.store.heap k)
    (hd : arr.cb.Accepts data) : ∃ c arr', arrayAdd arr data k.ptr k.size = some (0, arr') ∧
      c.key = k ∧ c.data = data ∧ Rep arr' (cs ++ [c]) ∧
      arr'.self = arr.self ∧ arr'.ht = arr.ht ∧ arr'.cb = arr.cb ∧
      Filled arr.cb arr.store arr'.store c := by
  obtain ⟨c, st, hfill, hentry, rfl, hdata, hf⟩ := fillEntry_filled data hg hd
  obtain ⟨mem, ring, hbits, hmem, hring, hrep⟩ := hr.link hf
  rw [hentry] at hmem hring
  refine ⟨c, _, ?_, rfl, hdata, hrep, rfl, rfl, rfl, hf⟩
  have hfill' : arr.cb.fillEntry { arr.store with
      heap := arr.store.heap.grant sizeofAssocArrayEntry } arr.store.heap.fresh data c.key.ptr
      c.key.size = some (0, st) := hfill
  simp [arrayAdd, Heap.malloc_grant hg.1, hfill', hbits, hmem, hring]

theorem undone (hr : Rep arr cs) (hu : Undone arr.store st) :
    Rep { arr with store := st } cs := by
  refine ⟨⟨hr.bits_le, hr.table, fun d hd => ?_, ?_, hr.owned_nodup, ?_, hu.balanced⟩, hr.ring,
    hr.size⟩
  · refine (hr.items d hd).frame ⟨?_, by rw [hu.keySize], by rw [hu.data],
      fun b _ => by rw [hu.live], fun b _ => by rw [hu.bytes]⟩
    exact hu.key _ (hr.owned_lt (entry_mem_owned hd))
  · rw [hu.size _ (hr.owned_lt (by simp [owned]))]
    exact hr.heads
  · intro b
    rw [hu.live]
    exact hr.live_iff b

theorem add_fail (hr : Rep arr cs) (data : ℕ)
    (hg : ¬ arr.cb.FillGranted arr.store.heap k) :
    ∃ st, arrayAdd arr data k.ptr k.size = some (-1, { arr with store := st }) ∧
      Undone arr.store st := by
  cases h₁ : arr.store.heap.grants arr.store.heap.calls sizeofAssocArrayEntry with
  | false =>
    refine ⟨_, ?_, undone_deny hr.balanced⟩
    simp [arrayAdd, Heap.malloc_deny h₁]
  | true =>
    obtain ⟨st₁, st₂, hfill, hfree, hu⟩ := fillEntry_undone data hr.balanced hg h₁
    have hfill' : arr.cb.fillEntry { arr.store with
        heap := arr.store.heap.grant sizeofAssocArrayEntry } arr.store.heap.fresh data k.ptr
        k.size = some (1, st₁) := hfill
    refine ⟨st₂, ?_, hu⟩
    simp [arrayAdd, Heap.malloc_grant h₁, hfill', hfree]

end

theorem found_mem {bits : UInt32} (hf : found past bits cs k = some c) :
    c ∈ cs ∧ keyBucket bits c.key.bytes = keyBucket bits k.bytes :=
  mem_chain.mp (List.mem_of_find?_eq_some hf)

theorem del_none (hr : Rep arr cs) (hf : found past arr.ht.bits cs k = none) :
    arrayDel past arr k.ptr k.size = some (1, arr) := by
  simp [arrayDel, hr.getByKey, hf]

theorem del_some (hr : Rep arr (A ++ c :: B))
    (hf : found past arr.ht.bits (A ++ c :: B) k = some c) :
    ∃ arr', arrayDel past arr k.ptr k.size = some (0, arr') ∧ Rep arr' (A ++ B) ∧
      arr'.self = arr.self ∧ arr'.ht = arr.ht ∧ arr'.cb = arr.cb ∧
      Released arr.cb arr.store arr'.store c := by
  obtain ⟨arr', hrem, hrest⟩ := hr.remove
  exact ⟨arr', by simp [arrayDel, hr.getByKey, hf, hrem], hrest⟩

theorem emptyOrZero_eq (hr : Rep arr cs) : emptyOrZero arr = some cs.isEmpty := by
  have hhead : arr.ringOk .head = true := hr.self_live
  simp only [emptyOrZero, kListEmpty_isRing hr.ring hhead, hr.size, Option.bind_eq_bind,
    Option.bind_some]
  cases cs <;> simp

theorem endEntry_first (hr : Rep arr (c :: cs)) :
    endEntry arr true = some (.addr (.node c.entry)) := by
  have hhead : arr.ringOk .head = true := hr.self_live
  rw [endEntry, if_pos rfl, Links.loadNext_addr _ hhead, hr.ring.next_head]
  rfl

theorem endEntry_last (hr : Rep arr (cs ++ [c])) :
    endEntry arr false = some (.addr (.node c.entry)) := by
  have hhead : arr.ringOk .head = true := hr.self_live
  rw [endEntry, if_neg (by simp), Links.loadPrev_addr _ hhead, hr.ring.prev_head]
  simp

theorem getEnd_nil (hr : Rep arr []) (isFirst : Bool) : arrayGetEnd arr isFirst = some .null := by
  simp [arrayGetEnd, hr.emptyOrZero_eq]

theorem getFirst_cons (hr : Rep arr (c :: cs)) :
    arrayGetFirst arr = some (.addr (.node c.entry)) := by
  simp [arrayGetFirst, arrayGetEnd, hr.emptyOrZero_eq, hr.endEntry_first]

theorem getLast_concat (hr : Rep arr (cs ++ [c])) :
    arrayGetLast arr = some (.addr (.node c.entry)) := by
  simp [arrayGetLast, arrayGetEnd, hr.emptyOrZero_eq, hr.endEntry_last]

theorem delEnd_nil (hr : Rep arr []) (isFirst : Bool) :
    arrayDelEnd arr isFirst = some (-1, arr) := by
  simp [arrayDelEnd, hr.emptyOrZero_eq]

theorem delFirst_cons (hr : Rep arr (c :: cs)) : ∃ arr', arrayDelFirst arr = some (0, arr') ∧
    Rep arr' cs ∧ arr'.self = arr.self ∧ arr'.ht = arr.ht ∧ arr'.cb = arr.cb ∧
      Released arr.cb arr.store arr'.store c := by
  have hr' : Rep arr ([] ++ c :: cs) := hr
  obtain ⟨arr', hrem, hrest⟩ := hr'.remove
  refine ⟨arr', ?_, hrest⟩
  simp [arrayDelFirst, arrayDelEnd, hr.emptyOrZero_eq, hr.endEntry_first, hrem]

theorem delLast_concat (hr : Rep arr (cs ++ [c])) :
    ∃ arr', arrayDelLast arr = some (0, arr') ∧
      Rep arr' cs ∧ arr'.self = arr.self ∧ arr'.ht = arr.ht ∧ arr'.cb = arr.cb ∧
      Released arr.cb arr.store arr'.store c := by
  obtain ⟨arr', hrem, hrep, hrest⟩ := hr.remove
  refine ⟨arr', ?_, by simpa using hrep, hrest⟩
  simp [arrayDelLast, arrayDelEnd, hr.emptyOrZero_eq, hr.endEntry_last, hrem]

end Rep
end KernelHashtable.Assoc
