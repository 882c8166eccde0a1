import KernelHashtable.AssocInvariant

/-!
# Creating and freeing an associative array

`array_create` either sets up an empty array or gives back all it took. `array_free`
walks the buckets, not the ring; `charge` counts a block of the caller once for every
time it has been freed and once for every item that will free it, and no deletion
changes it.
-/

namespace KernelHashtable.Assoc
open Hash Hashtable HList KList

def CreateGranted (h : Heap) (bits : UInt32) : Prop :=
  h.grants h.calls sizeofAssocArray = true ∧
    h.grants (h.calls + 1) (sizeofHashtable lp64) = true ∧
    h.grants (h.calls + 2) (2 ^ bits.toNat * 8) = true

section
variable {h : Heap} (raw : Raw) {bits : UInt32} (cb : Callbacks)

theorem arrayCreate_granted (hb : bits.toNat ≤ 30) (hbal : h.Balanced)
    (hempty : ∀ b, h.live b = false) (hg : CreateGranted h bits) : ∃ arr,
    arrayCreate h raw bits cb = some (some arr, arr.store.heap) ∧ Rep arr [] ∧ arr.cb = cb ∧
      arr.ht.bits = bits ∧ arr.store.heap.grants = h.grants ∧
      arr.store.heap.freed = h.freed := by
  let h₁ := h.grant sizeofAssocArray
  let h₂ := (h₁.grant (sizeofHashtable lp64)).grant (2 ^ bits.toNat * 8)
  obtain ⟨mem, hht, htab⟩ := htCreate_granted (h := h₁) (M := raw.mem) hb hg.2.1 hg.2.2
  let arr : AssocArray := ⟨⟨h₂, raw.key, raw.keySize, raw.data⟩, h.fresh,
    ⟨h.fresh + 1, h.fresh + 2, bits⟩, mem, raw.ring, 0, cb⟩
  have hself : arr.ringOk .head = true := by
    simp [AssocArray.ringOk, arr, h₂, h₁]
  obtain ⟨ring, hinit, hring⟩ := kInitListHead_isRing (L := raw.ring) hself
  refine ⟨{ arr with ring := ring }, ?_, ?_, rfl, rfl, rfl, rfl⟩
  · have hinit' : kInitListHead arr.ringOk raw.ring (.addr .head) = some ring := hinit
    simp only [arrayCreate, Heap.malloc_grant hg.1, Option.bind_eq_bind]
    rw [hht]
    simp only [Option.bind_some]
    exact (congrArg (fun o => Option.bind o _) hinit').trans rfl
  · refine ⟨⟨hb, htab, by simp, ?_, ?_, fun b => ?_, ((hbal.grant _).grant _).grant _⟩, hring,
      rfl⟩
    · simp [arr, h₂, Heap.grant, h₁]
    · simp [owned, arr]
    · have hl : h₂.live b = (((h.live b || decide (b = h.fresh)) || decide (b = h.fresh + 1)) ||
          decide (b = h.fresh + 2)) := by
        rw [Heap.grant_live, Heap.grant_live, Heap.grant_live]
        rfl
      change h₂.live b = true ↔ _
      rw [hl, hempty b]
      simp [owned, arr, or_assoc]

theorem arrayCreate_denied (hb : bits.toNat ≤ 30) (hbal : h.Balanced)
    (hg : ¬ CreateGranted h bits) : ∃ h',
    arrayCreate h raw bits cb = some (none, h') ∧ h'.Balanced ∧ h'.live = h.live ∧
      ∀ d, h'.freed.count (.foreign d) = h.freed.count (.foreign d) := by
  cases hg₁ : h.grants h.calls sizeofAssocArray with
  | false =>
    refine ⟨h.deny, ?_, hbal.deny, rfl, fun _ => rfl⟩
    simp [arrayCreate, Heap.malloc_deny hg₁]
  | true =>
    have hden : ¬ ((h.grant sizeofAssocArray).grants (h.grant sizeofAssocArray).calls
          (sizeofHashtable lp64) = true ∧
        (h.grant sizeofAssocArray).grants ((h.grant sizeofAssocArray).calls + 1)
          (2 ^ bits.toNat * 8) = true) := fun hc => hg ⟨hg₁, hc⟩
    obtain ⟨h', hht, hbal', hlive, hforeign⟩ :=
      htCreate_denied (M := raw.mem) hb (hbal.grant sizeofAssocArray) hden
    have hl : h'.live h.fresh = true := by simp [hlive]
    refine ⟨h'.release h.fresh, ?_, hbal'.release hl, hbal.release_grant _ hlive, fun d => ?_⟩
    · simp [arrayCreate, Heap.malloc_grant hg₁, hht, Heap.free_live hl]
    · simp [hforeign]

end

def charge (arr : AssocArray) (cs : List Item) (d : ℕ) : ℕ :=
  arr.store.heap.freed.count (.foreign d) + (cs.flatMap fun c => arr.cb.dataBlocks c.data).count d

section
variable {arr : AssocArray} {A B cs : List Item} {c : Item}

theorem charge_released {st : Store} {mem : Buckets ℕ ℕ} {ring : Links (Loc ℕ)} {n : ℕ}
    (hrel : Released arr.cb arr.store st c) (d : ℕ) :
    charge ⟨st, arr.self, arr.ht, mem, ring, n, arr.cb⟩ (A ++ B) d =
      charge arr (A ++ c :: B) d := by
  simp only [charge, hrel.foreign, List.flatMap_append, List.flatMap_cons, List.count_append]
  omega

theorem clearEntry_core (hr : Core arr (A ++ c :: B)) : ∃ st mem,
    clearEntry hashDelEntry freeEntryOf arr c.entry =
      some ({ arr with store := st, mem := mem }, false) ∧
      Core { arr with store := st, mem := mem } (A ++ B) ∧
      (∀ d, charge { arr with store := st, mem := mem } (A ++ B) d =
        charge arr (A ++ c :: B) d) ∧
      st.heap.calls = arr.store.heap.calls ∧ st.heap.grants = arr.store.heap.grants := by
  have hlt := keyBucket_lt arr.ht.bits c.key.bytes
  obtain ⟨mem, hmem, -, -, htab⟩ := hlistDelInit_isTable hr.table hr.headOk_of hlt
    (hr.nodeOk_of _) bucket_split
  obtain ⟨st, hfree, hrel⟩ := freeEntry_released (hr.items c (by simp)) hr.blocks_nodup
  rw [← bucket_remove] at htab
  refine ⟨st, mem, ?_, hr.released hrel htab _ _, charge_released hrel, hrel.calls, hrel.grants⟩
  simp [clearEntry, hashDelEntry, hashDel, hmem, freeEntryOf, hfree]

theorem chain_eq_cons {bits : UInt32} {b : ℕ} {l : List Item} (hc : chain bits cs b = c :: l) :
    keyBucket bits c.key.bytes = b ∧
      ∃ A B, cs = A ++ c :: B ∧ chain bits (A ++ B) b = l := by
  have hmem : c ∈ chain bits cs b := by simp [hc]
  refine ⟨(mem_chain.mp hmem).2, ?_⟩
  have hf : (cs.filter fun c => decide (keyBucket bits c.key.bytes = b)) = l.reverse ++ [c] := by
    rw [← List.reverse_reverse (List.filter _ cs)]
    exact (congrArg List.reverse hc).trans (by simp)
  obtain ⟨A, B', rfl, hA, hB'⟩ := List.filter_eq_append_iff.mp hf
  obtain ⟨B₁, B₂, rfl, hB₁, -, hB₂⟩ := List.filter_eq_cons_iff.mp hB'
  refine ⟨A ++ B₁, B₂, by simp, ?_⟩
  have hB₁' : (B₁.filter fun c => decide (keyBucket bits c.key.bytes = b)) = [] :=
    List.filter_eq_nil_iff.mpr hB₁
  simp only [chain, List.filter_append, hA, hB₁', hB₂]
  simp

theorem bucket_eq_cons {bits : UInt32} {b x : ℕ} {xs : List ℕ}
    (hb : bucket bits cs b = x :: xs) : ∃ A c B, cs = A ++ c :: B ∧ c.entry = x ∧
      bucket bits (A ++ B) = Function.update (bucket bits cs) b xs := by
  obtain ⟨c, l, hc, rfl, rfl⟩ := List.map_eq_cons_iff.mp hb
  obtain ⟨rfl, A, B, rfl, hrest⟩ := chain_eq_cons hc
  refine ⟨A, c, B, rfl, rfl, ?_⟩
  rw [bucket_remove (c := c), ← hrest, chain_append, List.map_append]
  rfl

def Clearing (arr : AssocArray) (cs : List Item) (bkt : ℕ → List ℕ) (arr' : AssocArray) : Prop :=
  ∃ cs', bucket arr.ht.bits cs' = bkt ∧ arr'.self = arr.self ∧ arr'.ht = arr.ht ∧
    Core arr' cs' ∧ (∀ d, charge arr' cs' d = charge arr cs d) ∧
    arr'.store.heap.calls = arr.store.heap.calls ∧ arr'.store.heap.grants = arr.store.heap.grants

theorem clearing_clears (arr : AssocArray) (cs : List Item) :
    Clears (fun arr bkt => loadFirst arr.headOk arr.mem bkt)
      (fun arr p => loadNext arr.nodeOk arr.mem p) hashDelEntry freeEntryOf
      (2 ^ arr.ht.bits.toNat) (Clearing arr cs) := by
  constructor
  · rintro bkt arr' ⟨cs', rfl, -, hht, hr, -⟩ b hb
    rw [← hht] at hb ⊢
    have hhead := (hr.table.threads b hb).get_eq
    rw [Buckets.get_first] at hhead
    rw [loadFirst, if_pos (hr.headOk_of b hb), hhead]
  · rintro bkt arr' ⟨cs', rfl, -, hht, hr, -⟩ b hb x xs hx
    rw [← hht] at hb hx
    have hthreads := hr.table.threads b hb
    have hok := hr.nodeOk_of b x (by simp [hx])
    rw [hx] at hthreads
    rw [loadNext_addr hok]
    exact congrArg some hthreads.2.2.get_eq
  · rintro bkt arr' ⟨cs', rfl, hself, hht, hr, hcharge, hcalls, hgrants⟩ b hb x xs hx
    obtain ⟨A, c, B, rfl, rfl, hrest⟩ := bucket_eq_cons hx
    obtain ⟨st, mem, hbody, hcore, hcharge', hcalls', hgrants'⟩ := clearEntry_core hr
    exact ⟨_, hbody, A ++ B, hrest, hself, hht, hcore, fun d => (hcharge' d).trans (hcharge d),
      hcalls'.trans hcalls, hgrants'.trans hgrants⟩

theorem eq_nil_of_buckets (bits : UInt32)
    (hb : ∀ b < 2 ^ bits.toNat, bucket bits cs b = []) : cs = [] := by
  apply List.eq_nil_iff_forall_not_mem.mpr
  intro c hc
  have hmem : c.entry ∈ bucket bits cs (keyBucket bits c.key.bytes) :=
    List.mem_map_of_mem (mem_chain.mpr ⟨hc, rfl⟩)
  rw [hb _ (keyBucket_lt bits c.key.bytes)] at hmem
  exact List.not_mem_nil hmem

theorem Rep.arrayFree_eq (hr : Rep arr cs) : ∃ h, arrayFree arr = some (0, h) ∧ h.Balanced ∧
    (∀ b, h.live b = false) ∧ (∀ d, h.freed.count (.foreign d) = charge arr cs d) ∧
    h.calls = arr.store.heap.calls ∧ h.grants = arr.store.heap.grants := by
  obtain ⟨arr', hloop, cs', hleft, hself, hht, hcore, hcharge, hcalls, hgrants⟩ :=
    (clearing_clears arr cs).all hr.bits_lt
      ⟨cs, rfl, rfl, rfl, hr.toCore, fun _ => rfl, rfl, rfl⟩
      (fun b _ => hr.bucket_length_lt b)
  obtain rfl : cs' = [] := by
    apply eq_nil_of_buckets arr.ht.bits
    intro b hb
    rw [hleft]
    exact if_pos hb
  have howned : owned arr' [] = [arr'.self, arr'.ht.self, arr'.ht.table] := rfl
  have hnd := hcore.owned_nodup
  rw [howned] at hnd
  obtain ⟨⟨hsht, hst⟩, hhtt⟩ : (arr'.self ≠ arr'.ht.self ∧ arr'.self ≠ arr'.ht.table) ∧
      arr'.ht.self ≠ arr'.ht.table := by simpa using hnd
  let h₁ := arr'.store.heap.release arr'.ht.table
  let h₂ := h₁.release arr'.ht.self
  have hl₀ : arr'.store.heap.live arr'.ht.table = true := hcore.live_owned (by simp [howned])
  have hl₁ : h₁.live arr'.ht.self = true := by
    have hl : arr'.store.heap.live arr'.ht.self = true := hcore.live_owned (by simp [howned])
    simp [h₁, hl, hhtt]
  have hl₂ : h₂.live arr'.self = true := by
    simp [h₂, h₁, hcore.self_live, hsht, hst]
  refine ⟨h₂.release arr'.self, ?_, ((hcore.balanced.release hl₀).release hl₁).release hl₂,
    fun b => ?_, fun d => ?_, hcalls, hgrants⟩
  · simp [arrayFree, hr.htBits_eq, hloop, Heap.free_live hl₀, Heap.free_live hl₁,
      Heap.free_live hl₂, h₁, h₂]
  · cases hb : arr'.store.heap.live b with
    | false => simp [h₂, h₁, hb]
    | true =>
      have hmem := (hcore.live_iff b).mp hb
      rw [howned] at hmem
      simp only [List.mem_cons, List.not_mem_nil, or_false] at hmem
      rcases hmem with rfl | rfl | rfl <;> simp [h₂, h₁]
  · rw [← hcharge d]
    simp [charge, h₂, h₁]

end
end KernelHashtable.Assoc
