import KernelHashtable.AssocReplace

/-!
# Replacing through a stored key

`array_add_replace` reads its key argument again after the deletion. An argument that is the
key of an entry is gone by then if the deletion has taken that entry.
-/

namespace KernelHashtable.Assoc
open Hash Hashtable HList KList

def contents (arr : AssocArray) : Option (List (List UInt8 × ℕ)) := do
  let locs ← kListForEach arr.ringOk arr.ring arr.fuel .head
  locs.mapM fun
    | .head => none
    | .node e => readEntry arr.store e

def collectEntry (st : Store) (l : List (List UInt8 × ℕ)) (e : ℕ) :
    Option (List (List UInt8 × ℕ) × Bool) := do
  let entry ← readEntry st e
  return (l ++ [entry], false)

def bucketContents (arr : AssocArray) (b : ℕ) : Option (List (List UInt8 × ℕ)) := do
  let pos ← loadFirst arr.headOk arr.mem b
  let (_, l) ← hlistForEachEntry (fun _ p => loadNext arr.nodeOk arr.mem p)
    (collectEntry arr.store) arr.fuel pos []
  return l

structure SameContents (arr₁ arr₂ : AssocArray) : Prop where
  ring : ∃ l, contents arr₁ = some l ∧ contents arr₂ = some l
  bits : arr₁.ht.bits = arr₂.ht.bits
  buckets : ∀ b < 2 ^ arr₁.ht.bits.toNat, ∃ l,
    bucketContents arr₁ b = some l ∧ bucketContents arr₂ b = some l
  size : arr₁.size = arr₂.size

def ReplacesAlike (past : ℕ → Bool) (arr : AssocArray) (data e : ℕ) (copy : Key) : Prop :=
  ∃ arr₁ arr₂,
    arrayAddReplace past arr data (arr.store.key e) (arr.store.keySize e) = some (0, arr₁) ∧
    arrayAddReplace past arr data copy.ptr copy.size = some (0, arr₂) ∧ SameContents arr₁ arr₂

/-- An entry that was added to the bucket after `e` compares equal to the key. -/
def Overtaken (past : ℕ → Bool) (arr : AssocArray) (e : ℕ) (key : Key) : Prop :=
  ∃ es ∈ bucketKeys arr key, ∃ f ∈ es.takeWhile fun f => decide (f.1 ≠ e), agrees past key f = true

section
variable {arr : AssocArray} {cs : List Item} {c : Item} {past : ℕ → Bool} {k : Key} {p : KeyPtr}
  {data : ℕ} {refuses : ℕ → Bool}

def Item.contents (c : Item) : List UInt8 × ℕ := (c.key.bytes, c.data)

theorem Rep.contents_eq (hr : Rep arr cs) : Assoc.contents arr = some (cs.map Item.contents) := by
  have hwalk := hr.threaded.forward
  rw [List.map_map] at hwalk
  rw [Assoc.contents, hwalk]
  exact mapM_map_some fun c hc => hr.readEntry_eq hc

theorem Rep.bucketContents_eq (hr : Rep arr cs) {b : ℕ} (hb : b < 2 ^ arr.ht.bits.toNat) :
    bucketContents arr b = some ((chain arr.ht.bits cs b).map Item.contents) := by
  have hwalk := (hlistForEachEntry_threads (collectEntry arr.store) (hr.table.threads b hb)
    (hr.nodeOk_of b) (hr.bucket_length_lt b) []).trans
    (foldUntil_collect Item.entry Item.contents (chain arr.ht.bits cs b) fun c hc l => by
      simp [collectEntry, hr.readEntry_eq (mem_chain.mp hc).1, Item.contents])
  simp only [bucketContents, loadFirst, hr.headOk_of b hb, if_true, Option.bind_eq_bind,
    Option.bind_some]
  exact congrArg (fun o => Option.bind o _) hwalk

theorem Rep.sameContents (hr : Rep arr cs) : SameContents arr arr :=
  ⟨⟨_, hr.contents_eq, hr.contents_eq⟩, rfl,
    fun _ hb => ⟨_, hr.bucketContents_eq hb, hr.bucketContents_eq hb⟩, rfl⟩

theorem arrayDel_congr {q : KeyPtr} {n : UInt8}
    (hpq : arr.store.read p n.toNat = arr.store.read q n.toNat) :
    arrayDel past arr p n = arrayDel past arr q n := by
  have hcmp : ∀ cur, memcmpEq past arr.store cur p n = memcmpEq past arr.store cur q n := by
    intro cur
    simp only [memcmpEq, hpq]
  simp only [arrayDel, arrayGetByKey, bucketWalk, hpq, hcmp]

def Kept (st st' : Store) : Prop :=
  ∀ b, st.heap.live b = true → st'.heap.live b = true ∧ st'.heap.bytes b = st.heap.bytes b

theorem Kept.read {st st' : Store} (hk : Kept st st') {n : ℕ} {bytes : List UInt8}
    (hp : st.read p n = some bytes) : st'.read p n = some bytes := by
  cases p with
  | null => exact hp
  | caller bs => exact hp
  | block b =>
    have hlive : st.heap.live b = true := by
      by_contra hdead
      simp [Store.read, Store.object, hdead] at hp
    obtain ⟨hlive', hbytes⟩ := hk b hlive
    simpa [Store.read, Store.object, hlive, hlive', hbytes] using hp

theorem kept_grant (st : Store) (n : ℕ) : Kept st { st with heap := st.heap.grant n } :=
  fun b hl => ⟨by simp [hl], rfl⟩

def filledStore (st : Store) (entry data : ℕ) (n : UInt8) (bytes : List UInt8) : Store where
  heap := (st.heap.grant n.toNat).setBytes st.heap.fresh bytes
  key := Function.update st.key entry (.block st.heap.fresh)
  keySize := Function.update st.keySize entry n
  data := Function.update st.data entry data

theorem kept_filledStore {st : Store} (hb : st.heap.Balanced) (entry data : ℕ) (n : UInt8)
    (bytes : List UInt8) : Kept st (filledStore st entry data n bytes) := by
  intro b hl
  have hne : b ≠ st.heap.fresh := (hb.lt_fresh hl).ne
  have hlive : (st.heap.grant n.toNat).live b = true := by simp [hl]
  exact ⟨hlive, Function.update_of_ne hne _ _⟩

theorem fillAssocArrayEntry_granted {st : Store} {entry : ℕ} {n : UInt8}
    (hlive : st.heap.live entry = true) (hg : st.heap.grants st.heap.calls n.toNat = true) :
    fillAssocArrayEntry st entry data p n =
      (Store.read { st with heap := st.heap.grant n.toNat } p n.toNat).map fun bytes =>
        (0, filledStore st entry data n bytes) := by
  simp only [fillAssocArrayEntry, guard, hlive, Heap.malloc_grant hg]
  exact (Option.map_eq_bind ..).symm

theorem arrayAdd_congr (hb : arr.store.heap.Balanced) (hcb : arr.cb = .default refuses)
    (hg : arr.cb.FillGranted arr.store.heap k)
    (hp : arr.store.read p k.size.toNat = some k.bytes) :
    arrayAdd arr data p k.size = arrayAdd arr data k.ptr k.size := by
  rw [hcb] at hg
  obtain ⟨h₁, hno, h₂⟩ := hg
  let st : Store := { arr.store with heap := arr.store.heap.grant sizeofAssocArrayEntry }
  have hlive : st.heap.live arr.store.heap.fresh = true := by simp [st]
  have h₂' : st.heap.grants st.heap.calls k.size.toNat = true := by
    rw [Key.size_toNat]
    exact h₂
  have hread : st.read p k.size.toNat = some k.bytes := (kept_grant _ _).read hp
  have hcopy : st.read k.ptr k.size.toNat = some k.bytes := by simp
  have hkept : Kept st (filledStore st arr.store.heap.fresh data k.size k.bytes) :=
    kept_filledStore (hb.grant _) _ _ _ _
  have hno' : refuses st.heap.calls = false := hno
  simp only [arrayAdd, Heap.malloc_grant h₁, hcb]
  rw [fillEntry_default hno', fillAssocArrayEntry_granted hlive h₂',
    fillAssocArrayEntry_granted hlive h₂', (kept_grant st _).read hread,
    (kept_grant st _).read hcopy]
  simp only [Option.map_some, Option.bind_eq_bind, Option.bind_some, hkept.read hread,
    hkept.read hcopy]

theorem arrayAdd_freed (hcb : arr.cb = .default refuses)
    (hg : arr.cb.FillGranted arr.store.heap k) {b : ℕ} (hlt : b < arr.store.heap.fresh)
    (hdead : arr.store.heap.live b = false) : arrayAdd arr data (.block b) k.size = none := by
  rw [hcb] at hg
  obtain ⟨h₁, hno, h₂⟩ := hg
  let st : Store := { arr.store with heap := arr.store.heap.grant sizeofAssocArrayEntry }
  have hlive : st.heap.live arr.store.heap.fresh = true := by simp [st]
  have h₂' : st.heap.grants st.heap.calls k.size.toNat = true := by
    rw [Key.size_toNat]
    exact h₂
  have hno' : refuses st.heap.calls = false := hno
  have hgone : (st.heap.grant k.size.toNat).live b = false := by
    have hne : b ≠ arr.store.heap.fresh ∧ b ≠ arr.store.heap.fresh + 1 := by omega
    simp [st, hdead, hne]
  have hread : Store.read { st with heap := st.heap.grant k.size.toNat } (.block b)
      k.size.toNat = none := by
    simp only [Store.read, Store.object, hgone]
    rfl
  simp only [arrayAdd, Heap.malloc_grant h₁, hcb]
  rw [fillEntry_default hno', fillAssocArrayEntry_granted hlive h₂', hread]
  rfl

theorem find?_eq_some_iff_takeWhile {l : List Item} (hc : c ∈ l)
    (hinj : ∀ d ∈ l, d.entry = c.entry → d = c) {f : Item → Bool} (hf : f c = true) :
    l.find? f = some c ↔ ∀ d ∈ l.takeWhile fun d => decide (d.entry ≠ c.entry), f d = false := by
  induction l with
  | nil => simp at hc
  | cons d l ih =>
    by_cases hd : d.entry = c.entry
    · obtain rfl := hinj d (by simp) hd
      simp [hf]
    · have hc' : c ∈ l := (List.mem_cons.mp hc).resolve_left fun h => hd (h ▸ rfl)
      have hrec := ih hc' fun x hx => hinj x (List.mem_cons_of_mem d hx)
      cases hfd : f d with
      | true =>
        have hne : d ≠ c := fun h => hd (h ▸ rfl)
        simp [hfd, hd, hne]
      | false => simp [hfd, hd, hrec]

theorem Rep.eq_of_entry (hr : Rep arr cs) {d : Item} (hc : c ∈ cs) (hd : d ∈ cs)
    (he : d.entry = c.entry) : d = c :=
  List.inj_on_of_nodup_map hr.entries_nodup hd hc he

theorem Rep.not_overtaken_iff (hr : Rep arr cs) (hc : c ∈ cs) :
    ¬ Overtaken past arr c.entry c.key ↔ found past arr.ht.bits cs c.key = some c := by
  have hmem : c ∈ candidates arr.ht.bits cs c.key := mem_chain.mpr ⟨hc, rfl⟩
  have hself : compares past c.key c = true := by simp [compares_eq]
  rw [found, find?_eq_some_iff_takeWhile hmem
    (fun d hd => hr.eq_of_entry hc (mem_chain.mp hd).1) hself]
  simp only [Overtaken, hr.bucketKeys_eq, Option.mem_some_iff, exists_eq_left', not_exists,
    not_and, Bool.not_eq_true, List.takeWhile_map, List.forall_mem_map]
  rfl

theorem Rep.replacesAlike (hr : Rep arr cs) (hcb : arr.cb = .default refuses) (hc : c ∈ cs)
    (hg : arr.cb.FillGranted arr.store.heap c.key)
    (hf : found past arr.ht.bits cs c.key ≠ some c) :
    ReplacesAlike past arr data c.entry c.key := by
  have hi := hr.items c hc
  have hread := hr.read_stored hc
  obtain ⟨code, arr₁, cs₁, hdel, hr₁, hcb₁, hgr, hcalls, hc₁⟩ : ∃ code arr₁ cs₁,
      arrayDel past arr c.key.ptr c.key.size = some (code, arr₁) ∧ Rep arr₁ cs₁ ∧
      arr₁.cb = arr.cb ∧ arr₁.store.heap.grants = arr.store.heap.grants ∧
      arr₁.store.heap.calls = arr.store.heap.calls ∧ c ∈ cs₁ := by
    cases hfound : found past arr.ht.bits cs c.key with
    | none => exact ⟨1, arr, cs, hr.del_none hfound, hr, rfl, rfl, rfl, hc⟩
    | some f =>
      obtain ⟨A, B, rfl, -⟩ := erase_split hr (found_mem hfound).1
      obtain ⟨arr₁, hdel, hr₁, -, -, hcb₁, hrel⟩ := hr.del_some hfound
      have hne : c ≠ f := by
        rintro rfl
        exact hf hfound
      exact ⟨0, arr₁, A ++ B, hdel, hr₁, hcb₁, hrel.grants, hrel.calls, by simpa [hne] using hc⟩
  have hg₁ : arr₁.cb.FillGranted arr₁.store.heap c.key := by
    rw [hcb₁]
    exact (fillGranted_congr hgr hcalls).mpr hg
  have hptr : arr₁.store.key c.entry = arr.store.key c.entry :=
    (hr₁.items c hc₁).ptr.trans hi.ptr.symm
  have hread₁ := hr₁.read_stored hc₁
  rw [(hr₁.items c hc₁).size, hptr] at hread₁
  rw [hi.size] at hread
  have hacc : arr₁.cb.Accepts data := by
    rw [hcb₁, hcb]
    trivial
  obtain ⟨c', arr', hadd, -, -, hr', -⟩ := hr₁.add_ok hg₁ hacc
  have hcopy : arrayAddReplace past arr data c.key.ptr c.key.size = some (0, arr') := by
    simp [arrayAddReplace, hdel, hadd]
  refine ⟨arr', arr', ?_, hcopy, hr'.sameContents⟩
  have hsame : arrayAdd arr₁ data (arr.store.key c.entry) c.key.size = some (0, arr') :=
    (arrayAdd_congr hr₁.balanced (hcb₁.trans hcb) hg₁ hread₁).trans hadd
  have hdel' : arrayDel past arr (arr.store.key c.entry) c.key.size = some (code, arr₁) :=
    (arrayDel_congr (hread.trans (by simp))).trans hdel
  simp [arrayAddReplace, hi.size, hdel', hsame]

theorem Rep.addReplace_storedKey_freed (hr : Rep arr cs) (hcb : arr.cb = .default refuses)
    (hc : c ∈ cs) (hg : arr.cb.FillGranted arr.store.heap c.key)
    (hf : found past arr.ht.bits cs c.key = some c) :
    arrayAddReplace past arr data (arr.store.key c.entry) (arr.store.keySize c.entry) = none := by
  have hi := hr.items c hc
  have hread := hr.read_stored hc
  rw [hi.size] at hread
  obtain ⟨b, hb⟩ : ∃ b, c.ptr = .block b := by
    have hst := hi.stores
    rw [hcb] at hst
    exact hst
  have hmem : b ∈ c.blocks := by simp [Item.blocks, KeyPtr.blocks, hb]
  have hlt : b < arr.store.heap.fresh := hr.owned_lt (mem_blocks_owned hc hmem)
  obtain ⟨A, B, rfl, -⟩ := erase_split hr hc
  obtain ⟨arr₁, hdel, hr₁, -, -, hcb₁, hrel⟩ := hr.del_some hf
  have hg₁ : arr₁.cb.FillGranted arr₁.store.heap c.key := by
    rw [hcb₁]
    exact (fillGranted_congr hrel.grants hrel.calls).mpr hg
  have hdead : arr₁.store.heap.live b = false := by simp [hrel.live, hmem]
  have hnone : arrayAdd arr₁ data (arr.store.key c.entry) c.key.size = none := by
    rw [hi.ptr, hb]
    exact arrayAdd_freed (hcb₁.trans hcb) hg₁ (hrel.fresh ▸ hlt) hdead
  have hdel' : arrayDel past arr (arr.store.key c.entry) c.key.size = some (0, arr₁) :=
    (arrayDel_congr (hread.trans (by simp))).trans hdel
  simp [arrayAddReplace, hi.size, hdel', hnone]

end

/-- For every entry of an array, replacing through its own key is like replacing through a copy
of it exactly where a newer entry of the bucket compares equal to that key. -/
theorem arrayAddReplace_storedKey_iff (refuses : ℕ → Bool) (arr : AssocArray)
    (hr : Reachable (.default refuses) arr) (past : ℕ → Bool) (data e : ℕ) (es : List (Loc ℕ))
    (hes : kListForEach arr.ringOk arr.ring arr.fuel .head = some es) (he : .node e ∈ es)
    (copy : Key)
    (hcopy : arr.store.read (arr.store.key e) (arr.store.keySize e).toNat = some copy.bytes)
    (hg : arr.cb.FillGranted arr.store.heap copy) :
    ReplacesAlike past arr data e copy ↔ Overtaken past arr e copy := by
  obtain ⟨cs, hrep, hcb⟩ := hr.rep
  obtain rfl : (cs.map Item.entry).map Loc.node = es :=
    Option.some.inj (hrep.threaded.forward.symm.trans hes)
  obtain ⟨c, hc, rfl⟩ : ∃ c ∈ cs, c.entry = e := by simpa using he
  obtain rfl : c.key = copy :=
    Key.ext_bytes (Option.some.inj ((hrep.read_stored hc).symm.trans hcopy))
  by_cases hf : found past arr.ht.bits cs c.key = some c
  · refine iff_of_false (fun halike => ?_) ((hrep.not_overtaken_iff hc).mpr hf)
    obtain ⟨arr₁, -, hstored, -⟩ := halike
    rw [hrep.addReplace_storedKey_freed hcb hc hg hf] at hstored
    cases hstored
  · refine iff_of_true (hrep.replacesAlike hcb hc hg hf) ?_
    by_contra hno
    exact hf ((hrep.not_overtaken_iff hc).mp hno)

theorem arrayAddReplace_storedKey_older : ∃ arr, arr.size = 2 ∧
    ReplacesAlike (fun _ => true) arr 7 3 ⟨[1], by decide⟩ := by
  obtain ⟨arr₀, h, hc⟩ : ∃ arr₀ h, arrayCreate (Heap.start fun _ _ => true) .zero 1
      (.default fun _ => false) = some (some arr₀, h) := ⟨_, _, rfl⟩
  obtain ⟨rs, arr, hrun⟩ : ∃ rs arr, run step (some arr₀)
      [.add 5 ⟨[1], by decide⟩, .add 6 ⟨[1], by decide⟩] = some (rs, some arr) := by
    cases hc
    exact ⟨_, _, rfl⟩
  have hr : Reachable (.default fun _ => false) arr :=
    ⟨fun _ _ => true, .zero, 1, arr₀, h, _, rs, by decide, hc, fun _ _ _ _ => trivial, hrun⟩
  cases hc
  cases hrun
  exact ⟨_, rfl, (arrayAddReplace_storedKey_iff _ _ hr (fun _ => true) 7 3 [.node 3, .node 5] rfl
    (by decide) ⟨[1], by decide⟩ rfl ⟨rfl, rfl, rfl⟩).mpr
    ⟨_, rfl, (5, [1]), by decide, by decide⟩⟩

/-- The only entry is replaced through its own key: the copy would be made of a freed block. -/
theorem arrayAddReplace_storedKey_freed : ∃ arr₀ h rs arr,
    arrayCreate (Heap.start fun _ _ => true) .zero 1 (.default fun _ => false) =
      some (some arr₀, h) ∧
    run step (some arr₀) [.add 5 ⟨[1], by decide⟩] = some (rs, some arr) ∧
    arrayGetByKey (fun _ => true) arr (.caller [1]) 1 = some (some 3) ∧
    arr.store.key 3 = .block 4 ∧
    arrayAddReplace (fun _ => true) arr 7 (.block 4) 1 = none ∧
    ¬ ReplacesAlike (fun _ => true) arr 7 3 ⟨[1], by decide⟩ := by
  refine ⟨_, _, _, _, rfl, rfl, by decide, rfl, rfl, ?_⟩
  rintro ⟨arr₁, -, hstored, -⟩
  cases hstored

end KernelHashtable.Assoc
