import KernelHashtable.AssocLifetime
import KernelHashtable.Lib.Run
import Mathlib.Data.List.Perm.Lattice

/-!
# Runs of an associative array

A call goes through a pointer to the array that may be null. `Moved` says what one call
does as far as the invariant and the ledger are concerned; from it every run keeps the
two structures and the counter in step.
-/

namespace KernelHashtable.Assoc
open Hash Hashtable HList KList

/-- The calls. Where a key is looked up, `past` answers the comparisons that go beyond
the end of a stored key. -/
inductive Op where
  | add (data : ℕ) (key : Key)
  | addReplace (past : ℕ → Bool) (data : ℕ) (key : Key)
  | del (past : ℕ → Bool) (key : Key)
  | delFirst
  | delLast
  | getByKey (past : ℕ → Bool) (key : Key)
  | getFirst
  | getLast

inductive Ret where
  | code (r : ℤ)
  | entry (p : Ptr (Loc ℕ)) (contents : Option (List UInt8 × ℕ))
  deriving DecidableEq

def readEntry (st : Store) (e : ℕ) : Option (List UInt8 × ℕ) := do
  let bytes ← st.read (st.key e) (st.keySize e).toNat
  return (bytes, st.data e)

def entryRet (arr : AssocArray) : Ptr (Loc ℕ) → Ret
  | .addr (.node e) => .entry (.addr (.node e)) (readEntry arr.store e)
  | p => .entry p none

def entryPtr : Option ℕ → Ptr (Loc ℕ)
  | none => .null
  | some e => .addr (.node e)

def call (arr : AssocArray) : Op → Option (Ret × AssocArray)
  | .add data key => (arrayAdd arr data key.ptr key.size).map fun r => (.code r.1, r.2)
  | .addReplace past data key =>
    (arrayAddReplace past arr data key.ptr key.size).map fun r => (.code r.1, r.2)
  | .del past key => (arrayDel past arr key.ptr key.size).map fun r => (.code r.1, r.2)
  | .delFirst => (arrayDelFirst arr).map fun r => (.code r.1, r.2)
  | .delLast => (arrayDelLast arr).map fun r => (.code r.1, r.2)
  | .getByKey past key =>
    (arrayGetByKey past arr key.ptr key.size).map fun e => (entryRet arr (entryPtr e), arr)
  | .getFirst => (arrayGetFirst arr).map fun p => (entryRet arr p, arr)
  | .getLast => (arrayGetLast arr).map fun p => (entryRet arr p, arr)

def einval : ℤ := 22

def onNull : Op → Ret
  | .add _ _ | .addReplace _ _ _ | .delFirst | .delLast => .code (-1)
  | .del _ _ => .code einval
  | .getByKey _ _ | .getFirst | .getLast => .entry .null none

def step : Option AssocArray → Op → Option (Ret × Option AssocArray)
  | none, op => some (onNull op, none)
  | some arr, op => (call arr op).map fun r => (r.1, some r.2)

def Op.data? : Op → Option ℕ
  | .add data _ | .addReplace _ data _ => some data
  | _ => none

def stored (op : Op) (r : Ret) : List ℕ := if r = .code 0 then op.data?.toList else []

structure Moved (arr arr' : AssocArray) (cs cs' : List Item) (new : List ℕ) : Prop where
  rep : Rep arr' cs'
  self : arr'.self = arr.self
  ht : arr'.ht = arr.ht
  cb : arr'.cb = arr.cb
  grants : arr'.store.heap.grants = arr.store.heap.grants
  charge : ∀ d, charge arr' cs' d = charge arr cs d + (new.flatMap arr.cb.dataBlocks).count d

section
variable {arr arr₁ arr₂ : AssocArray} {cs cs₁ cs₂ A B : List Item} {c : Item} {new : List ℕ}
  {past : ℕ → Bool} {k : Key} {data : ℕ}

theorem Moved.refl (hr : Rep arr cs) : Moved arr arr cs cs [] :=
  ⟨hr, rfl, rfl, rfl, rfl, fun _ => rfl⟩

theorem Moved.trans {new' : List ℕ} (h₁ : Moved arr arr₁ cs cs₁ new)
    (h₂ : Moved arr₁ arr₂ cs₁ cs₂ new') : Moved arr arr₂ cs cs₂ (new ++ new') := by
  refine ⟨h₂.rep, h₂.self.trans h₁.self, h₂.ht.trans h₁.ht, h₂.cb.trans h₁.cb,
    h₂.grants.trans h₁.grants, fun d => ?_⟩
  rw [h₂.charge, h₁.charge, h₁.cb, List.flatMap_append, List.count_append, Nat.add_assoc]

theorem Released.moved (hrel : Released arr.cb arr.store arr₁.store c)
    (hr : Rep arr₁ (A ++ B)) (hself : arr₁.self = arr.self) (hht : arr₁.ht = arr.ht)
    (hcb : arr₁.cb = arr.cb) : Moved arr arr₁ (A ++ c :: B) (A ++ B) [] := by
  refine ⟨hr, hself, hht, hcb, hrel.grants, fun d => ?_⟩
  simp only [Assoc.charge, hcb, hrel.foreign, List.flatMap_append, List.flatMap_cons,
    List.count_append, List.flatMap_nil, List.count_nil]
  omega

theorem Filled.moved (hf : Filled arr.cb arr.store arr₁.store c) (hr : Rep arr₁ (cs ++ [c]))
    (hself : arr₁.self = arr.self) (hht : arr₁.ht = arr.ht) (hcb : arr₁.cb = arr.cb) :
    Moved arr arr₁ cs (cs ++ [c]) [c.data] := by
  refine ⟨hr, hself, hht, hcb, hf.grants, fun d => ?_⟩
  simp only [Assoc.charge, hcb, hf.freed, List.flatMap_append, List.flatMap_cons,
    List.count_append, List.flatMap_nil, List.count_nil]
  omega

theorem Undone.moved {st : Store} (hu : Undone arr.store st) (hr : Rep arr cs) :
    Moved arr { arr with store := st } cs cs [] := by
  refine ⟨hr.undone hu, rfl, rfl, rfl, hu.grants, fun d => ?_⟩
  simp only [Assoc.charge, hu.foreign]
  rfl

def without (past : ℕ → Bool) (bits : UInt32) (cs : List Item) (k : Key) : List Item :=
  match found past bits cs k with
  | none => cs
  | some c => cs.erase c

theorem erase_split (hr : Rep arr cs) (hc : c ∈ cs) :
    ∃ A B, cs = A ++ c :: B ∧ cs.erase c = A ++ B := by
  obtain ⟨A, B, hcA, rfl, herase⟩ := List.exists_erase_eq hc
  exact ⟨A, B, rfl, herase⟩

theorem Rep.del (hr : Rep arr cs) (past : ℕ → Bool) (k : Key) : ∃ arr',
    arrayDel past arr k.ptr k.size =
      some (if (found past arr.ht.bits cs k).isSome then 0 else 1, arr') ∧
      Moved arr arr' cs (without past arr.ht.bits cs k) [] := by
  cases hf : found past arr.ht.bits cs k with
  | none => exact ⟨arr, hr.del_none hf, by simpa [without, hf] using Moved.refl hr⟩
  | some c =>
    obtain ⟨A, B, rfl, herase⟩ := erase_split hr (found_mem hf).1
    obtain ⟨arr', hdel, hrep, hself, hht, hcb, hrel⟩ := hr.del_some hf
    refine ⟨arr', hdel, ?_⟩
    simp only [without, hf, herase]
    exact hrel.moved hrep hself hht hcb

theorem Rep.add (hr : Rep arr cs) (hd : arr.cb.Accepts data) : ∃ code arr' cs',
    arrayAdd arr data k.ptr k.size = some (code, arr') ∧
      ((arr.cb.FillGranted arr.store.heap k ∧ code = 0 ∧ Moved arr arr' cs cs' [data] ∧
          ∃ c, c.key = k ∧ c.data = data ∧ cs' = cs ++ [c]) ∨
        (¬ arr.cb.FillGranted arr.store.heap k ∧ code = -1 ∧ Moved arr arr' cs cs' [] ∧
          cs' = cs)) := by
  by_cases hg : arr.cb.FillGranted arr.store.heap k
  · obtain ⟨c, arr', hadd, hkey, rfl, hrep, hself, hht, hcb, hf⟩ := hr.add_ok hg hd
    exact ⟨0, arr', cs ++ [c], hadd, Or.inl ⟨hg, rfl, hf.moved hrep hself hht hcb, c, hkey, rfl,
      rfl⟩⟩
  · obtain ⟨st, hadd, hu⟩ := hr.add_fail data hg
    exact ⟨-1, _, cs, hadd, Or.inr ⟨hg, rfl, hu.moved hr, rfl⟩⟩

theorem Rep.delFirst (hr : Rep arr cs) : ∃ arr',
    arrayDelFirst arr = some (if cs = [] then -1 else 0, arr') ∧ Moved arr arr' cs cs.tail [] := by
  cases cs with
  | nil => exact ⟨arr, hr.delEnd_nil true, Moved.refl hr⟩
  | cons c cs =>
    obtain ⟨arr', hdel, hrep, hself, hht, hcb, hrel⟩ := hr.delFirst_cons
    exact ⟨arr', hdel, hrel.moved (A := []) hrep hself hht hcb⟩

theorem Rep.delLast (hr : Rep arr cs) : ∃ arr',
    arrayDelLast arr = some (if cs = [] then -1 else 0, arr') ∧
      Moved arr arr' cs cs.dropLast [] := by
  rcases List.eq_nil_or_concat' cs with rfl | ⟨cs, c, rfl⟩
  · exact ⟨arr, hr.delEnd_nil false, Moved.refl hr⟩
  · obtain ⟨arr', hdel, hrep, hself, hht, hcb, hrel⟩ := hr.delLast_concat
    refine ⟨arr', by simpa using hdel, ?_⟩
    have hrep' : Rep arr' (cs ++ []) := by simpa using hrep
    simpa using hrel.moved hrep' hself hht hcb

theorem Rep.getFirst (hr : Rep arr cs) :
    arrayGetFirst arr = some (entryPtr (cs.head?.map Item.entry)) := by
  cases cs with
  | nil => exact hr.getEnd_nil true
  | cons c cs => exact hr.getFirst_cons

theorem Rep.getLast (hr : Rep arr cs) :
    arrayGetLast arr = some (entryPtr (cs.getLast?.map Item.entry)) := by
  rcases List.eq_nil_or_concat' cs with rfl | ⟨cs, c, rfl⟩
  · exact hr.getEnd_nil false
  · rw [hr.getLast_concat, List.getLast?_concat]
    rfl

theorem Rep.readEntry_eq (hr : Rep arr cs) (hc : c ∈ cs) :
    readEntry arr.store c.entry = some (c.key.bytes, c.data) := by
  simp [readEntry, hr.read_stored hc, (hr.items c hc).data]

def itemRet : Option Item → Ret
  | none => .entry .null none
  | some c => .entry (.addr (.node c.entry)) (some (c.key.bytes, c.data))

theorem Rep.entryRet_item (hr : Rep arr cs) (o : Option Item) (ho : ∀ c, o = some c → c ∈ cs) :
    entryRet arr (entryPtr (o.map Item.entry)) = itemRet o := by
  cases o with
  | none => rfl
  | some c =>
    simp [entryRet, entryPtr, itemRet, hr.readEntry_eq (ho c rfl)]

theorem Rep.call (hr : Rep arr cs) (op : Op) (hd : ∀ d ∈ op.data?, arr.cb.Accepts d) :
    ∃ r arr' cs', call arr op = some (r, arr') ∧ Moved arr arr' cs cs' (stored op r) := by
  cases op with
  | add data key =>
    obtain ⟨code, arr', cs', hadd, hcase⟩ := hr.add (k := key) (hd data rfl)
    refine ⟨.code code, arr', cs', by simp [Assoc.call, hadd], ?_⟩
    rcases hcase with ⟨-, rfl, hm, -⟩ | ⟨-, rfl, hm, -⟩
    · exact hm
    · exact hm
  | addReplace past data key =>
    obtain ⟨arr₁, hdel, hm₁⟩ := hr.del past key
    have hd₁ : arr₁.cb.Accepts data := by
      rw [hm₁.cb]
      exact hd data rfl
    obtain ⟨code, arr', cs', hadd, hcase⟩ := hm₁.rep.add (k := key) hd₁
    refine ⟨.code code, arr', cs', by simp [Assoc.call, arrayAddReplace, hdel, hadd], ?_⟩
    rcases hcase with ⟨-, rfl, hm, -⟩ | ⟨-, rfl, hm, -⟩
    · exact hm₁.trans hm
    · exact hm₁.trans hm
  | del past key =>
    obtain ⟨arr', hdel, hm⟩ := hr.del past key
    refine ⟨_, arr', without past arr.ht.bits cs key, by rw [Assoc.call, hdel]; rfl, ?_⟩
    simpa [stored, Op.data?] using hm
  | delFirst =>
    obtain ⟨arr', hdel, hm⟩ := hr.delFirst
    refine ⟨_, arr', cs.tail, by rw [Assoc.call, hdel]; rfl, ?_⟩
    simpa [stored, Op.data?] using hm
  | delLast =>
    obtain ⟨arr', hdel, hm⟩ := hr.delLast
    refine ⟨_, arr', cs.dropLast, by rw [Assoc.call, hdel]; rfl, ?_⟩
    simpa [stored, Op.data?] using hm
  | getByKey past key =>
    refine ⟨_, arr, cs, by rw [Assoc.call, hr.getByKey]; rfl, ?_⟩
    simpa [stored, Op.data?] using Moved.refl hr
  | getFirst =>
    refine ⟨_, arr, cs, by rw [Assoc.call, hr.getFirst]; rfl, ?_⟩
    simpa [stored, Op.data?] using Moved.refl hr
  | getLast =>
    refine ⟨_, arr, cs, by rw [Assoc.call, hr.getLast]; rfl, ?_⟩
    simpa [stored, Op.data?] using Moved.refl hr

def allStored (ops : List Op) (rs : List Ret) : List ℕ :=
  (ops.zip rs).flatMap fun p => stored p.1 p.2

theorem Rep.run (hr : Rep arr cs) (ops : List Op)
    (hd : ∀ op ∈ ops, ∀ d ∈ op.data?, arr.cb.Accepts d) : ∃ rs arr' cs',
    run step (some arr) ops = some (rs, some arr') ∧ rs.length = ops.length ∧
      Moved arr arr' cs cs' (allStored ops rs) := by
  have hstep : ∀ (s : Option AssocArray) (new : List ℕ) (op : Op),
      (∃ arr' cs', s = some arr' ∧ Moved arr arr' cs cs' new) →
      (∀ d ∈ op.data?, arr.cb.Accepts d) → ∃ r s', step s op = some (r, s') ∧
        ∃ arr' cs', s' = some arr' ∧ Moved arr arr' cs cs' (new ++ stored op r) := by
    rintro s new op ⟨arr₁, cs₁, rfl, hm₁⟩ hop
    obtain ⟨r, arr₂, cs₂, hcall, hm₂⟩ := hm₁.rep.call op (hm₁.cb.symm ▸ hop)
    exact ⟨r, some arr₂, by simp [step, hcall], arr₂, cs₂, rfl, hm₁.trans hm₂⟩
  obtain ⟨rs, s', hrun, hlen, arr', cs', rfl, hm⟩ := run_history
    (fun new op r => new ++ stored op r) hstep (g := []) ⟨arr, cs, rfl, Moved.refl hr⟩
    (allSteps_of_mem hd _)
  rw [← List.flatMap_eq_foldl] at hm
  exact ⟨rs, arr', cs', hrun, hlen, hm⟩

theorem arrayCreate_rep {grants : ℕ → ℕ → Bool} {raw : Raw} {bits : UInt32} {cb : Callbacks}
    {h : Heap} (hb : bits.toNat ≤ 30)
    (hc : arrayCreate (Heap.start grants) raw bits cb = some (some arr, h)) :
    Rep arr [] ∧ arr.cb = cb ∧ arr.ht.bits = bits ∧ arr.store.heap = h ∧
      arr.store.heap.grants = grants ∧ arr.store.heap.freed = [] := by
  by_cases hg : CreateGranted (Heap.start grants) bits
  · obtain ⟨arr', hc', hrep, hcb, hbits, hgrants, hfreed⟩ :=
      arrayCreate_granted raw cb hb (Heap.Balanced.start grants) (fun _ => rfl) hg
    obtain ⟨rfl, rfl⟩ : arr' = arr ∧ arr'.store.heap = h := by
      simpa using hc'.symm.trans hc
    exact ⟨hrep, hcb, hbits, rfl, hgrants, hfreed⟩
  · obtain ⟨h', hc', -⟩ := arrayCreate_denied raw cb hb (Heap.Balanced.start grants) hg
    have hnone := hc'.symm.trans hc
    simp at hnone

/-- The arrays that runs of calls lead to, whatever the allocator does. -/
def Reachable (cb : Callbacks) (arr : AssocArray) : Prop :=
  ∃ (grants : ℕ → ℕ → Bool) (raw : Raw) (bits : UInt32) (arr₀ : AssocArray) (h : Heap)
    (ops : List Op) (rs : List Ret), bits.toNat ≤ 30 ∧
    arrayCreate (Heap.start grants) raw bits cb = some (some arr₀, h) ∧
    (∀ op ∈ ops, ∀ d ∈ op.data?, cb.Accepts d) ∧
    KernelHashtable.run step (some arr₀) ops = some (rs, some arr)

theorem Reachable.rep {cb : Callbacks} (hr : Reachable cb arr) :
    ∃ cs, Rep arr cs ∧ arr.cb = cb := by
  obtain ⟨grants, raw, bits, arr₀, h, ops, rs, hb, hc, hd, hrun⟩ := hr
  obtain ⟨hrep, hcb, -⟩ := arrayCreate_rep hb hc
  obtain ⟨rs', arr', cs, hrun', -, hm⟩ := hrep.run ops (hcb.symm ▸ hd)
  obtain ⟨-, rfl⟩ : rs' = rs ∧ arr' = arr := by simpa using hrun'.symm.trans hrun
  exact ⟨cs, hm.rep, hm.cb.trans hcb⟩

def entryBucket (arr : AssocArray) (e : ℕ) : Option ℕ := do
  let bytes ← arr.store.read (arr.store.key e) (arr.store.keySize e).toNat
  return (calcBkt (hash32Str bytes).toUInt32 (oneShl arr.ht.bits).toInt32).toNat

def ringBucket (arr : AssocArray) (es : List ℕ) (b : ℕ) : List ℕ :=
  (es.filter fun e => decide (entryBucket arr e = some b)).reverse

/-- The array threads exactly the entries `es`. -/
structure Threaded (arr : AssocArray) (es : List ℕ) : Prop where
  circle : IsRing arr.ring .head (es.map .node)
  forward : kListForEach arr.ringOk arr.ring arr.fuel .head = some (es.map .node)
  backward : kListForEachPrev arr.ringOk arr.ring arr.fuel .head = some (es.map .node).reverse
  buckets : IsTable (· < 2 ^ arr.ht.bits.toNat) arr.mem (ringBucket arr es)
  same_entries : ((List.range (2 ^ arr.ht.bits.toNat)).flatMap (ringBucket arr es)).Perm es
  size : arr.size = es.length

theorem Rep.entryBucket_eq (hr : Rep arr cs) (hc : c ∈ cs) :
    entryBucket arr c.entry = some (keyBucket arr.ht.bits c.key.bytes) := by
  simp only [entryBucket, hr.read_stored hc, Option.bind_eq_bind, Option.bind_some]
  exact congrArg some (hr.bkt_eq c.key)

theorem Rep.ringBucket_eq (hr : Rep arr cs) :
    ringBucket arr (cs.map Item.entry) = bucket arr.ht.bits cs := by
  funext b
  have hfilter : (cs.map Item.entry).filter (fun e => decide (entryBucket arr e = some b)) =
      (cs.filter fun c => decide (keyBucket arr.ht.bits c.key.bytes = b)).map Item.entry := by
    rw [List.filter_map]
    refine congrArg (List.map Item.entry) (List.filter_congr fun c hc => ?_)
    simp [hr.entryBucket_eq hc]
  rw [ringBucket, hfilter, bucket, chain, List.map_reverse]

theorem Rep.entries_nodup (hr : Rep arr cs) : (cs.map Item.entry).Nodup := by
  apply List.Nodup.of_map Loc.node
  rw [List.map_map]
  exact (List.nodup_cons.mp hr.ring.nodup).2

theorem Rep.threaded (hr : Rep arr cs) : Threaded arr (cs.map Item.entry) := by
  have hring : IsRing arr.ring .head ((cs.map Item.entry).map Loc.node) := by
    rw [List.map_map]
    exact hr.ring
  have hok : ∀ x ∈ Loc.head :: (cs.map Item.entry).map Loc.node, arr.ringOk x = true := by
    rw [List.map_map]
    exact hr.ringOk_of
  have hlen : ((cs.map Item.entry).map Loc.node).length < arr.fuel := by
    simpa using hr.length_lt_fuel
  obtain ⟨hfwd, hbwd⟩ := kListForEach_isRing hring hok hlen
  refine ⟨hring, hfwd, hbwd, ?_, ?_, by simp [hr.size]⟩
  · rw [hr.ringBucket_eq]
    exact hr.table
  · rw [hr.ringBucket_eq]
    have hnd : ((List.range (2 ^ arr.ht.bits.toNat)).flatMap (bucket arr.ht.bits cs)).Nodup :=
      hr.table.nodup_flatMap List.nodup_range
    apply (List.perm_ext_iff_of_nodup hnd hr.entries_nodup).mpr
    intro e
    rw [List.mem_flatMap]
    refine ⟨fun hb => ?_, fun he => ?_⟩
    · obtain ⟨b, -, hb⟩ := hb
      obtain ⟨c, hc, rfl⟩ := List.mem_map.mp hb
      exact List.mem_map_of_mem (mem_chain.mp hc).1
    · obtain ⟨c, hc, rfl⟩ := List.mem_map.mp he
      refine ⟨keyBucket arr.ht.bits c.key.bytes, ?_, ?_⟩
      · exact List.mem_range.mpr (keyBucket_lt _ _)
      · exact List.mem_map_of_mem (mem_chain.mpr ⟨hc, rfl⟩)

/-- Whatever the allocator and `fill_entry` do and whatever comparisons beyond a stored key
answer, in every state of every run of calls on a created array the ring, the buckets and
the counter describe the same entries. -/
theorem arrayCreate_always_threaded (grants : ℕ → ℕ → Bool) (refuses : ℕ → Bool) (raw : Raw)
    (bits : UInt32) (hb : bits.toNat ≤ 30) (arr : AssocArray) (h : Heap)
    (hc : arrayCreate (Heap.start grants) raw bits (.default refuses) = some (some arr, h))
    (ops : List Op) :
    Always step (fun s => ∃ arr' es, s = some arr' ∧ Threaded arr' es) (some arr) ops := by
  obtain ⟨hrep, hcb, -⟩ := arrayCreate_rep hb hc
  refine always_of_invariant (P := fun _ _ => True)
    (I := fun s => ∃ arr' cs, s = some arr' ∧ arr'.cb = .default refuses ∧ Rep arr' cs)
    (fun s hs => ?_) (fun s op hs _ => ?_) ⟨arr, [], rfl, hcb, hrep⟩
    (allSteps_true (fun _ _ => trivial) _ _)
  · obtain ⟨arr', cs, rfl, -, hr⟩ := hs
    exact ⟨arr', _, rfl, hr.threaded⟩
  · obtain ⟨arr', cs, rfl, hcb', hr⟩ := hs
    obtain ⟨r, arr'', cs', hcall, hm⟩ := hr.call op (fun _ _ => by rw [hcb']; trivial)
    exact ⟨r, some arr'', by simp [step, hcall], arr'', cs', rfl, hm.cb.trans hcb', hm.rep⟩

def Raw.zero : Raw :=
  ⟨⟨fun _ => .null, fun _ => .null, fun _ => .null⟩, ⟨fun _ => .null, fun _ => .null⟩,
    fun _ => .null, fun _ => 0, fun _ => 0⟩

theorem arrayCreate_always_threaded_denied : ∃ arr h,
    arrayCreate (Heap.start fun i _ => i != 6) .zero 1 (.default fun i => i == 8) =
      some (some arr, h) ∧
    Always step (fun s => ∃ arr' es, s = some arr' ∧ Threaded arr' es) (some arr)
      [.add 70 ⟨[1, 2], by decide⟩, .add 71 ⟨[1, 2, 3], by decide⟩,
        .addReplace (fun _ => true) 72 ⟨[1, 2, 0], by decide⟩, .delLast] := by
  obtain ⟨arr, h, hc⟩ : ∃ arr h, arrayCreate (Heap.start fun i _ => i != 6) .zero 1
      (.default fun i => i == 8) = some (some arr, h) := ⟨_, _, rfl⟩
  exact ⟨arr, h, hc, arrayCreate_always_threaded _ _ .zero 1 (by decide) arr h hc _⟩

end
end KernelHashtable.Assoc
