import KernelHashtable.AssocMultimap

/-!
# The associative array when memory is scarce

An addition asks the allocator for the entry and then, with the default callbacks, for the copy
of the key. What an array answers is settled by its pairs and by the number of requests that
have been made before.
-/

namespace KernelHashtable.Assoc
open Hashtable Multimap

def gets (grants : ℕ → ℕ → Bool) (cb : Callbacks) (calls : ℕ) (k : Key) : Bool × ℕ :=
  if grants calls sizeofAssocArrayEntry then
    match cb with
    | .default refuses =>
      if refuses (calls + 1) then (false, calls + 1)
      else (grants (calls + 1) k.bytes.length, calls + 2)
    | .mac _ => (true, calls + 1)
  else (false, calls + 1)

section
variable (grants : ℕ → ℕ → Bool) (cb : Callbacks)

def scarceAdd (calls : ℕ) (l : List (Key × ℕ)) (data : ℕ) (key : Key) :
    Answer × ℕ × List (Key × ℕ) :=
  match gets grants cb calls key with
  | (true, calls) => (.code 0, calls, l ++ [(key, data)])
  | (false, calls) => (.code (-1), calls, l)

/-- The calls on the list of pairs. A replacement deletes before it asks for memory. -/
def scarceStep (s : ℕ × List (Key × ℕ)) : Op → Answer × ℕ × List (Key × ℕ)
  | .add data key => scarceAdd grants cb s.1 s.2 data key
  | .addReplace _ data key => scarceAdd grants cb s.1 (removeNewest s.2 key) data key
  | op => ((pairStep s.2 op).1, s.1, (pairStep s.2 op).2)

end

section
variable {cb : Callbacks} {st st' : Store} {e data : ℕ} {k : Key} {ret : ℤ} {past : ℕ → Bool}
  {arr arr' : AssocArray} {cs : List Item} {keySize : UInt8} {ptr : KeyPtr}

theorem gets_iff (h : Heap) (k : Key) :
    (gets h.grants cb h.calls k).1 = true ↔ cb.FillGranted h k := by
  unfold gets Callbacks.FillGranted
  cases cb with
  | default refuses =>
    cases hno : refuses (h.calls + 1) with
    | true => split_ifs <;> simp [hno]
    | false => split_ifs with hg <;> simp [hno, hg]
  | mac hostname => split_ifs with hg <;> simp [hg]

theorem fillAssocArrayEntry_calls
    (hf : fillAssocArrayEntry st e data ptr keySize = some (ret, st')) :
    st'.heap.calls = st.heap.calls + 1 := by
  obtain ⟨-, -, hf⟩ := Option.bind_eq_some_iff.mp hf
  cases hg : st.heap.grants st.heap.calls keySize.toNat with
  | false =>
    rw [Heap.malloc_deny hg] at hf
    exact congrArg (fun r => r.2.heap.calls) (Option.some.inj hf).symm
  | true =>
    rw [Heap.malloc_grant hg] at hf
    obtain ⟨bytes, -, hf⟩ := Option.bind_eq_some_iff.mp hf
    exact congrArg (fun r => r.2.heap.calls) (Option.some.inj hf).symm

theorem fillMacEntry_calls (hf : fillMacEntry st e data ptr keySize = some (ret, st')) :
    st'.heap.calls = st.heap.calls := by
  obtain ⟨-, -, hf⟩ := Option.bind_eq_some_iff.mp hf
  exact congrArg (fun r => r.2.heap.calls) (Option.some.inj hf).symm

theorem fillEntry_calls (hg : st.heap.grants st.heap.calls sizeofAssocArrayEntry = true)
    (hf : cb.fillEntry st.grantEntry e data k.ptr k.size = some (ret, st')) :
    st'.heap.calls = (gets st.heap.grants cb st.heap.calls k).2 := by
  cases cb with
  | mac hostname =>
    have hcalls := fillMacEntry_calls hf
    simp [gets, hg, hcalls, Store.grantEntry]
  | default refuses =>
    cases hno : refuses (st.heap.calls + 1) with
    | true =>
      rw [fillEntry_mock hno] at hf
      have hcalls := congrArg (fun r => r.2.heap.calls) (Option.some.inj hf)
      simpa [gets, hg, hno, Store.grantEntry] using hcalls.symm
    | false =>
      rw [fillEntry_default hno] at hf
      have hcalls := fillAssocArrayEntry_calls hf
      simp [gets, hg, hno, hcalls, Store.grantEntry]

theorem freeEntryBlock_calls (hf : st.freeEntryBlock e = some st') :
    st'.heap.calls = st.heap.calls := by
  obtain ⟨h, hfree, hret⟩ := Option.bind_eq_some_iff.mp hf
  obtain rfl := Option.some.inj hret
  unfold Heap.free at hfree
  split_ifs at hfree
  obtain rfl := Option.some.inj hfree
  rfl

theorem arrayAdd_calls (ha : arrayAdd arr data k.ptr k.size = some (ret, arr')) :
    arr'.store.heap.calls = (gets arr.store.heap.grants arr.cb arr.store.heap.calls k).2 := by
  cases hg : arr.store.heap.grants arr.store.heap.calls sizeofAssocArrayEntry with
  | false =>
    simp only [arrayAdd, Heap.malloc_deny hg] at ha
    obtain rfl := (Prod.mk.inj (Option.some.inj ha)).2
    simp [gets, hg, Heap.deny]
  | true =>
    simp only [arrayAdd, Heap.malloc_grant hg] at ha
    obtain ⟨⟨code, st⟩, hfill, hrest⟩ := Option.bind_eq_some_iff.mp ha
    rw [← fillEntry_calls hg hfill]
    simp only [ne_eq] at hrest
    split_ifs at hrest
    · obtain ⟨bytes, -, hrest⟩ := Option.bind_eq_some_iff.mp hrest
      obtain ⟨bits, -, hrest⟩ := Option.bind_eq_some_iff.mp hrest
      obtain ⟨mem, -, hrest⟩ := Option.bind_eq_some_iff.mp hrest
      obtain ⟨ring, -, hret⟩ := Option.bind_eq_some_iff.mp hrest
      obtain rfl := (Prod.mk.inj (Option.some.inj hret)).2
      rfl
    · obtain ⟨st', hfree, hret⟩ := Option.bind_eq_some_iff.mp hrest
      obtain rfl := (Prod.mk.inj (Option.some.inj hret)).2
      exact freeEntryBlock_calls hfree

theorem Rep.del_calls (hr : Rep arr cs) (hdel : arrayDel past arr k.ptr k.size = some (ret, arr')) :
    arr'.store.heap.calls = arr.store.heap.calls := by
  cases hf : found past arr.ht.bits cs k with
  | none =>
    rw [hr.del_none hf] at hdel
    obtain rfl := (Prod.mk.inj (Option.some.inj hdel)).2
    rfl
  | some c =>
    obtain ⟨A, B, rfl, -⟩ := erase_split hr (found_mem hf).1
    obtain ⟨arr₁, hdel₁, -, -, -, -, hrel⟩ := hr.del_some hf
    obtain rfl := (Prod.mk.inj (Option.some.inj (hdel₁.symm.trans hdel))).2
    exact hrel.calls

theorem Rep.delFirst_calls (hr : Rep arr cs) (hdel : arrayDelFirst arr = some (ret, arr')) :
    arr'.store.heap.calls = arr.store.heap.calls := by
  cases cs with
  | nil =>
    obtain rfl := (Prod.mk.inj (Option.some.inj ((hr.delEnd_nil true).symm.trans hdel))).2
    rfl
  | cons c cs =>
    obtain ⟨arr₁, hdel₁, -, -, -, -, hrel⟩ := hr.delFirst_cons
    obtain rfl := (Prod.mk.inj (Option.some.inj (hdel₁.symm.trans hdel))).2
    exact hrel.calls

theorem Rep.delLast_calls (hr : Rep arr cs) (hdel : arrayDelLast arr = some (ret, arr')) :
    arr'.store.heap.calls = arr.store.heap.calls := by
  rcases List.eq_nil_or_concat' cs with rfl | ⟨cs, c, rfl⟩
  · obtain rfl := (Prod.mk.inj (Option.some.inj ((hr.delEnd_nil false).symm.trans hdel))).2
    rfl
  · obtain ⟨arr₁, hdel₁, -, -, -, -, hrel⟩ := hr.delLast_concat
    obtain rfl := (Prod.mk.inj (Option.some.inj (hdel₁.symm.trans hdel))).2
    exact hrel.calls

theorem Rep.scarceAdd (hr : Rep arr cs) (hd : arr.cb.Accepts data) : ∃ code arr' cs',
    arrayAdd arr data k.ptr k.size = some (code, arr') ∧
      Moved arr arr' cs cs' (if code = 0 then [data] else []) ∧
      (Answer.code code, arr'.store.heap.calls, cs'.map Item.pair) =
        Assoc.scarceAdd arr.store.heap.grants arr.cb arr.store.heap.calls (cs.map Item.pair)
          data k := by
  obtain ⟨code, arr', cs', hadd, hcase⟩ := hr.add (k := k) hd
  refine ⟨code, arr', cs', hadd, ?_⟩
  have hcalls := arrayAdd_calls hadd
  have hgets : (gets arr.store.heap.grants arr.cb arr.store.heap.calls k).1 = true ↔
      arr.cb.FillGranted arr.store.heap k := gets_iff arr.store.heap k
  rw [Assoc.scarceAdd]
  generalize gets arr.store.heap.grants arr.cb arr.store.heap.calls k = g at hcalls hgets ⊢
  obtain ⟨got, calls⟩ := g
  rcases hcase with ⟨hg, rfl, hm, c, rfl, rfl, rfl⟩ | ⟨hg, rfl, hm, rfl⟩
  · obtain rfl : got = true := hgets.mpr hg
    exact ⟨hm, by simp [hcalls, Item.pair]⟩
  · obtain rfl : got = false := Bool.eq_false_iff.mpr fun h => hg (hgets.mp h)
    exact ⟨hm, by simp [hcalls]⟩

theorem Rep.scarceStep (hr : Rep arr cs) (op : Op) (hd : ∀ d ∈ op.data?, arr.cb.Accepts d)
    (hu : op.Unmistaken arr) : ∃ r arr' cs',
    Assoc.call arr op = some (r, arr') ∧ Moved arr arr' cs cs' (stored op r) ∧
      (r.answer, arr'.store.heap.calls, cs'.map Item.pair) = Assoc.scarceStep
        arr.store.heap.grants arr.cb (arr.store.heap.calls, cs.map Item.pair) op := by
  cases op with
  | add data key =>
    obtain ⟨code, arr', cs', hadd, hm, hstep⟩ := hr.scarceAdd (k := key) (hd data rfl)
    refine ⟨.code code, arr', cs', by simp [Assoc.call, hadd], ?_, hstep⟩
    simpa [stored, Op.data?] using hm
  | addReplace past data key =>
    have hc := hr.clear_candidates hu rfl
    obtain ⟨arr₁, hdel, hm₁⟩ := hr.del past key
    obtain ⟨code, arr', cs', hadd, hm, hstep⟩ :=
      hm₁.rep.scarceAdd (k := key) (hm₁.cb.symm ▸ hd data rfl)
    refine ⟨.code code, arr', cs', by simp [Assoc.call, arrayAddReplace, hdel, hadd], ?_, ?_⟩
    · simpa [stored, Op.data?] using hm₁.trans hm
    · rw [hm₁.grants, hm₁.cb, hr.del_calls hdel, without_pairs hr.nodup hc] at hstep
      exact hstep
  | del past key =>
    have hc := hr.clear_candidates hu rfl
    obtain ⟨arr', hdel, hm⟩ := hr.del past key
    refine ⟨_, arr', _, by rw [Assoc.call, hdel]; rfl, by simpa [stored, Op.data?] using hm, ?_⟩
    rw [hr.del_calls hdel, without_pairs hr.nodup hc]
    simp [Assoc.scarceStep, Assoc.pairStep, Ret.answer, ← found_pair hc]
  | delFirst =>
    obtain ⟨arr', hdel, hm⟩ := hr.delFirst
    refine ⟨_, arr', _, by rw [Assoc.call, hdel]; rfl, by simpa [stored, Op.data?] using hm, ?_⟩
    rw [hr.delFirst_calls hdel]
    simp [Assoc.scarceStep, Assoc.pairStep, Ret.answer]
  | delLast =>
    obtain ⟨arr', hdel, hm⟩ := hr.delLast
    refine ⟨_, arr', _, by rw [Assoc.call, hdel]; rfl, by simpa [stored, Op.data?] using hm, ?_⟩
    rw [hr.delLast_calls hdel]
    simp [Assoc.scarceStep, Assoc.pairStep, Ret.answer]
  | getByKey past key =>
    have hc := hr.clear_candidates hu rfl
    refine ⟨_, arr, cs, by rw [Assoc.call, hr.getByKey]; rfl, ?_, ?_⟩
    · simpa [stored, Op.data?] using Moved.refl hr
    · rw [hr.entryRet_item _ fun c hf => (found_mem hf).1, itemRet_answer, found_pair hc]
      rfl
  | getFirst =>
    refine ⟨_, arr, cs, by rw [Assoc.call, hr.getFirst]; rfl, ?_, ?_⟩
    · simpa [stored, Op.data?] using Moved.refl hr
    · rw [hr.entryRet_item _ fun c hf => List.mem_of_head? hf, itemRet_answer, ← List.head?_map]
      rfl
  | getLast =>
    refine ⟨_, arr, cs, by rw [Assoc.call, hr.getLast]; rfl, ?_, ?_⟩
    · simpa [stored, Op.data?] using Moved.refl hr
    · rw [hr.entryRet_item _ fun c hf => List.mem_of_getLast? hf, itemRet_answer,
        ← List.getLast?_map]
      rfl

end

section
variable {grants : ℕ → ℕ → Bool} {cb : Callbacks} {calls n : ℕ} {l : List (Key × ℕ)} {op : Op}
  {p : Key × ℕ}

theorem mem_scarceAdd {data : ℕ} {key : Key}
    (hp : p ∈ (scarceAdd grants cb calls l data key).2.2) : p ∈ l ∨ p.1 = key := by
  rw [scarceAdd] at hp
  generalize gets grants cb calls key = g at hp
  obtain ⟨got, calls⟩ := g
  cases got with
  | false => exact Or.inl hp
  | true =>
    rcases List.mem_append.mp hp with hp | hp
    · exact Or.inl hp
    · exact Or.inr (congrArg Prod.fst (List.mem_singleton.mp hp))

theorem mem_scarceStep (hp : p ∈ (scarceStep grants cb (calls, l) op).2.2) :
    p ∈ l ∨ p.1 ∈ op.key? := by
  cases op with
  | add data key => exact (mem_scarceAdd hp).imp_right fun h => by simp [Op.key?, h]
  | addReplace past data key =>
    exact (mem_scarceAdd hp).imp mem_of_mem_removeNewest fun h => by simp [Op.key?, Op.query, h]
  | del past key => exact mem_pairStep hp
  | delFirst => exact mem_pairStep hp
  | delLast => exact mem_pairStep hp
  | getByKey past key => exact mem_pairStep hp
  | getFirst => exact mem_pairStep hp
  | getLast => exact mem_pairStep hp

structure Scarce (grants : ℕ → ℕ → Bool) (cb : Callbacks) (n : ℕ) (arr : AssocArray)
    (s : ℕ × List (Key × ℕ)) : Prop where
  rep : ∃ cs, Rep arr cs ∧ cs.map Item.pair = s.2
  grants : arr.store.heap.grants = grants
  cb : arr.cb = cb
  calls : arr.store.heap.calls = s.1
  length : ∀ p ∈ s.2, p.1.bytes.length = n

theorem Scarce.step {arr : AssocArray} {s : ℕ × List (Key × ℕ)} (hs : Scarce grants cb n arr s)
    (hd : ∀ d ∈ op.data?, cb.Accepts d) (hk : ∀ k ∈ op.key?, k.bytes.length = n) : ∃ r arr',
    Assoc.call arr op = some (r, arr') ∧ r.answer = (scarceStep grants cb s op).1 ∧
      Scarce grants cb n arr' (scarceStep grants cb s op).2 := by
  obtain ⟨⟨cs, hr, hpairs⟩, rfl, rfl, hcalls, hlen⟩ := hs
  obtain ⟨calls, l⟩ := s
  obtain rfl : cs.map Item.pair = l := hpairs
  obtain rfl : arr.store.heap.calls = calls := hcalls
  have hu : op.Unmistaken arr :=
    hr.unmistaken (fun c hc => hlen c.pair (List.mem_map_of_mem hc)) hk
  obtain ⟨r, arr', cs', hcall, hm, hstep⟩ := hr.scarceStep op hd hu
  have hlen' : ∀ p ∈ cs'.map Item.pair, p.1.bytes.length = n := by
    intro p hp
    have hp' : p ∈ (scarceStep arr.store.heap.grants arr.cb
        (arr.store.heap.calls, cs.map Item.pair) op).2.2 := by
      rw [← hstep]
      exact hp
    exact (mem_scarceStep hp').elim (hlen p) (hk p.1)
  exact ⟨r, arr', hcall, congrArg Prod.fst hstep,
    hstep ▸ ⟨⟨cs', hm.rep, rfl⟩, hm.grants, hm.cb, rfl, hlen'⟩⟩

end

theorem arrayCreate_calls {h h' : Heap} {raw : Raw} {bits : UInt32} {arr : AssocArray}
    (hb : bits.toNat ≤ 30) (hg : CreateGranted h bits)
    (hc : arrayCreate h raw bits cb = some (some arr, h')) :
    arr.store.heap.calls = h.calls + 3 := by
  obtain ⟨mem, hht, -⟩ := htCreate_granted (h := h.grant sizeofAssocArray) (M := raw.mem) hb
    hg.2.1 hg.2.2
  simp only [arrayCreate, Heap.malloc_grant hg.1, hht, Option.bind_eq_bind, Option.bind_some] at hc
  obtain ⟨ring, -, hret⟩ := Option.bind_eq_some_iff.mp hc
  obtain rfl := Option.some.inj (Prod.mk.inj (Option.some.inj hret)).1
  rfl

/-- With keys of one size, whatever the allocator and `fill_entry` do, the array is the list of
its pairs: the requests made so far settle which addition fails, a failed one adds no pair, and
a failed replacement has taken out the pair it was to replace. A creation that fails leaves a
null pointer, through which every call fails. -/
theorem arrayCreate_run_scarce (grants : ℕ → ℕ → Bool) (raw : Raw) (bits : UInt32)
    (hb : bits.toNat ≤ 30) (cb : Callbacks) (n : ℕ) (ops : List Op)
    (hops : ∀ op ∈ ops, (∀ d ∈ op.data?, cb.Accepts d) ∧ ∀ k ∈ op.key?, k.bytes.length = n) :
    (∃ h, arrayCreate (Heap.start grants) raw bits cb = some (none, h) ∧
      ¬ CreateGranted (Heap.start grants) bits ∧
      KernelHashtable.run step none ops = some (ops.map onNull, none)) ∨
    ∃ arr h rs arr' es, arrayCreate (Heap.start grants) raw bits cb = some (some arr, h) ∧
      CreateGranted (Heap.start grants) bits ∧
      KernelHashtable.run step (some arr) ops = some (rs, some arr') ∧
      rs.map Ret.answer = (runSpec (scarceStep grants cb) (3, []) ops).1 ∧ Threaded arr' es ∧
      es.map (readEntry arr'.store) = (runSpec (scarceStep grants cb) (3, []) ops).2.2.map
        fun p => some (p.1.bytes, p.2) := by
  by_cases hg : CreateGranted (Heap.start grants) bits
  · obtain ⟨arr, hc, hrep, hcb, -, hgrants, -⟩ := arrayCreate_granted raw cb hb
      (Heap.Balanced.start grants) (fun _ => rfl) hg
    have hstart : Scarce grants cb n arr (3, []) :=
      ⟨⟨[], hrep, rfl⟩, hgrants, hcb, arrayCreate_calls hb hg hc, by simp⟩
    obtain ⟨rs, s', hrun, hans, -, arr', rfl, hend⟩ := run_refines
      (R := fun s t (_ : Unit) => ∃ arr', s = some arr' ∧ Scarce grants cb n arr' t)
      (P := fun _ op => (∀ d ∈ op.data?, cb.Accepts d) ∧ ∀ k ∈ op.key?, k.bytes.length = n)
      (scarceStep grants cb) Ret.answer (fun _ _ _ => ())
      (fun s t _ op hR hop => by
        obtain ⟨arr₁, rfl, hs⟩ := hR
        obtain ⟨r, arr₂, hcall, hans, hs'⟩ := hs.step hop.1 hop.2
        have hs₁ : step (some arr₁) op = some (r, some arr₂) := by simp [step, hcall]
        exact ⟨r, some arr₂, hs₁, hans, arr₂, rfl, hs'⟩)
      (g := ()) ⟨arr, rfl, hstart⟩ (allSteps_of_mem hops _)
    obtain ⟨cs, hr, hpairs⟩ := hend.rep
    refine Or.inr ⟨arr, _, rs, arr', _, hc, hg, hrun, hans, hr.threaded, ?_⟩
    rw [← hpairs, List.map_map, List.map_map]
    exact List.map_congr_left fun c hcs => hr.readEntry_eq hcs
  · obtain ⟨h, hc, -⟩ := arrayCreate_denied raw cb hb (Heap.Balanced.start grants) hg
    refine Or.inl ⟨h, hc, hg, ?_⟩
    clear hops
    induction ops with
    | nil => rfl
    | cons op ops ih =>
      have hnull : step none op = some (onNull op, none) := rfl
      rw [run_cons hnull, ih]
      rfl

def scarceRun : List Op := [.add 70 ⟨[21], by decide⟩, .add 71 ⟨[22], by decide⟩,
  .add 72 ⟨[22], by decide⟩, .addReplace (fun _ => false) 73 ⟨[21], by decide⟩,
  .getByKey (fun _ => false) ⟨[21], by decide⟩, .getFirst]

theorem arrayCreate_run_scarce_denied : ∃ arr h rs arr' es,
    arrayCreate (Heap.start fun i _ => i != 6 && i != 9) .zero 1 (.default fun _ => false) =
      some (some arr, h) ∧
    KernelHashtable.run step (some arr) scarceRun = some (rs, some arr') ∧
    rs.map Ret.answer = [.code 0, .code (-1), .code 0, .code (-1), .null, .pair [22] 72] ∧
    Threaded arr' es ∧ es.map (readEntry arr'.store) = [some ([22], 72)] := by
  rcases arrayCreate_run_scarce (fun i _ => i != 6 && i != 9) .zero 1 (by decide)
      (.default fun _ => false) 1 scarceRun
      (by simp [scarceRun, Op.data?, Op.key?, Op.query, Callbacks.Accepts]) with
    ⟨h, -, hg, -⟩ | ⟨arr, h, rs, arr', es, hc, -, hrun, hrs, hes, hlist⟩
  · exact absurd ⟨rfl, rfl, rfl⟩ hg
  · exact ⟨arr, h, rs, arr', es, hc, hrun, hrs, hes, hlist⟩

end KernelHashtable.Assoc
