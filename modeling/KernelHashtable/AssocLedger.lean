import KernelHashtable.AssocRuns

/-!
# Who frees what

A created array that goes through any run of calls and is freed in the end gives back
every block it took, once, and with them the data that it accepted, once, and no other
data. A call that fails leaves everything as it was.
-/

namespace KernelHashtable.Assoc

/-- Nothing is left, and every block that was handed out has been freed once. -/
def AllFreedOnce (h : Heap) : Prop :=
  (∀ b, h.live b = false) ∧ ∀ b, b < h.fresh → h.freed.count (.own b) = 1

theorem allFreedOnce_of_balanced {h : Heap} (hb : h.Balanced) (hl : ∀ b, h.live b = false) :
    AllFreedOnce h :=
  ⟨hl, fun _ hf => hb.freed_once hl hf⟩

section
variable {ops : List Op} {rs : List Ret} {op : Op} {r : Ret} {d : ℕ}

theorem stored_sub (hd : d ∈ stored op r) : op.data? = some d := by
  unfold stored at hd
  split_ifs at hd
  · simpa using hd
  · simp at hd

theorem allStored_cons (op : Op) (r : Ret) (ops : List Op) (rs : List Ret) :
    allStored (op :: ops) (r :: rs) = stored op r ++ allStored ops rs := rfl

theorem mem_allStored (hd : d ∈ allStored ops rs) : d ∈ ops.filterMap Op.data? := by
  obtain ⟨p, hp, hdp⟩ := List.mem_flatMap.mp hd
  exact List.mem_filterMap.mpr ⟨p.1, (List.of_mem_zip hp).1, stored_sub hdp⟩

theorem count_allStored (hnd : (ops.filterMap Op.data?).Nodup) (hp : (op, r) ∈ ops.zip rs)
    (hd : op.data? = some d) : (allStored ops rs).count d = if r = .code 0 then 1 else 0 := by
  induction ops generalizing rs with
  | nil => simp at hp
  | cons o ops ih =>
    cases rs with
    | nil => simp at hp
    | cons q rs =>
      rw [allStored_cons, List.count_append]
      rcases List.mem_cons.mp hp with heq | hp
      · obtain ⟨rfl, rfl⟩ := Prod.mk.inj heq
        have hout : d ∉ ops.filterMap Op.data? := by
          rw [List.filterMap_cons_some hd] at hnd
          exact (List.nodup_cons.mp hnd).1
        have hzero : (allStored ops rs).count d = 0 :=
          List.count_eq_zero.mpr fun hm => hout (mem_allStored hm)
        unfold stored
        split_ifs
        · simp [hd, hzero]
        · simp [hzero]
      · have hmem : d ∈ ops.filterMap Op.data? :=
          List.mem_filterMap.mpr ⟨op, (List.of_mem_zip hp).1, hd⟩
        have hzero : (stored o q).count d = 0 := by
          apply List.count_eq_zero.mpr
          intro hm
          rw [List.filterMap_cons_some (stored_sub hm)] at hnd
          exact (List.nodup_cons.mp hnd).1 hmem
        have hnd' : (ops.filterMap Op.data?).Nodup :=
          List.Nodup.sublist (List.Sublist.filterMap _ (List.sublist_cons_self o ops)) hnd
        rw [hzero, Nat.zero_add]
        exact ih hnd' hp

end

structure Unchanged (arr arr' : AssocArray) : Prop where
  ring : arr'.ring = arr.ring
  mem : arr'.mem = arr.mem
  size : arr'.size = arr.size
  live : arr'.store.heap.live = arr.store.heap.live
  entries : ∀ e, arr.store.heap.live e = true → readEntry arr'.store e = readEntry arr.store e
  freed : ∀ d, arr'.store.heap.freed.count (.foreign d) =
    arr.store.heap.freed.count (.foreign d)

theorem Undone.unchanged {arr : AssocArray} {st : Store} (hb : arr.store.heap.Balanced)
    (hu : Undone arr.store st) : Unchanged arr { arr with store := st } := by
  refine ⟨rfl, rfl, rfl, hu.live, fun e he => ?_, hu.foreign⟩
  have hobj : ∀ p, st.object p = arr.store.object p := by
    intro p
    cases p with
    | null => rfl
    | block b => simp only [Store.object, hu.live, hu.bytes]
    | caller bytes => rfl
  simp only [readEntry, Store.read, hu.key e (hb.lt_fresh he), hu.keySize, hu.data, hobj]

theorem Rep.add_unchanged {arr arr' : AssocArray} {cs : List Item} {data : ℕ} {k : Key}
    (hr : Rep arr cs) (hd : arr.cb.Accepts data)
    (ha : arrayAdd arr data k.ptr k.size = some (-1, arr')) : Unchanged arr arr' := by
  by_cases hg : arr.cb.FillGranted arr.store.heap k
  · obtain ⟨c, arr₁, hadd, -⟩ := hr.add_ok hg hd
    simp [hadd] at ha
  · obtain ⟨st, hadd, hu⟩ := hr.add_fail data hg
    obtain rfl : { arr with store := st } = arr' := by simpa using hadd.symm.trans ha
    exact hu.unchanged hr.balanced

theorem count_dataBlocks {refuses : ℕ → Bool} {d : ℕ} (hd : d ≠ 0) (l : List ℕ) :
    (l.flatMap (Callbacks.default refuses).dataBlocks).count d = l.count d := by
  induction l with
  | nil => rfl
  | cons e l ih =>
    rw [List.flatMap_cons, List.count_append, ih, List.count_cons]
    by_cases he : e = 0
    · simp [Callbacks.dataBlocks, he, hd.symm]
    · simp [Callbacks.dataBlocks, he, List.count_cons, Nat.add_comm]

/-- The life of an array. If it cannot be created, nothing is left behind. If it can, every
run of calls with distinct data followed by `array_free` frees each block of the library
once, and the data of a call once if the call returned 0 and never otherwise; and in every
array on the way an addition that fails changes nothing. -/
theorem arrayCreate_run_free_ledger (grants : ℕ → ℕ → Bool) (refuses : ℕ → Bool) (raw : Raw)
    (bits : UInt32) (hb : bits.toNat ≤ 30) (ops : List Op)
    (hnd : (ops.filterMap Op.data?).Nodup) (hnull : 0 ∉ ops.filterMap Op.data?) :
    (∃ h, arrayCreate (Heap.start grants) raw bits (.default refuses) = some (none, h) ∧
      AllFreedOnce h) ∨
    ∃ arr h rs arr' h',
      arrayCreate (Heap.start grants) raw bits (.default refuses) = some (some arr, h) ∧
      run step (some arr) ops = some (rs, some arr') ∧ rs.length = ops.length ∧
      arrayFree arr' = some (0, h') ∧ AllFreedOnce h' ∧
      (∀ op r d, (op, r) ∈ ops.zip rs → op.data? = some d →
        h'.freed.count (.foreign d) = if r = .code 0 then 1 else 0) ∧
      ∀ data (key : Key) arr'', arrayAdd arr' data key.ptr key.size = some (-1, arr'') →
        Unchanged arr' arr'' := by
  by_cases hg : CreateGranted (Heap.start grants) bits
  · obtain ⟨arr, hc, hrep, hcb, -, -, hfreed⟩ := arrayCreate_granted raw
      (.default refuses) hb (Heap.Balanced.start grants) (fun _ => rfl) hg
    obtain ⟨rs, arr', cs, hrun, hlen, hm⟩ :=
      hrep.run ops (fun _ _ _ _ => by rw [hcb]; trivial)
    obtain ⟨h', hfree, hbal, hlive, hcharge, -⟩ := hm.rep.arrayFree_eq
    refine Or.inr ⟨arr, _, rs, arr', h', hc, hrun, hlen, hfree,
      allFreedOnce_of_balanced hbal hlive, fun op r d hp hd => ?_, fun data key arr'' ha =>
      hm.rep.add_unchanged (by rw [hm.cb, hcb]; trivial) ha⟩
    have hd0 : d ≠ 0 := fun h => hnull (h ▸
      List.mem_filterMap.mpr ⟨op, (List.of_mem_zip hp).1, hd⟩)
    have hstart : charge arr [] d = 0 := by
      simp [charge, hfreed, Heap.start]
    rw [hcharge, hm.charge, hstart, hcb, count_dataBlocks hd0, Nat.zero_add]
    exact count_allStored hnd hp hd
  · obtain ⟨h, hc, hbal, hlive, -⟩ := arrayCreate_denied raw (.default refuses) hb
      (Heap.Balanced.start grants) hg
    exact Or.inl ⟨h, hc, allFreedOnce_of_balanced hbal fun b => by rw [hlive]; rfl⟩

def replaceRun : List Op := [.add 70 ⟨[1], by decide⟩, .add 71 ⟨[2], by decide⟩,
  .addReplace (fun _ => false) 72 ⟨[1], by decide⟩]

theorem arrayCreate_run_free_replaced : ∃ arr h arr' h',
    arrayCreate (Heap.start fun i _ => i != 6) .zero 1 (.default fun _ => false) =
      some (some arr, h) ∧
    run step (some arr) replaceRun = some ([.code 0, .code (-1), .code 0], some arr') ∧
    arrayFree arr' = some (0, h') ∧ AllFreedOnce h' ∧ h'.freed.count (.foreign 70) = 1 ∧
    h'.freed.count (.foreign 71) = 0 ∧ h'.freed.count (.foreign 72) = 1 := by
  obtain ⟨arr₀, h₀, hc₀, hcodes⟩ : ∃ arr₀ h₀, arrayCreate (Heap.start fun i _ => i != 6) .zero 1
      (.default fun _ => false) = some (some arr₀, h₀) ∧
      (run step (some arr₀) replaceRun).map Prod.fst = some [.code 0, .code (-1), .code 0] :=
    ⟨_, _, rfl, rfl⟩
  obtain ⟨h, hc, -⟩ | ⟨arr, h, rs, arr', h', hc, hrun, -, hfree, hall, hcount, -⟩ :=
    arrayCreate_run_free_ledger (fun i _ => i != 6) (fun _ => false) .zero 1 (by decide)
      replaceRun (by decide) (by decide)
  · exact absurd (hc₀.symm.trans hc) (by simp)
  · obtain ⟨rfl, rfl⟩ : arr₀ = arr ∧ h₀ = h := by simpa using hc₀.symm.trans hc
    obtain rfl : rs = [.code 0, .code (-1), .code 0] := by simpa [hrun] using hcodes
    refine ⟨arr₀, h₀, arr', h', hc, hrun, hfree, hall, ?_, ?_, ?_⟩
    · exact hcount (.add 70 ⟨[1], by decide⟩) (.code 0) 70 (by simp [replaceRun]) rfl
    · exact hcount (.add 71 ⟨[2], by decide⟩) (.code (-1)) 71 (by simp [replaceRun]) rfl
    · exact hcount (.addReplace (fun _ => false) 72 ⟨[1], by decide⟩) (.code 0) 72
        (by simp [replaceRun]) rfl

end KernelHashtable.Assoc
