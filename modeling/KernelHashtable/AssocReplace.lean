import KernelHashtable.AssocLedger

/-!
# Replacing without enough memory

`array_add_replace` deletes before it adds. A failure of the addition is without
consequences exactly when there was nothing to delete.
-/

namespace KernelHashtable.Assoc

section
variable {cb : Callbacks} {arr : AssocArray} {cs : List Item} {past : ℕ → Bool} {k : Key}
  {data : ℕ}

theorem fillGranted_congr {h h' : Heap} (hg : h'.grants = h.grants) (hc : h'.calls = h.calls) :
    cb.FillGranted h' k ↔ cb.FillGranted h k := by
  simp only [Callbacks.FillGranted, hg, hc]

theorem Rep.found_eq_none (hr : Rep arr cs) : found past arr.ht.bits cs k = none ↔
    ∀ es ∈ bucketKeys arr k, ∀ e ∈ es, agrees past k e = false := by
  simp only [hr.bucketKeys_eq, Option.mem_some_iff, forall_eq', List.forall_mem_map]
  simp [found, compares, List.find?_eq_none]

theorem Rep.addReplace_unchanged_iff (hr : Rep arr cs) (hd : arr.cb.Accepts data) : ∃ code arr',
    arrayAddReplace past arr data k.ptr k.size = some (code, arr') ∧
      ((code = -1 → Unchanged arr arr') ↔
        arr.cb.FillGranted arr.store.heap k ∨ found past arr.ht.bits cs k = none) := by
  cases hf : found past arr.ht.bits cs k with
  | none =>
    obtain ⟨code, arr', cs', hadd, -⟩ := hr.add (k := k) hd
    refine ⟨code, arr', by simp [arrayAddReplace, hr.del_none hf, hadd], ?_⟩
    simp only [or_true, iff_true]
    rintro rfl
    exact hr.add_unchanged hd hadd
  | some c =>
    obtain ⟨A, B, rfl, -⟩ := erase_split hr (found_mem hf).1
    obtain ⟨arr₁, hdel, hrep, -, -, hcb, hrel⟩ := hr.del_some hf
    have hgr : arr₁.cb.FillGranted arr₁.store.heap k ↔ arr.cb.FillGranted arr.store.heap k := by
      rw [hcb]
      exact fillGranted_congr hrel.grants hrel.calls
    by_cases hg : arr.cb.FillGranted arr.store.heap k
    · obtain ⟨d, arr', hadd, -⟩ := hrep.add_ok (hgr.mpr hg) (hcb ▸ hd)
      refine ⟨0, arr', by simp [arrayAddReplace, hdel, hadd], ?_⟩
      simp [hg]
    · obtain ⟨st, hadd, -⟩ := hrep.add_fail data fun h => hg (hgr.mp h)
      refine ⟨-1, { arr₁ with store := st }, by simp [arrayAddReplace, hdel, hadd], ?_⟩
      simp only [hg, reduceCtorEq, or_self, iff_false, forall_const]
      intro hu
      have hsize : arr₁.size = arr.size := hu.size
      rw [hrep.size, hr.size] at hsize
      simp at hsize

end

/-- A replacement is all or nothing exactly when its addition can allocate or nothing in
the bucket of the key compares equal to it. -/
theorem arrayAddReplace_unchanged_iff (cb : Callbacks) (arr : AssocArray)
    (hr : Reachable cb arr) (past : ℕ → Bool) (data : ℕ) (hd : cb.Accepts data) (key : Key) :
    ∃ code arr', arrayAddReplace past arr data key.ptr key.size = some (code, arr') ∧
      ((code = -1 → Unchanged arr arr') ↔
        arr.cb.FillGranted arr.store.heap key ∨
          ∀ es ∈ bucketKeys arr key, ∀ e ∈ es, agrees past key e = false) := by
  obtain ⟨cs, hrep, rfl⟩ := hr.rep
  rw [← hrep.found_eq_none]
  exact hrep.addReplace_unchanged_iff hd

theorem arrayAddReplace_unchanged_absent : ∃ arr code arr',
    arrayAddReplace (fun _ => true) arr 6 (.caller [1]) 1 = some (code, arr') ∧
      ((code = -1 → Unchanged arr arr') ↔
        arr.cb.FillGranted arr.store.heap ⟨[1], by decide⟩ ∨
          ∀ es ∈ bucketKeys arr ⟨[1], by decide⟩, ∀ e ∈ es,
            agrees (fun _ => true) ⟨[1], by decide⟩ e = false) :=
  ⟨_, arrayAddReplace_unchanged_iff (.default fun _ => false) _
    ⟨fun i _ => decide (i < 5), .zero, 1, _, _, [.add 5 ⟨[2], by decide⟩], _, by decide, rfl,
      fun _ _ _ _ => trivial, rfl⟩ (fun _ => true) 6 trivial ⟨[1], by decide⟩⟩

/-- The replacement that fails for want of memory has already freed the old data. -/
theorem arrayAddReplace_loses : ∃ arr h rs arr₁ arr₂,
    arrayCreate (Heap.start fun i _ => decide (i < 5)) .zero 1 (.default fun _ => false) =
      some (some arr, h) ∧
    run step (some arr) [.add 5 ⟨[1], by decide⟩] = some (rs, some arr₁) ∧
    arrayAddReplace (fun _ => true) arr₁ 6 (.caller [1]) 1 = some (-1, arr₂) ∧
    arr₁.size = 1 ∧ arrayGetByKey (fun _ => true) arr₁ (.caller [1]) 1 = some (some 3) ∧
    arr₂.size = 0 ∧ arrayGetByKey (fun _ => true) arr₂ (.caller [1]) 1 = some none ∧
    arr₂.store.heap.freed.count (.foreign 5) = 1 ∧ ¬ Unchanged arr₁ arr₂ := by
  refine ⟨_, _, _, _, _, rfl, rfl, rfl, ?_, ?_, ?_, ?_, ?_, fun hu => ?_⟩
  · decide
  · decide
  · decide
  · decide
  · decide
  · exact absurd hu.size (by decide)

end KernelHashtable.Assoc
