import KernelHashtable.AssocRuns

/-!
# What a comparison reads

`array_get_by_key` compares as many bytes as the query has. That stays inside the stored
keys exactly when every entry of the bucket that stores a shorter key is behind one that
stores a key beginning with the query, because the walk ends there.
-/

namespace KernelHashtable.Assoc

/-- Each shorter key is behind one that begins with the query. -/
def Shielded (k : Key) (es : List (ℕ × List UInt8)) : Prop :=
  ∀ A e B, es = A ++ e :: B → e.2.length < k.bytes.length → ∃ f ∈ A, k.bytes <+: f.2

section
variable {past : ℕ → Bool} {k : Key} {e : ℕ × List UInt8} {es : List (ℕ × List UInt8)}

theorem agrees_iff_begins (hlen : k.bytes.length ≤ e.2.length) :
    agrees past k e = true ↔ k.bytes <+: e.2 := by
  rw [agrees, if_pos hlen, decide_eq_true_eq, List.prefix_iff_eq_take, eq_comm]

theorem shielded_cons (hlen : k.bytes.length ≤ e.2.length) :
    Shielded k (e :: es) ↔ k.bytes <+: e.2 ∨ Shielded k es := by
  constructor
  · intro hs
    by_cases hp : k.bytes <+: e.2
    · exact Or.inl hp
    · apply Or.inr
      intro A f B hes hshort
      obtain ⟨g, hg, hgp⟩ := hs (e :: A) f B (by rw [hes]; rfl) hshort
      rcases List.mem_cons.mp hg with rfl | hg
      · exact absurd hgp hp
      · exact ⟨g, hg, hgp⟩
  · intro hs A f B hes hshort
    cases A with
    | nil =>
      obtain ⟨rfl, -⟩ := List.cons.inj hes
      omega
    | cons g A =>
      obtain ⟨rfl, hes'⟩ := List.cons.inj hes
      rcases hs with hp | hs
      · exact ⟨e, by simp, hp⟩
      · obtain ⟨f', hf, hfp⟩ := hs A f B hes' hshort
        exact ⟨f', List.mem_cons_of_mem _ hf, hfp⟩

theorem upTo_inside_iff (past : ℕ → Bool) (k : Key) (es : List (ℕ × List UInt8)) :
    (∀ e ∈ upTo (agrees past k) es, k.bytes.length ≤ e.2.length) ↔ Shielded k es := by
  induction es with
  | nil =>
    refine iff_of_true ?_ fun A e B hes => ?_
    · simp [upTo]
    · simp at hes
  | cons e es ih =>
    by_cases hlen : k.bytes.length ≤ e.2.length
    · rw [shielded_cons hlen, ← ih]
      by_cases hp : k.bytes <+: e.2
      · simp [upTo, (agrees_iff_begins hlen).mpr hp, hp, hlen]
      · have hno : agrees past k e = false :=
          Bool.eq_false_iff.mpr fun ha => hp ((agrees_iff_begins hlen).mp ha)
        simp [upTo, hno, hp, hlen]
    · refine iff_of_false (fun hin => hlen (hin e ?_)) fun hs => ?_
      · by_cases ha : agrees past k e = true
        · simp [upTo, ha]
        · simp [upTo, ha]
      · obtain ⟨f, hf, -⟩ := hs [] e es rfl (by omega)
        exact absurd hf List.not_mem_nil

end

/-- The comparisons of a lookup stay inside the stored keys exactly when each shorter key
in the bucket of the query is shielded by a newer one. -/
theorem bucketWalk_inside_iff (refuses : ℕ → Bool) (arr : AssocArray)
    (hr : Reachable (.default refuses) arr) (past : ℕ → Bool) (k : Key) : ∃ cur compared,
    bucketWalk past arr k.ptr k.size = some (cur, compared) ∧
    arrayGetByKey past arr k.ptr k.size = some cur ∧
    ((∀ e ∈ compared, k.size.toNat ≤ (arr.store.keySize e).toNat) ↔
      ∀ es ∈ bucketKeys arr k, Shielded k es) := by
  obtain ⟨cs, hrep, -⟩ := hr.rep
  refine ⟨_, _, hrep.bucketWalk_eq, hrep.getByKey, ?_⟩
  simp only [hrep.bucketKeys_eq, Option.mem_some_iff, forall_eq']
  rw [← upTo_inside_iff past, upTo_map]
  simp only [List.mem_reverse, List.forall_mem_map, Key.size_toNat]
  apply forall₂_congr
  intro c hc
  rw [(hrep.items c (mem_chain.mp (mem_of_mem_upTo hc)).1).size, Key.size_toNat]
  rfl

theorem bucketWalk_inside_longest : ∃ arr cur compared,
    bucketWalk (fun _ => true) arr (.caller [7, 0, 0]) 3 = some (cur, compared) ∧
    arrayGetByKey (fun _ => true) arr (.caller [7, 0, 0]) 3 = some cur ∧
    ((∀ e ∈ compared, 3 ≤ (arr.store.keySize e).toNat) ↔
      ∀ es ∈ bucketKeys arr ⟨[7, 0, 0], by decide⟩, Shielded ⟨[7, 0, 0], by decide⟩ es) :=
  ⟨_, bucketWalk_inside_iff (fun _ => false) _
    ⟨fun _ _ => true, .zero, 1, _, _, [.add 5 ⟨[7], by decide⟩, .add 6 ⟨[7, 0, 0], by decide⟩], _,
      by decide, rfl, fun _ _ _ _ => trivial, rfl⟩ (fun _ => true) ⟨[7, 0, 0], by decide⟩⟩

theorem bucketWalk_beyond : ∃ arr h rs arr₁,
    arrayCreate (Heap.start fun _ _ => true) .zero 1 (.default fun _ => false) =
      some (some arr, h) ∧
    run step (some arr) [.add 5 ⟨[], by decide⟩] = some (rs, some arr₁) ∧
    bucketWalk (fun _ => false) arr₁ (.caller [0]) 1 = some (none, [3]) ∧
    arr₁.store.keySize 3 = 0 :=
  ⟨_, _, _, _, rfl, rfl, by decide, by decide⟩

end KernelHashtable.Assoc
