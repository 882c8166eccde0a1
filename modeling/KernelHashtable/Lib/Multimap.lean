import Mathlib.Data.List.Nodup
import Mathlib.Logic.Function.Basic

/-!
# Multimaps that remember the order of insertion

A multimap is the list of its pairs, the oldest first. A lookup answers with the newest
pair of the key and a removal takes that pair out. With distinct keys the list stands
for a finite map.
-/

namespace KernelHashtable.Multimap
variable {K V : Type} [DecidableEq K] {l A B : List (K × V)} {k j : K} {v : V} {p : K × V}

def hasKey (k : K) (p : K × V) : Bool := decide (p.1 = k)

def newest (l : List (K × V)) (k : K) : Option (K × V) := l.reverse.find? (hasKey k)

def removeNewest (l : List (K × V)) (k : K) : List (K × V) :=
  (l.reverse.eraseP (hasKey k)).reverse

theorem newest_eq_none : newest l k = none ↔ ∀ p ∈ l, p.1 ≠ k := by
  simp [newest, hasKey, List.find?_eq_none]

theorem newest_key (hp : newest l k = some p) : p.1 = k := by
  simpa [hasKey] using List.find?_some hp

theorem removeNewest_of_none (hn : newest l k = none) : removeNewest l k = l := by
  have hno : ∀ p ∈ l.reverse, ¬ hasKey k p = true := by
    simpa [newest, List.find?_eq_none] using hn
  rw [removeNewest, List.eraseP_of_forall_not hno, List.reverse_reverse]

theorem removeNewest_of_some (hp : newest l k = some p) :
    ∃ A B, l = A ++ p :: B ∧ (∀ q ∈ B, q.1 ≠ k) ∧ removeNewest l k = A ++ B := by
  obtain ⟨hk, as, bs, hl, has⟩ := List.find?_eq_some_iff_append.mp hp
  have hno : ∀ q ∈ as, ¬ hasKey k q = true := by simpa using has
  refine ⟨bs.reverse, as.reverse, ?_, fun q hq => ?_, ?_⟩
  · rw [← List.reverse_reverse l, hl]
    simp
  · simpa [hasKey] using hno q (List.mem_reverse.mp hq)
  · rw [removeNewest, hl, List.eraseP_append_right _ hno, List.eraseP_cons_of_pos hk]
    simp

theorem mem_of_mem_removeNewest (hp : p ∈ removeNewest l k) : p ∈ l :=
  List.mem_reverse.mp (List.mem_of_mem_eraseP (List.mem_reverse.mp hp))

theorem removeNewest_distinct (hl : (l.map Prod.fst).Nodup) (k : K) :
    removeNewest l k = l.filter fun p => decide (p.1 ≠ k) := by
  cases hn : newest l k with
  | none =>
    rw [removeNewest_of_none hn]
    exact (List.filter_eq_self.mpr fun p hp => decide_eq_true (newest_eq_none.mp hn p hp)).symm
  | some p =>
    obtain ⟨A, B, rfl, hB, hrem⟩ := removeNewest_of_some hn
    have hk := newest_key hn
    rw [List.map_append, List.map_cons] at hl
    have hA : ∀ q ∈ A, q.1 ≠ k := fun q hq h =>
      (List.nodup_append.mp hl).2.2 q.1 (List.mem_map_of_mem hq) p.1 (by simp) (h.trans hk.symm)
    rw [hrem, List.filter_append, List.filter_cons_of_neg (by simp [hk]),
      List.filter_eq_self.mpr fun q hq => decide_eq_true (hA q hq),
      List.filter_eq_self.mpr fun q hq => decide_eq_true (hB q hq)]

structure Lists (l : List (K × V)) (m : K → Option V) : Prop where
  nodup : (l.map Prod.fst).Nodup
  mem_iff : ∀ k v, (k, v) ∈ l ↔ m k = some v

namespace Lists
variable {m : K → Option V}

omit [DecidableEq K] in
theorem nil : Lists ([] : List (K × V)) fun _ => none := ⟨List.nodup_nil, by simp⟩

theorem newest_eq (hl : Lists l m) (k : K) : newest l k = (m k).map fun v => (k, v) := by
  cases hn : newest l k with
  | none =>
    cases hm : m k with
    | none => rfl
    | some v => exact absurd rfl (newest_eq_none.mp hn (k, v) ((hl.mem_iff k v).mpr hm))
  | some p =>
    have hk := newest_key hn
    have hmem : (k, p.2) ∈ l := by
      rw [← hk]
      exact List.mem_reverse.mp (List.mem_of_find?_eq_some hn)
    rw [(hl.mem_iff k p.2).mp hmem, Option.map_some, ← hk]

theorem remove (hl : Lists l m) (k : K) :
    Lists (removeNewest l k) (Function.update m k none) := by
  cases hn : newest l k with
  | none =>
    have hm : m k = none := by simpa [hl.newest_eq] using hn
    rwa [removeNewest_of_none hn, ← hm, Function.update_eq_self]
  | some p =>
    obtain ⟨A, B, rfl, -, hrem⟩ := removeNewest_of_some hn
    have hk := newest_key hn
    have hperm : ((A ++ p :: B).map Prod.fst).Perm (k :: (A ++ B).map Prod.fst) := by
      rw [← hk]
      exact List.perm_middle.map Prod.fst
    obtain ⟨hout, hnd⟩ := List.nodup_cons.mp (hperm.nodup_iff.mp hl.nodup)
    rw [hrem]
    refine ⟨hnd, fun j v => ?_⟩
    by_cases hj : j = k
    · rw [hj, Function.update_self]
      exact ⟨fun hm => absurd (List.mem_map_of_mem hm) hout, fun hm => nomatch hm⟩
    · rw [Function.update_of_ne hj, ← hl.mem_iff]
      have hp : (j, v) ≠ p := fun e => hj (by rw [← hk, ← e])
      simp [hp]

theorem append (hl : Lists l m) (hk : m k = none) (v : V) :
    Lists (l ++ [(k, v)]) (Function.update m k (some v)) := by
  have hout : k ∉ l.map Prod.fst := by
    intro hmem
    obtain ⟨p, hp, rfl⟩ := List.mem_map.mp hmem
    rw [(hl.mem_iff p.1 p.2).mp hp] at hk
    cases hk
  refine ⟨?_, fun j w => ?_⟩
  · rw [List.map_append]
    exact List.nodup_append.mpr ⟨hl.nodup, by simp, fun a ha b hb e => hout (by simp_all)⟩
  · by_cases hj : j = k
    · subst hj
      have hno : (j, w) ∉ l := fun hmem => hout (List.mem_map_of_mem hmem)
      simp [hno, eq_comm]
    · rw [Function.update_of_ne hj, ← hl.mem_iff]
      simp [hj]

end Lists
end KernelHashtable.Multimap
