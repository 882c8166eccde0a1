import KernelHashtable.AssocMultimap

/-!
# The associative array as a finite map

Written with `array_add_replace` alone, an array holds one pair for a key, and behaves as
a finite map on whole keys in every run without mistaken lookups. The comparison looks at
as many bytes as the query has, whatever the size of the stored key, so a stored key that
merely begins with the query can be mistaken for it.
-/

namespace KernelHashtable.Assoc
open Multimap

inductive MapOp where
  | replace (past : ℕ → Bool) (data : ℕ) (key : Key)
  | del (past : ℕ → Bool) (key : Key)
  | get (past : ℕ → Bool) (key : Key)

def MapOp.op : MapOp → Op
  | .replace past data key => .addReplace past data key
  | .del past key => .del past key
  | .get past key => .getByKey past key

/-- The calls on a finite map, when no allocation fails. -/
def mapStep (m : Key → Option ℕ) : MapOp → Answer × (Key → Option ℕ)
  | .replace _ data key => (.code 0, Function.update m key (some data))
  | .del _ key => (.code (if (m key).isSome then 0 else 1), Function.update m key none)
  | .get _ key => (pairAnswer ((m key).map fun d => (key, d)), m)

def Represents (arr : AssocArray) (m : Key → Option ℕ) : Prop :=
  ∃ es l, Threaded arr es ∧ es.map (readEntry arr.store) = l.map (fun p => some (p.1.bytes, p.2)) ∧
    Lists l m ∧ arr.size = l.length

instance (op : Op) (arr : AssocArray) : Decidable (op.Unmistaken arr) :=
  inferInstanceAs (Decidable (∀ q ∈ op.query, ∀ es ∈ bucketKeys arr q.2, clear q.1 q.2 es = true))

theorem pairStep_mapStep {l : List (Key × ℕ)} {m : Key → Option ℕ} (hl : Lists l m) (o : MapOp) :
    (pairStep l o.op).1 = (mapStep m o).1 ∧ Lists (pairStep l o.op).2 (mapStep m o).2 := by
  cases o with
  | replace past data key =>
    refine ⟨rfl, ?_⟩
    have happ := (hl.remove key).append (Function.update_self key none m) data
    rwa [Function.update_idem] at happ
  | del past key =>
    refine ⟨?_, hl.remove key⟩
    simp [MapOp.op, pairStep, mapStep, hl.newest_eq]
  | get past key =>
    refine ⟨?_, hl⟩
    simp [MapOp.op, pairStep, mapStep, hl.newest_eq]

/-- In every run without mistaken lookups the array is a finite map on whole keys. -/
theorem arrayCreate_run_refines_map (grants : ℕ → ℕ → Bool) (hg : ∀ i n, grants i n = true)
    (raw : Raw) (bits : UInt32) (hb : bits.toNat ≤ 30) (arr : AssocArray) (h : Heap)
    (hc : arrayCreate (Heap.start grants) raw bits (.default fun _ => false) = some (some arr, h))
    (ops : List MapOp)
    (hu : AllSteps step (fun s op => ∀ a ∈ s, op.Unmistaken a) (some arr) (ops.map MapOp.op)) :
    ∃ rs arr', run step (some arr) (ops.map MapOp.op) = some (rs, some arr') ∧
      rs.map Ret.answer = (runSpec mapStep (fun _ => none) ops).1 ∧
      Represents arr' (runSpec mapStep (fun _ => none) ops).2 := by
  obtain ⟨hrep, hcb, -, -, rfl, -⟩ := arrayCreate_rep hb hc
  obtain ⟨rs, arr', cs, hrun, hans, hrep', hpairs⟩ := hrep.run_pairs
    ⟨hg, by rw [hcb]; exact fun _ => rfl⟩ (fun op _ d _ => by rw [hcb]; trivial) hu
  rw [List.map_nil, runSpec_map] at hans hpairs
  obtain ⟨hsame, hlists⟩ := runSpec_simulates (R := Lists) (fun l o => pairStep l (MapOp.op o))
    mapStep (fun l m o hl => pairStep_mapStep hl o) Lists.nil ops
  refine ⟨rs, arr', hrun, hans.trans hsame, _, cs.map Item.pair, hrep'.threaded, ?_,
    hpairs ▸ hlists, by simp [hrep'.size]⟩
  rw [List.map_map, List.map_map]
  exact List.map_congr_left fun c hcs => hrep'.readEntry_eq hcs

theorem arrayCreate_run_two_keys : ∃ arr h,
    arrayCreate (Heap.start fun _ _ => true) .zero 1 (.default fun _ => false) =
      some (some arr, h) ∧
    ∃ rs arr', run step (some arr) ([.replace (fun _ => false) 5 ⟨[1, 2], by decide⟩,
        .replace (fun _ => false) 6 ⟨[3], by decide⟩, .del (fun _ => false) ⟨[1, 2], by decide⟩,
        .get (fun _ => false) ⟨[3], by decide⟩].map MapOp.op) = some (rs, some arr') ∧
      rs.map Ret.answer = [.code 0, .code 0, .code 0, .pair [3] 6] ∧
      Represents arr' (runSpec mapStep (fun _ => none)
        [.replace (fun _ => false) 5 ⟨[1, 2], by decide⟩,
          .replace (fun _ => false) 6 ⟨[3], by decide⟩,
          .del (fun _ => false) ⟨[1, 2], by decide⟩,
          .get (fun _ => false) ⟨[3], by decide⟩]).2 :=
  ⟨_, _, rfl, arrayCreate_run_refines_map _ (fun _ _ => rfl) .zero 1 (by decide) _ _ rfl _
    (by decide)⟩

/-- The key `[1]` is taken for the key `[1, 0]`, which hashes alike and begins with it: it is
found where it was never added, and adding it takes the other entry away. -/
theorem arrayCreate_run_prefix_key : ∃ arr h,
    arrayCreate (Heap.start fun _ _ => true) .zero 1 (.default fun _ => false) =
      some (some arr, h) ∧
    ∃ rs arr', run step (some arr) ([.replace (fun _ => false) 5 ⟨[1, 0], by decide⟩,
        .get (fun _ => false) ⟨[1], by decide⟩,
        .replace (fun _ => false) 6 ⟨[1], by decide⟩].map MapOp.op) = some (rs, some arr') ∧
      rs.map Ret.answer = [.code 0, .pair [1, 0] 5, .code 0] ∧
      arr'.size = 1 ∧ .foreign 5 ∈ arr'.store.heap.freed ∧
      (runSpec mapStep (fun _ => none) [.replace (fun _ => false) 5 ⟨[1, 0], by decide⟩,
        .get (fun _ => false) ⟨[1], by decide⟩,
        .replace (fun _ => false) 6 ⟨[1], by decide⟩]).1 = [.code 0, .null, .code 0] := by
  refine ⟨_, _, rfl, _, _, rfl, ?_, ?_, ?_, ?_⟩
  · decide
  · decide
  · decide
  · decide

end KernelHashtable.Assoc
