import KernelHashtable.DequeClear
import Mathlib.Algebra.Group.Int.Defs

/-!
# Bounded pushes

Both pushes take out the entry behind the head of a full deque, whichever end they push at.
-/

namespace KernelHashtable.Deque
open KList

def boundedStep (maxItems : ℤ) (d : Deq) (op : End × ℕ) :
    Option ((Answer × Ptr (Loc ℕ)) × Deq) :=
  useStep d (.push op.1 maxItems op.2)

def End.opposite : End → End
  | .head => .tail
  | .tail => .head

def kept (maxItems : ℤ) (side : End) (l : List ℕ) : List ℕ :=
  if (l.length : ℤ) = maxItems then without side.opposite l else l

def evicted (maxItems : ℤ) (side : End) (l : List ℕ) : List ℕ :=
  if (l.length : ℤ) = maxItems then (entryAt side.opposite l).toList else []

structure FarPush (maxItems : ℤ) (op : End × ℕ) (d d' : Deq) (es es' : List ℕ) : Prop where
  before : ringForward d = some (es.map .node)
  after : ringForward d' = some (es'.map .node)
  entries : es' = pushed op.1 d.heap.fresh (kept maxItems op.1 es)
  values : es'.map d'.data = pushed op.1 op.2 ((kept maxItems op.1 es).map d.data)
  freed : d'.heap.freed = (evicted maxItems op.1 es).map Block.own ++ d.heap.freed
  count : d'.size.toInt = es'.length
  bound : d'.size.toInt ≤ maxItems

def PushesFar (maxItems : ℤ) (d : Deq) (op : End × ℕ) : Prop :=
  ∃ d' es es', boundedStep maxItems d op = some ((.done, .null), d') ∧
    FarPush maxItems op d d' es es'

def lastPushed (side : End) (m : ℕ) (xs : List ℕ) : List ℕ :=
  if side = .tail then xs.drop (xs.length - m) else (xs.drop (xs.length - m)).reverse

/-- Every push of the run evicts at the far end, and the runs at one end keep the last
`maxItems` values. -/
structure KeepsBound (maxItems : ℤ) (d₀ : Deq) (ops : List (End × ℕ)) : Prop where
  steps : AllSteps (boundedStep maxItems) (PushesFar maxItems) d₀ ops
  one_sided : ∀ side xs, xs.map (Prod.mk side) <+: ops → ∃ rs d, ∃ es : List ℕ,
    run (boundedStep maxItems) d₀ (xs.map (Prod.mk side)) = some (rs, d) ∧
    ringForward d = some (es.map .node) ∧ es.map d.data = lastPushed side maxItems.toNat xs

section
variable {d d' : Deq} {e m : ℕ} {es es' : List ℕ} {op : End × ℕ}

theorem ringForward_inj {xs ys : List ℕ} (hx : ringForward d = some (xs.map .node))
    (hy : ringForward d = some (ys.map .node)) : xs = ys :=
  List.map_injective_iff.mpr (fun _ _ h => Loc.node.inj h) (Option.some.inj (hx.symm.trans hy))

theorem map_pushed {new : ℕ} (hnew : new ∉ es) (data : ℕ → ℕ) (side : End) (x : ℕ) :
    (pushed side new es).map (Function.update data new x) = pushed side x (es.map data) := by
  have hsame : es.map (Function.update data new x) = es.map data :=
    List.map_congr_left fun y hy => Function.update_of_ne (ne_of_mem_of_not_mem hy hnew) _ _
  cases side <;> simp [pushed, hsame]

theorem Rep.boundedStep_room (hr : Rep d es) (op : End × ℕ) (hroom : es.length < m)
    (hfit : es.length + 1 < 2 ^ 31) (hg : d.heap.grants d.heap.calls sizeofDeqEntry = true) :
    ∃ d', boundedStep m d op = some ((.done, .null), d') ∧ d'.heap.grants = d.heap.grants ∧
      Rep d' (pushed op.1 d.heap.fresh es) ∧
      FarPush m op d d' es (pushed op.1 d.heap.fresh es) := by
  obtain ⟨side, x⟩ := op
  obtain ⟨d', hd, hheap, -, hdata, hr'⟩ := hr.push (decide (side = .tail)) x hfit hg
  have hrep : Rep d' (pushed side d.heap.fresh es) := by simpa [pushed] using hr'
  have hne : ¬ (es.length : ℤ) = m := by omega
  have hlen : (pushed side d.heap.fresh es).length = es.length + 1 := by
    simpa using (pushed_perm side d.heap.fresh es).length_eq
  refine ⟨d', ?_, by rw [hheap]; rfl, hrep, hr.ring_walks.1, hrep.ring_walks.1, ?_, ?_, ?_,
    hrep.count, ?_⟩
  · rw [boundedStep, useStep_push, hr.macroPushEnd_room fun h => hne h.2, hd]
    rfl
  · rw [kept, if_neg hne]
  · rw [kept, if_neg hne, hdata, map_pushed hr.fresh_out]
  · rw [evicted, if_neg hne, hheap]
    rfl
  · rw [hrep.count, hlen]
    omega

theorem Rep.boundedStep_overflow (hr : Rep d es) (hroom : es.length < m)
    (hfit : ¬ es.length + 1 < 2 ^ 31) : boundedStep m d op = none := by
  have hne : ¬ (es.length : ℤ) = m := by omega
  rw [boundedStep, useStep_push, hr.macroPushEnd_room fun h => hne h.2]
  simp [deqPush, intIncr_of_not_lt hr.count hfit]

theorem Rep.boundedStep_full (hr : Rep d (e :: es)) (op : End × ℕ)
    (hfull : (e :: es).length = m) (hg : d.heap.grants d.heap.calls sizeofDeqEntry = true) :
    ∃ d', boundedStep m d op = some ((.done, .null), d') ∧ d'.heap.grants = d.heap.grants ∧
      d'.heap.freed = .own e :: d.heap.freed ∧ Rep d' (pushed op.1 d.heap.fresh es) ∧
      (pushed op.1 d.heap.fresh es).map d'.data = pushed op.1 op.2 (es.map d.data) := by
  obtain ⟨side, x⟩ := op
  obtain ⟨d', hd, hheap, hdata, hr'⟩ := hr.macroPushEnd_full (by rw [hfull])
    (decide (side = .tail)) x hg
  have hout : d.heap.fresh ∉ es := fun h => hr.fresh_out (List.mem_cons_of_mem e h)
  refine ⟨d', ?_, by rw [hheap]; rfl, by rw [hheap]; rfl, by simpa [pushed] using hr', ?_⟩
  · rw [boundedStep, useStep_push, hd]
    rfl
  · rw [hdata, map_pushed hout]

theorem evicted_first_iff {side : End} (hnd : (e :: es).Nodup) (hfull : (e :: es).length = m) :
    evicted m side (e :: es) = [e] ↔ m = 1 ∨ side = .tail := by
  rw [evicted, if_pos (by rw [hfull])]
  cases side with
  | tail => simp [End.opposite, entryAt]
  | head =>
    rcases List.eq_nil_or_concat' es with rfl | ⟨fs, f, rfl⟩
    · simpa [End.opposite, entryAt] using hfull.symm
    · have hne : ¬ f = e := by
        rintro rfl
        simp at hnd
      have hm : ¬ m = 1 := by
        simp at hfull
        omega
      simp [End.opposite, entryAt, List.getLast?_cons, hne, hm]

theorem kept_rest {side : End} (hfull : (e :: es).length = m) (hfar : m = 1 ∨ side = .tail) :
    kept m side (e :: es) = es := by
  rw [kept, if_pos (by rw [hfull])]
  cases side with
  | tail => rfl
  | head =>
    have hone : m = 1 := hfar.resolve_right (by simp)
    obtain rfl : es = [] := by simpa [hone] using hfull
    rfl

theorem Rep.pushesFar_full (hr : Rep d (e :: es)) (hfull : (e :: es).length = m)
    (hg : d.heap.grants d.heap.calls sizeofDeqEntry = true) :
    PushesFar m d op ↔ m = 1 ∨ op.1 = .tail := by
  obtain ⟨d', hd, -, hfreed, hr', hvalues⟩ := hr.boundedStep_full op hfull hg
  rw [← evicted_first_iff hr.nodup hfull]
  constructor
  · rintro ⟨d₁, es₁, es₁', hd₁, hfar⟩
    obtain ⟨-, rfl⟩ := Prod.mk.inj (Option.some.inj (hd₁.symm.trans hd))
    obtain rfl := ringForward_inj hr.ring_walks.1 hfar.before
    have hmap : (evicted m op.1 (e :: es)).map Block.own = [e].map Block.own :=
      List.append_cancel_right (hfar.freed.symm.trans hfreed)
    exact List.map_injective_iff.mpr (fun _ _ h => Block.own.inj h) hmap
  · intro hev
    have hkept : kept m op.1 (e :: es) = es :=
      kept_rest hfull ((evicted_first_iff hr.nodup hfull).mp hev)
    refine ⟨d', e :: es, _, hd, hr.ring_walks.1, hr'.ring_walks.1, ?_, ?_, ?_, hr'.count, ?_⟩
    · rw [hkept]
    · rw [hkept, hvalues]
    · rw [hev, hfreed]
      rfl
    · have hlen : (pushed op.1 d.heap.fresh es).length = m := by
        rw [(pushed_perm op.1 _ es).length_eq, ← hfull]
        simp
      exact Int.le_of_eq (hr'.count.trans (congrArg Nat.cast hlen))

theorem Rep.allSteps_far_iff (hr : Rep d es) (hg : ∀ i, d.heap.grants i sizeofDeqEntry = true)
    (hm : 1 ≤ m) (hle : es.length ≤ m) (ops : List (End × ℕ)) :
    AllSteps (boundedStep m) (PushesFar m) d ops ↔
      (m = 1 ∨ ∀ op ∈ ops.drop (m - es.length), op.1 = .tail) ∧
        (m < 2 ^ 31 ∨ es.length + ops.length < 2 ^ 31) := by
  induction ops generalizing d es with
  | nil =>
    have hlt := hr.count_lt
    simp only [AllSteps, List.drop_nil, List.length_nil, true_iff]
    exact ⟨Or.inr (by simp), Or.inr (by omega)⟩
  | cons op ops ih =>
    rcases hle.lt_or_eq with hroom | hfull
    · have hdrop : (op :: ops).drop (m - es.length) = ops.drop (m - (es.length + 1)) := by
        rw [show m - es.length = m - (es.length + 1) + 1 by omega, List.drop_succ_cons]
      rw [hdrop, List.length_cons]
      by_cases hfit : es.length + 1 < 2 ^ 31
      · obtain ⟨d', hd, hgr, hr', hfar⟩ := hr.boundedStep_room op hroom hfit (hg _)
        have hlen : (pushed op.1 d.heap.fresh es).length = es.length + 1 := by
          simpa using (pushed_perm op.1 d.heap.fresh es).length_eq
        have hpush : PushesFar m d op := ⟨d', es, _, hd, hfar⟩
        rw [allSteps_cons hd, and_iff_right hpush, ih hr' (hgr ▸ hg) (by omega), hlen,
          Nat.add_assoc, Nat.add_comm 1]
      · refine ⟨fun hall => ?_, fun hcond => ?_⟩
        · obtain ⟨d', -, -, hd, -⟩ := hall.1
          rw [hr.boundedStep_overflow hroom hfit] at hd
          cases hd
        · omega
    · cases es with
      | nil =>
        simp at hfull
        omega
      | cons e es =>
        obtain ⟨d', hd, hgr, -, hr', -⟩ := hr.boundedStep_full op hfull (hg _)
        have hlen : (pushed op.1 d.heap.fresh es).length = m := by
          rw [(pushed_perm op.1 _ es).length_eq, ← hfull]
          simp
        rw [allSteps_cons hd, hr.pushesFar_full hfull (hg _), ih hr' (hgr ▸ hg) hlen.le, hlen,
          hfull, Nat.sub_self, List.drop_zero, List.drop_zero]
        have hlt : m < 2 ^ 31 := hfull ▸ hr.count_lt
        simp only [hlt, true_or, and_true, List.forall_mem_cons]
        exact or_and_left.symm

theorem kept_map (f : ℕ → ℕ) (maxItems : ℤ) (side : End) (l : List ℕ) :
    (kept maxItems side l).map f = kept maxItems side (l.map f) := by
  by_cases hfull : (l.length : ℤ) = maxItems
  · cases side <;> simp [kept, without, End.opposite, hfull]
  · simp [kept, hfull]

theorem run_of_far {maxItems : ℤ} {ops : List (End × ℕ)}
    (hes : ringForward d = some (es.map .node))
    (hfar : AllSteps (boundedStep maxItems) (PushesFar maxItems) d ops) : ∃ rs d', ∃ es' : List ℕ,
      run (boundedStep maxItems) d ops = some (rs, d') ∧ ringForward d' = some (es'.map .node) ∧
      es'.map d'.data = ops.foldl (fun vs op => pushed op.1 op.2 (kept maxItems op.1 vs))
        (es.map d.data) := by
  obtain ⟨rs, d', hrun, hlen, es', hes', hvalues⟩ := run_history
    (R := fun (d : Deq) vs => ∃ es : List ℕ, ringForward d = some (es.map .node) ∧
      es.map d.data = vs) (fun vs op _ => pushed op.1 op.2 (kept maxItems op.1 vs))
    (fun s vs op hR hP => by
      obtain ⟨es, hes, rfl⟩ := hR
      obtain ⟨s', es₁, es', hs, hpush⟩ := hP
      obtain rfl := ringForward_inj hes hpush.before
      refine ⟨_, s', hs, es', hpush.after, ?_⟩
      rw [hpush.values, kept_map]) ⟨es, hes, rfl⟩ hfar
  refine ⟨rs, d', es', hrun, hes', ?_⟩
  have hzip : (ops.zip rs).map Prod.fst = ops := List.map_fst_zip hlen.ge
  conv_rhs => rw [← hzip, List.foldl_map]
  exact hvalues

theorem lastPushed_concat (hm : 1 ≤ m) (side : End) (xs : List ℕ) (x : ℕ) :
    lastPushed side m (xs ++ [x]) = pushed side x (kept m side (lastPushed side m xs)) := by
  rcases Nat.lt_or_ge xs.length m with hlt | hge
  · have hne : ¬ (xs.length : ℤ) = m := by omega
    have hzero : xs.length - m = 0 ∧ xs.length + 1 - m = 0 := by omega
    cases side <;> simp [lastPushed, kept, pushed, hzero, hne]
  · have hfull : ((xs.length - (xs.length - m) : ℕ) : ℤ) = m := by omega
    have hsucc : xs.length + 1 - m = xs.length - m + 1 := by omega
    have hdrop : (xs ++ [x]).drop (xs.length - m + 1) = xs.drop (xs.length - m + 1) ++ [x] :=
      List.drop_append_of_le_length (by omega)
    cases side <;> simp [lastPushed, kept, pushed, End.opposite, without, hfull, hsucc, hdrop]

theorem foldl_lastPushed (hm : 1 ≤ m) (side : End) (xs : List ℕ) :
    (xs.map (Prod.mk side)).foldl (fun vs op => pushed op.1 op.2 (kept m op.1 vs)) [] =
      lastPushed side m xs := by
  induction xs using List.reverseRecOn with
  | nil => simp [lastPushed]
  | append_singleton xs x ih => simp [ih, lastPushed_concat hm]

end

/-- A run of bounded pushes on a new deque keeps the bound by evicting at the far end exactly
where, once `maxItems` have been pushed, every push is at the tail, or one entry is all the
deque may hold; and where the counter does not overflow first. -/
theorem keepsBound_iff {h : Heap} {raw : Raw} {d₀ : Deq} {maxItems : ℤ} (hb : h.Balanced)
    (hg : ∀ i, h.grants i sizeofDeqEntry = true) (hm : 1 ≤ maxItems)
    (hd₀ : defineDeq h raw = some d₀) (ops : List (End × ℕ)) :
    KeepsBound maxItems d₀ ops ↔
      (maxItems = 1 ∨ ∀ op ∈ ops.drop maxItems.toNat, op.1 = .tail) ∧
        (maxItems < 2 ^ 31 ∨ ops.length < 2 ^ 31) := by
  obtain ⟨d₁, hd₁, hheap, -, -, hr⟩ := defineDeq_rep hb raw
  obtain rfl : d₁ = d₀ := Option.some.inj (hd₁.symm.trans hd₀)
  obtain ⟨m, rfl⟩ := Int.eq_ofNat_of_zero_le (show 0 ≤ maxItems by omega)
  have hm' : 1 ≤ m := by omega
  have hiff := hr.allSteps_far_iff (hheap ▸ hg) hm' (Nat.zero_le m) ops
  simp only [List.length_nil, Nat.sub_zero, Nat.zero_add] at hiff
  have hcast : ((m : ℤ) = 1 ↔ m = 1) ∧ ((m : ℤ) < 2 ^ 31 ↔ m < 2 ^ 31) := by omega
  rw [Int.toNat_natCast, hcast.1, hcast.2, ← hiff]
  refine ⟨fun hk => hk.steps, fun hsteps => ⟨hsteps, fun side xs hpre => ?_⟩⟩
  obtain ⟨rest, rfl⟩ := hpre
  obtain ⟨rs, d, es, hrun, hes, hvalues⟩ := run_of_far hr.ring_walks.1 hsteps.of_append
  exact ⟨rs, d, es, hrun, hes, hvalues.trans (foldl_lastPushed hm' side xs)⟩

theorem keepsBound_tail_pushes : ∃ d₀,
    defineDeq (Heap.start fun _ _ => true) zeroRaw = some d₀ ∧
    KeepsBound 2 d₀ [(.head, 5), (.tail, 6), (.tail, 7), (.tail, 8)] := by
  obtain ⟨d₀, hd₀⟩ : ∃ d₀, defineDeq (Heap.start fun _ _ => true) zeroRaw =
      some d₀ := ⟨_, rfl⟩
  exact ⟨d₀, hd₀, (keepsBound_iff (Heap.Balanced.start _) (fun _ => rfl)
    (by decide) hd₀ _).mpr ⟨by decide, by decide⟩⟩

theorem keepsBound_head_pushes : ∃ d₀ rs d,
    defineDeq (Heap.start fun _ _ => true) zeroRaw = some d₀ ∧
    run (boundedStep 2) d₀ [(.head, 5), (.head, 6), (.head, 7)] = some (rs, d) ∧
    ringForward d = some [.node 2, .node 0] ∧ [2, 0].map d.data = [7, 5] ∧
    d.heap.freed = [.own 1] ∧ ¬ KeepsBound 2 d₀ [(.head, 5), (.head, 6), (.head, 7)] := by
  refine ⟨_, _, _, rfl, rfl, rfl, rfl, rfl, fun hk => ?_⟩
  obtain ⟨rs, d, es, hrun, hes, hvalues⟩ := hk.one_sided .head [5, 6, 7] (List.prefix_refl _)
  obtain ⟨-, rfl⟩ := Prod.mk.inj (Option.some.inj hrun)
  obtain rfl : [2, 0] = es := ringForward_inj rfl hes
  exact absurd hvalues (by decide)

end KernelHashtable.Deque
