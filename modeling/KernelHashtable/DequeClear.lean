import KernelHashtable.DequeMacros

/-!
# Clearing a deque in place

What a deque answers depends on the heap, on its entries and on their data. A `DEQ_POP` on an
empty deque takes the head itself out of the ring; such a deque is torn.
-/

namespace KernelHashtable.Deque
open KList

inductive Use where
  | call (op : Op)
  | push (side : End) (maxItems : ℤ) (entry : ℕ)
  | pop (side : End)
  | isempty
  deriving DecidableEq

def useStep (d : Deq) : Use → Option ((Answer × Ptr (Loc ℕ)) × Deq)
  | .call op => step d op
  | .push .head maxItems entry => (macroPush d maxItems entry).map fun d' => ((.done, .null), d')
  | .push .tail maxItems entry =>
    (macroPushTail d maxItems entry).map fun d' => ((.done, .null), d')
  | .pop .head => (macroPop d).map fun r => ((answer d r.1, r.1), r.2)
  | .pop .tail => (macroPopTail d).map fun r => ((answer d r.1, r.1), r.2)
  | .isempty => some ((.empty (macroIsempty d), .null), d)

inductive Shape where
  | ring (es : List ℕ)
  | torn

structure View where
  heap : Heap
  data : ℕ → ℕ
  shape : Shape

def entryAnswer (data : ℕ → ℕ) : Option ℕ → Answer × Ptr (Loc ℕ)
  | none => (.null, .null)
  | some e => (.data (data e), .addr (.node e))

def pushView (h : Heap) (data : ℕ → ℕ) (es : List ℕ) (side : End) (x : ℕ) :
    Option ((Answer × Ptr (Loc ℕ)) × View) :=
  if es.length + 1 < 2 ^ 31 ∧ h.grants h.calls sizeofDeqEntry = true then
    some ((.done, .null), ⟨h.grant sizeofDeqEntry, Function.update data h.fresh x,
      .ring (pushed side h.fresh es)⟩)
  else none

def poisonAt (side : End) : Ptr (Loc ℕ) := if side = .tail then listPoison2 else listPoison1

def boundedView (h : Heap) (data : ℕ → ℕ) (es : List ℕ) (side : End) (maxItems : ℤ) (x : ℕ) :
    Option ((Answer × Ptr (Loc ℕ)) × View) :=
  match es with
  | [] => pushView h data [] side x
  | e :: es =>
    if ((e :: es).length : ℤ) = maxItems then pushView (h.release e) data es side x
    else pushView h data (e :: es) side x

def ringStep (h : Heap) (data : ℕ → ℕ) (es : List ℕ) :
    Use → Option ((Answer × Ptr (Loc ℕ)) × View)
  | .call (.push side x) => pushView h data es side x
  | .push side maxItems x => boundedView h data es side maxItems x
  | .call (.pop side) =>
    some (entryAnswer data (entryAt side es), ⟨h, data, .ring (without side es)⟩)
  | .pop side =>
    if es = [] then some ((.outside, .addr .head), ⟨h, data, .torn⟩)
    else some (entryAnswer data (entryAt side es), ⟨h, data, .ring (without side es)⟩)
  | .call (.get side) => some (entryAnswer data (entryAt side es), ⟨h, data, .ring es⟩)
  | .call .isempty | .isempty => some ((.empty es.isEmpty, .null), ⟨h, data, .ring es⟩)

/-- Nothing that follows a link of a torn deque has a meaning. -/
def tornStep (v : View) : Use → Option ((Answer × Ptr (Loc ℕ)) × View)
  | .call (.get side) => some ((.outside, poisonAt side), v)
  | .call .isempty | .isempty => some ((.empty false, .null), v)
  | _ => none

def View.step (v : View) (u : Use) : Option ((Answer × Ptr (Loc ℕ)) × View) :=
  match v.shape with
  | .ring es => ringStep v.heap v.data es u
  | .torn => tornStep v u

structure Torn (d : Deq) : Prop where
  next : d.links.next .head = listPoison1
  prev : d.links.prev .head = listPoison2
  ok_head : d.ok .head = true
  size : d.size ≠ 0

structure Shows (d : Deq) (v : View) : Prop where
  heap : d.heap = v.heap
  shape : match v.shape with
    | .ring es => Rep d es ∧ ∀ e ∈ es, d.data e = v.data e
    | .torn => Torn d

abbrev SameResult : Option ((Answer × Ptr (Loc ℕ)) × Deq) →
    Option ((Answer × Ptr (Loc ℕ)) × View) → Prop :=
  Option.Rel fun a b => a.1 = b.1 ∧ Shows a.2 b.2

theorem useStep_push (d : Deq) (side : End) (maxItems : ℤ) (x : ℕ) :
    useStep d (.push side maxItems x) = (macroPushEnd d (decide (side = .tail)) maxItems x).map
      fun d' => ((.done, .null), d') := by
  cases side <;> rfl

theorem useStep_pop (d : Deq) (side : End) : useStep d (.pop side) =
    (macroPopEnd d (decide (side = .tail))).map fun r => ((answer d r.1, r.1), r.2) := by
  cases side <;> rfl

namespace Rep
variable {d : Deq} {data : ℕ → ℕ} {es : List ℕ} {side : End} {x : ℕ}

theorem same_link {n : Int32} (hr : Rep { d with size := n } es)
    (hdata : ∀ e ∈ es, d.data e = data e) (hsize : d.size.toInt = (es.length + 1 : ℕ)) :
    SameResult ((Deque.allocAndLink d (decide (side = .tail)) x).map fun d' => ((.done, .null), d'))
      (pushView d.heap data es side x) := by
  have hlt : es.length + 1 < 2 ^ 31 := by
    have hmax := d.size.toInt_lt
    omega
  cases hg : d.heap.grants d.heap.calls sizeofDeqEntry with
  | false =>
    have hnone : Deque.allocAndLink d (decide (side = .tail)) x = none := by
      simp [Deque.allocAndLink, Heap.malloc_deny hg]
    rw [hnone, pushView, if_neg (by simp [hg])]
    exact .none
  | true =>
    obtain ⟨d', hd, hheap, -, hdata', hr'⟩ := hr.allocAndLink (decide (side = .tail)) x hsize hg
    rw [hd, pushView, if_pos ⟨hlt, hg⟩]
    refine .some ⟨rfl, hheap, by simpa [pushed] using hr', fun e he => ?_⟩
    rw [hdata']
    by_cases hnew : e = d.heap.fresh
    · simp [hnew]
    · have hmem : e ∈ es := by
        have hp := (pushed_perm side d.heap.fresh es).mem_iff.mp he
        simpa [hnew] using hp
      simp [hnew, hdata e hmem]

theorem same_push (hr : Rep d es) (hdata : ∀ e ∈ es, d.data e = data e) :
    SameResult (step d (.push side x)) (pushView d.heap data es side x) := by
  rw [step_push, deqPush_eq_allocAndLink]
  by_cases hlt : es.length + 1 < 2 ^ 31
  · obtain ⟨m, hm, hmi⟩ := intIncr_of_lt hr.count hlt
    rw [hm]
    exact same_link (d := { d with size := m }) (n := d.size) hr hdata hmi
  · rw [pushView, if_neg fun h => hlt h.1, intIncr_of_not_lt hr.count hlt]
    exact .none

theorem answer_entryAt (hdata : ∀ e ∈ es, d.data e = data e) (side : End) :
    (answer d (entryPtr (entryAt side es)), entryPtr (entryAt side es)) =
      entryAnswer data (entryAt side es) := by
  cases he : entryAt side es with
  | none => rfl
  | some e => simp [answer, entryPtr, entryAnswer, hdata e (mem_of_entryAt he)]

theorem same_pop (hr : Rep d es) (hdata : ∀ e ∈ es, d.data e = data e) :
    SameResult (step d (.pop side)) (some (entryAnswer data (entryAt side es),
      ⟨d.heap, data, .ring (Deque.without side es)⟩)) := by
  obtain ⟨d', hd, hheap, -, hdata', hr'⟩ := hr.popAt side
  rw [step_pop, hd, ← answer_entryAt hdata]
  refine .some ⟨rfl, hheap, hr', fun e he => ?_⟩
  rw [hdata', hdata e (mem_of_without he)]

theorem same_get (hr : Rep d es) (hdata : ∀ e ∈ es, d.data e = data e) :
    SameResult (step d (.get side)) (some (entryAnswer data (entryAt side es),
      ⟨d.heap, data, .ring es⟩)) := by
  rw [step_get, hr.getAt, ← answer_entryAt hdata]
  exact .some ⟨rfl, rfl, hr, hdata⟩

theorem same_macroPush (hr : Rep d es) (hdata : ∀ e ∈ es, d.data e = data e) (maxItems : ℤ) :
    SameResult (useStep d (.push side maxItems x))
      (boundedView d.heap data es side maxItems x) := by
  cases es with
  | nil =>
    rw [useStep_push, hr.macroPushEnd_room (by simp; omega), ← step_push]
    exact hr.same_push hdata
  | cons e es =>
    by_cases hfull : ((e :: es).length : ℤ) = maxItems
    · obtain ⟨L, m, hmake, hr'⟩ := hr.makeRoom_full hfull
      rw [useStep_push, macroPushEnd, hmake, boundedView, if_pos hfull]
      exact same_link (d := { d with links := L, heap := d.heap.release e }) (n := m) hr'
        (fun y hy => hdata y (List.mem_cons_of_mem e hy)) (by simpa using hr.count)
    · rw [useStep_push, hr.macroPushEnd_room (fun h => hfull h.2), ← step_push, boundedView,
        if_neg hfull]
      exact hr.same_push hdata

end Rep

theorem Rep.macroPop_nil {d : Deq} (hr : Rep d []) (fromTail : Bool) : ∃ d',
    macroPopEnd d fromTail = some (.addr .head, d') ∧ d'.heap = d.heap ∧ Torn d' := by
  have hok : d.ok .head = true := hr.ok_head
  have hnext : d.links.next .head = .addr .head := hr.ring.next_head
  have hprev : d.links.prev .head = .addr .head := hr.ring.prev_head
  have hdecr : intDecr d.size = some (-1) := by
    rw [show d.size = 0 from Int32.toInt_inj.mp hr.count]
    rfl
  obtain ⟨L, hL, hLnext, hLprev⟩ : ∃ L, KList.kListDel d.ok d.links (.addr .head) = some L ∧
      L.next .head = listPoison1 ∧ L.prev .head = listPoison2 := by
    simp [KList.kListDel, KList.listDel, Links.loadPrev_addr _ hok, Links.loadNext_addr _ hok,
      Links.storeNext_addr _ hok, Links.storePrev_addr _ hok, hnext, hprev]
  have hminus : (-1 : Int32) ≠ 0 := by decide
  refine ⟨{ d with links := L, size := -1 }, ?_, rfl, hLnext, hLprev, hr.ok_head, hminus⟩
  rw [macroPopEnd, hr.endItem_eq]
  simp [hL, hdecr]

section
variable {ok : Loc ℕ → Bool} (L : Links (Loc ℕ)) (p q : Ptr (Loc ℕ)) (n : ℕ)

theorem listAdd_poison_prev : listAdd ok L p (.poison n) q = none := by
  simp [listAdd, Links.storeNext]

theorem listAdd_poison_next : listAdd ok L p q (.poison n) = none := by
  simp [listAdd, Links.storePrev]

end

namespace Torn
variable {d : Deq}

theorem endItem (ht : Torn d) (side : End) :
    endItem d (decide (side = .tail)) = some (poisonAt side) := by
  have hok : d.ok .head = true := ht.ok_head
  cases side with
  | head => simp [Deque.endItem, poisonAt, Links.loadNext_addr _ hok, ht.next]
  | tail => simp [Deque.endItem, poisonAt, Links.loadPrev_addr _ hok, ht.prev]

theorem kListDel (d : Deq) (side : End) : KList.kListDel d.ok d.links (poisonAt side) = none := by
  cases side <;> rfl

theorem isempty (ht : Torn d) : deqIsempty d = false := by
  simpa [deqIsempty] using ht.size

theorem allocAndLink (ht : Torn d) (size : Int32) (tail : Bool) (x : ℕ) :
    Deque.allocAndLink { d with size := size } tail x = none := by
  cases hg : d.heap.grants d.heap.calls sizeofDeqEntry with
  | false => simp [Deque.allocAndLink, Heap.malloc_deny hg]
  | true =>
    have hok : (d.granted x size).ok .head = true := by
      refine Deq.ok_head.mpr fun b hb => ?_
      simp [Deq.granted, Deq.ok_head.mp ht.ok_head b hb]
    simp only [Deque.allocAndLink, Heap.malloc_grant hg]
    cases tail with
    | true =>
      have hadd : kListAddTail (d.granted x size).ok d.links (.addr (.node d.heap.fresh))
          (.addr .head) = none := by
        simp [kListAddTail, Links.loadPrev_addr _ hok, ht.prev, listPoison2, listAdd_poison_prev]
      exact congrArg (Option.bind · _) hadd
    | false =>
      have hadd : kListAdd (d.granted x size).ok d.links (.addr (.node d.heap.fresh))
          (.addr .head) = none := by
        simp [kListAdd, Links.loadNext_addr _ hok, ht.next, listPoison1, listAdd_poison_next]
      exact congrArg (Option.bind · _) hadd

theorem macroPushEnd (ht : Torn d) (tail : Bool) (maxItems : ℤ) (x : ℕ) :
    Deque.macroPushEnd d tail maxItems x = none := by
  rw [Deque.macroPushEnd, makeRoom]
  split_ifs
  · have hitem : Deque.endItem d false = some (poisonAt .head) := ht.endItem .head
    simp [hitem, kListDel]
  · cases intIncr d.size with
    | none => rfl
    | some size => exact ht.allocAndLink size tail x

theorem clear (ht : Torn d) : macroClear d = none := by
  have hfirst : loadNextIn d (.addr .head) = some listPoison1 := by
    rw [← ht.next]
    exact Links.loadNext_addr _ ht.ok_head
  have hsecond : loadNextIn d listPoison1 = none := rfl
  simp [macroClear, kListForEachEntrySafe, hfirst, hsecond]

end Torn

section
variable {d : Deq} {v : View}

theorem Shows.ring {es : List ℕ} (hr : Rep d es) : Shows d ⟨d.heap, d.data, .ring es⟩ :=
  ⟨rfl, hr, fun _ _ => rfl⟩

theorem Shows.ringStep {h : Heap} {data : ℕ → ℕ} {es : List ℕ}
    (hs : Shows d ⟨h, data, .ring es⟩) (u : Use) :
    SameResult (useStep d u) (ringStep h data es u) := by
  obtain ⟨rfl, hr, hdata⟩ := hs
  have hshow : Shows d ⟨d.heap, data, .ring es⟩ := ⟨rfl, hr, hdata⟩
  cases u with
  | call op =>
    cases op with
    | push side x => exact hr.same_push hdata
    | pop side => exact hr.same_pop hdata
    | get side => exact hr.same_get hdata
    | isempty => exact .some ⟨by rw [hr.isempty], hshow⟩
  | push side maxItems x => exact hr.same_macroPush hdata maxItems
  | pop side =>
    rw [useStep_pop, Deque.ringStep]
    by_cases hnil : es = []
    · subst hnil
      obtain ⟨d', hd, hheap, ht⟩ := hr.macroPop_nil (decide (side = .tail))
      rw [hd, if_pos rfl]
      exact .some ⟨rfl, hheap, ht⟩
    · rw [macroPopEnd_of_not_empty (by simpa [hr.isempty] using hnil), if_neg hnil, ← step_pop]
      exact hr.same_pop hdata
  | isempty =>
    have hzero : macroIsempty d = es.isEmpty := hr.isempty
    exact .some ⟨by rw [hzero], hshow⟩

theorem Shows.tornStep (ht : Torn d) (hheap : d.heap = v.heap) (hv : v.shape = .torn) (u : Use) :
    SameResult (useStep d u) (tornStep v u) := by
  have hshow : Shows d v := ⟨hheap, by rw [hv]; exact ht⟩
  cases u with
  | call op =>
    cases op with
    | push side x =>
      have hnone : useStep d (.call (.push side x)) = none := by
        change step d (.push side x) = none
        rw [step_push, deqPush_eq_allocAndLink]
        cases intIncr d.size with
        | none => rfl
        | some size => simp [ht.allocAndLink size]
      rw [hnone]
      exact .none
    | pop side =>
      have hnone : useStep d (.call (.pop side)) = none := by
        change step d (.pop side) = none
        rw [step_pop, deqPop, ht.isempty, ht.endItem]
        simp [Torn.kListDel]
      rw [hnone]
      exact .none
    | get side =>
      have hget : useStep d (.call (.get side)) = some ((.outside, poisonAt side), d) := by
        change step d (.get side) = _
        rw [step_get, deqGet, ht.isempty, ht.endItem]
        cases side <;> rfl
      rw [hget]
      exact .some ⟨rfl, hshow⟩
    | isempty => exact .some ⟨by rw [ht.isempty], hshow⟩
  | push side maxItems x =>
    rw [useStep_push, ht.macroPushEnd]
    exact .none
  | pop side =>
    rw [useStep_pop, macroPopEnd, ht.endItem]
    simp only [Option.bind_eq_bind, Option.bind_some, Torn.kListDel, Option.bind_none]
    exact .none
  | isempty =>
    have hfalse : macroIsempty d = false := ht.isempty
    exact .some ⟨by rw [hfalse], hshow⟩

theorem Shows.step (hs : Shows d v) (u : Use) : SameResult (useStep d u) (v.step u) := by
  obtain ⟨h, data, shape⟩ := v
  cases shape with
  | ring es => exact hs.ringStep u
  | torn => exact Shows.tornStep hs.shape hs.heap rfl u

theorem Shows.run (hs : Shows d v) (uses : List Use) :
    Option.Rel (fun a b => a.1 = b.1 ∧ Shows a.2 b.2) (run useStep d uses)
      (KernelHashtable.run View.step v uses) :=
  run_rel (fun _ _ u h => h.step u) hs uses

theorem Shows.of_run {d' : Deq} {rs : List (Answer × Ptr (Loc ℕ))} (hs : Shows d v)
    {uses : List Use} (hrun : KernelHashtable.run useStep d uses = some (rs, d')) :
    ∃ v', Shows d' v' := by
  have hrel := hs.run uses
  rw [hrun] at hrel
  generalize KernelHashtable.run View.step v uses = y at hrel
  cases hrel with
  | some h => exact ⟨_, h.2⟩

theorem Shows.results_eq {d₀ : Deq} (hs : Shows d v) (hs₀ : Shows d₀ v) (uses : List Use) :
    (KernelHashtable.run useStep d uses).map Prod.fst =
      (KernelHashtable.run useStep d₀ uses).map Prod.fst := by
  have hview : ∀ {d : Deq}, Shows d v → (KernelHashtable.run useStep d uses).map Prod.fst =
      (KernelHashtable.run View.step v uses).map Prod.fst := by
    intro d hs
    have hrel := hs.run uses
    generalize KernelHashtable.run useStep d uses = x at hrel ⊢
    generalize KernelHashtable.run View.step v uses = y at hrel ⊢
    cases hrel with
    | none => rfl
    | some h => exact congrArg some h.1
  exact (hview hs).trans (hview hs₀).symm

end

theorem Rep.clear_nil {d : Deq} (hr : Rep d []) : macroClear d = some d := by
  have hok : d.ok .head = true := hr.ok_head
  have hnext : d.links.next .head = .addr .head := hr.ring.next_head
  have hload : loadNextIn d (.addr .head) = some (.addr .head) :=
    (Links.loadNext_addr _ hok).trans (congrArg some hnext)
  simp [macroClear, kListForEachEntrySafe, kListForEachEntrySafeLoop, hload]

/-- The deque `d'` is what is left of `d`: each entry of the ring has been freed once, and the
deque is empty and as good as new. -/
structure Cleared (d d' : Deq) : Prop where
  freed : ∃ es : List ℕ, ringForward d = some (es.map .node) ∧ es.Nodup ∧
    d'.heap.freed = es.reverse.map Block.own ++ d.heap.freed
  size : d'.size = 0
  ring : IsRing d'.links .head []
  isempty : macroIsempty d' = true
  pop_null : ∀ side, step d' (.pop side) = some ((.null, .null), d')
  reusable : ∀ raw d₀, defineDeq d'.heap raw = some d₀ → ∀ uses,
    (run useStep d' uses).map Prod.fst = (run useStep d₀ uses).map Prod.fst

theorem Rep.cleared {d : Deq} (hr : Rep d []) : Cleared d d := by
  refine ⟨⟨[], hr.ring_walks.1, List.nodup_nil, rfl⟩, Int32.toInt_inj.mp hr.count, hr.ring,
    hr.isempty, fun side => ?_, fun raw d₀ hd₀ uses => ?_⟩
  · rw [step_pop, hr.pop_nil]
    rfl
  · obtain ⟨d₁, hd₁, hheap, -, -, hr₁⟩ := defineDeq_rep hr.balanced raw
    obtain rfl : d₁ = d₀ := Option.some.inj (hd₁.symm.trans hd₀)
    have hs : Shows d ⟨d.heap, d.data, .ring []⟩ := ⟨rfl, hr, by simp⟩
    have hs₀ : Shows d₁ ⟨d.heap, d.data, .ring []⟩ := ⟨hheap, hr₁, by simp⟩
    exact hs.results_eq hs₀ uses

theorem Shows.clear_frame {d d' : Deq} {v : View} (hs : Shows d v)
    (hclear : macroClear d = some d') : d'.links = d.links ∧ d'.size = d.size := by
  obtain ⟨h, data, shape⟩ := v
  cases shape with
  | torn =>
    rw [Torn.clear hs.shape] at hclear
    cases hclear
  | ring es =>
    obtain ⟨h, hloop, -⟩ := Rep.freeEntries hs.shape.1
    obtain rfl := Option.some.inj (hloop.symm.trans hclear)
    exact ⟨rfl, rfl⟩

/-- After every run from a new deque, `DEQ_CLEAR` yields an empty deque exactly where the deque
was empty before. -/
theorem macroClear_cleared_iff {h : Heap} {raw : Raw} {d₀ d : Deq} {uses : List Use}
    {rs : List (Answer × Ptr (Loc ℕ))} (hb : h.Balanced)
    (hd₀ : defineDeq h raw = some d₀) (hrun : run useStep d₀ uses = some (rs, d)) :
    (∃ d', macroClear d = some d' ∧ Cleared d d') ↔ macroIsempty d = true := by
  obtain ⟨d₁, hd₁, -, -, -, hr₀⟩ := defineDeq_rep hb raw
  obtain rfl : d₁ = d₀ := Option.some.inj (hd₁.symm.trans hd₀)
  obtain ⟨v, hs⟩ := (Shows.ring hr₀).of_run hrun
  constructor
  · rintro ⟨d', hclear, hc⟩
    have hsize : d.size = 0 := (hs.clear_frame hclear).2.symm.trans hc.size
    simp [macroIsempty, hsize]
  · intro hempty
    obtain ⟨h, data, shape⟩ := v
    cases shape with
    | torn =>
      have hne : deqIsempty d = false := Torn.isempty hs.shape
      exact absurd (hempty.symm.trans hne) (by decide)
    | ring es =>
      obtain ⟨hr, -⟩ := hs.shape
      obtain rfl : es = [] := List.isEmpty_iff.mp (hr.isempty.symm.trans hempty)
      exact ⟨d, hr.clear_nil, hr.cleared⟩

theorem macroClear_cleared_popped : ∃ d₀ rs d,
    defineDeq (Heap.start fun _ _ => true) zeroRaw = some d₀ ∧
    run useStep d₀ [.push .tail 0 5, .call (.pop .head)] = some (rs, d) ∧
    ∃ d', macroClear d = some d' ∧ Cleared d d' := by
  obtain ⟨d₀, hd₀⟩ : ∃ d₀, defineDeq (Heap.start fun _ _ => true) zeroRaw =
      some d₀ := ⟨_, rfl⟩
  obtain ⟨rs, d, hrun, hempty⟩ : ∃ rs d,
      run useStep d₀ [.push .tail 0 5, .call (.pop .head)] = some (rs, d) ∧
        macroIsempty d = true := by
    cases hd₀
    exact ⟨_, _, rfl, rfl⟩
  exact ⟨d₀, rs, d, hd₀, hrun,
    (macroClear_cleared_iff (Heap.Balanced.start _) hd₀ hrun).mpr hempty⟩

theorem macroClear_keeps_entry : ∃ d₀ rs d,
    defineDeq (Heap.start fun _ _ => true) zeroRaw = some d₀ ∧
    run useStep d₀ [.call (.push .tail 5)] = some (rs, d) ∧
    (∃ d', macroClear d = some d' ∧ d'.heap.freed = [.own 0] ∧ d'.size = 1 ∧
      macroIsempty d' = false ∧ d'.links.next .head = .addr (.node 0) ∧
      step d' (.pop .head) = none) ∧
    ¬ ∃ d', macroClear d = some d' ∧ Cleared d d' := by
  refine ⟨_, _, _, rfl, rfl, ⟨_, rfl, rfl, rfl, rfl, rfl, rfl⟩, ?_⟩
  rintro ⟨d', hclear, hc⟩
  cases hclear
  exact absurd hc.size (by decide)

end KernelHashtable.Deque
