import KernelHashtable.DequeClear

/-!
# What becomes of the entries of a deque

A program that uses the functions and the macros side by side is answered like a list, until a
macro pops an empty deque. An entry that was pushed goes to the caller, who popped it, to the
macro that made room for another, or to `deq_free`.
-/

namespace KernelHashtable.Deque
open KList

def deqForEach (d : Deq) : Option (List ℕ) := do
  let items ← ringForward d
  items.mapM fun
    | .head => none
    | .node e => if d.heap.live e then some (d.data e) else none

def listPush (side : End) (x : ℕ) (l : List ℕ) : Option (Answer × Option (List ℕ)) :=
  if l.length + 1 < 2 ^ 31 then some (.done, some (pushed side x l)) else none

def listOp (l : List ℕ) : Use → Option (Answer × Option (List ℕ))
  | .call (.push side x) => listPush side x l
  | .push side maxItems x =>
    if l ≠ [] ∧ (l.length : ℤ) = maxItems then listPush side x l.tail else listPush side x l
  | .pop side =>
    if l = [] then some (.outside, none)
    else some ((listStep l (.pop side)).1, some (listStep l (.pop side)).2)
  | .call op => some ((listStep l op).1, some (listStep l op).2)
  | .isempty => some (.empty l.isEmpty, some l)

/-- The uses of a list that is lost once a macro has popped it when it was empty. -/
def listUse : Option (List ℕ) → Use → Option (Answer × Option (List ℕ))
  | some l, u => listOp l u
  | none, .call (.get _) => some (.outside, none)
  | none, .call .isempty | none, .isempty => some (.empty false, none)
  | none, _ => none

def handedOut (out : List ℕ) : Use → Answer × Ptr (Loc ℕ) → List ℕ
  | .call (.pop _), (_, .addr (.node e)) | .pop _, (_, .addr (.node e)) => out ++ [e]
  | _, _ => out

def allHandedOut (uses : List Use) (rs : List (Answer × Ptr (Loc ℕ))) : List ℕ :=
  (uses.zip rs).foldl (fun out r => handedOut out r.1 r.2) []

def Shape.entries : Shape → List ℕ
  | .ring es => es
  | .torn => []

def View.contents (v : View) : Option (List ℕ) :=
  match v.shape with
  | .ring es => some (es.map v.data)
  | .torn => none

structure Tally (h₀ : Heap) (v : View) (out : List ℕ) : Prop where
  grants : v.heap.grants = h₀.grants
  entries : ∃ evicted made, v.heap.fresh = h₀.fresh + made ∧
    (out ++ evicted ++ v.shape.entries).Perm (List.range' h₀.fresh made) ∧
    v.heap.freed = evicted.reverse.map Block.own ++ h₀.freed

section
variable {h₀ h : Heap} {data : ℕ → ℕ} {es out : List ℕ} {side : End} {x : ℕ} {v : View}

abbrev Follows (h₀ : Heap) (out : List ℕ) (u : Use) :
    Option ((Answer × Ptr (Loc ℕ)) × View) → Option (Answer × Option (List ℕ)) → Prop :=
  Option.Rel fun a b => a.1.1 = b.1 ∧ a.2.contents = b.2 ∧ Tally h₀ a.2 (handedOut out u a.1)

theorem Tally.lt_fresh (ht : Tally h₀ ⟨h, data, .ring es⟩ out) {e : ℕ} (he : e ∈ es) :
    e < h.fresh := by
  obtain ⟨evicted, made, hfresh, hperm, -⟩ := ht.entries
  have hfresh' : h.fresh = h₀.fresh + made := hfresh
  have hmem := hperm.mem_iff.mp (List.mem_append_right _ he)
  rw [List.mem_range'_1] at hmem
  omega

theorem Tally.pushView (hg : ∀ i, h₀.grants i sizeofDeqEntry = true)
    (ht : Tally h₀ ⟨h, data, .ring es⟩ out) {u : Use} (hu : ∀ r, handedOut out u (.done, r) = out) :
    Follows h₀ out u (Deque.pushView h data es side x) (listPush side x (es.map data)) := by
  have hgrants : h.grants = h₀.grants := ht.grants
  have hgranted : h.grants h.calls sizeofDeqEntry = true := by
    rw [hgrants]
    exact hg _
  by_cases hlt : es.length + 1 < 2 ^ 31
  · rw [Deque.pushView, listPush, List.length_map, if_pos ⟨hlt, hgranted⟩, if_pos hlt]
    refine .some ⟨rfl, ?_, hgrants, ?_⟩
    · have hsame : es.map (Function.update data h.fresh x) = es.map data :=
        List.map_congr_left fun e he => Function.update_of_ne (ht.lt_fresh he).ne _ _
      cases side with
      | head => simp [View.contents, pushed, hsame]
      | tail => simp [View.contents, pushed, hsame]
    · obtain ⟨evicted, made, hfresh, hperm, hfreed⟩ := ht.entries
      have hfresh' : h.fresh = h₀.fresh + made := hfresh
      refine ⟨evicted, made + 1, ?_, ?_, hfreed⟩
      · change h.fresh + 1 = h₀.fresh + (made + 1)
        omega
      · have hpush := (pushed_perm side h.fresh es).append_left (out ++ evicted)
        rw [← List.append_assoc] at hpush
        rw [hu, List.range'_concat, Nat.one_mul, ← hfresh']
        exact hpush.trans (hperm.append_right [h.fresh])
  · rw [Deque.pushView, listPush, List.length_map, if_neg fun h => hlt h.1, if_neg hlt]
    exact .none

theorem Tally.evict {e : ℕ} (ht : Tally h₀ ⟨h, data, .ring (e :: es)⟩ out) :
    Tally h₀ ⟨h.release e, data, .ring es⟩ out := by
  obtain ⟨evicted, made, hfresh, hperm, hfreed⟩ := ht.entries
  have hfreed' : h.freed = evicted.reverse.map Block.own ++ h₀.freed := hfreed
  refine ⟨ht.grants, evicted ++ [e], made, hfresh, ?_, ?_⟩
  · simpa [Shape.entries] using hperm
  · simp [hfreed']

theorem Tally.boundedView (hg : ∀ i, h₀.grants i sizeofDeqEntry = true)
    (ht : Tally h₀ ⟨h, data, .ring es⟩ out) (maxItems : ℤ) :
    Follows h₀ out (.push side maxItems x) (Deque.boundedView h data es side maxItems x)
      (listOp (es.map data) (.push side maxItems x)) := by
  cases es with
  | nil => exact ht.pushView hg fun _ => rfl
  | cons e es =>
    rw [Deque.boundedView, listOp, List.length_map]
    by_cases hfull : ((e :: es).length : ℤ) = maxItems
    · rw [if_pos hfull, if_pos ⟨by simp, hfull⟩]
      exact ht.evict.pushView hg fun _ => rfl
    · rw [if_neg hfull, if_neg fun h => hfull h.2]
      exact ht.pushView hg fun _ => rfl

theorem Tally.handOut (ht : Tally h₀ ⟨h, data, .ring es⟩ out) {u : Use}
    (hu : ∀ a e, handedOut out u (a, .addr (.node e)) = out ++ [e])
    (hnull : ∀ a, handedOut out u (a, .null) = out) :
    Follows h₀ out u (some (entryAnswer data (entryAt side es),
        ⟨h, data, .ring (without side es)⟩))
      (some ((listStep (es.map data) (.pop side)).1,
        some (listStep (es.map data) (.pop side)).2)) := by
  rw [listStep_pop]
  obtain ⟨evicted, made, hfresh, hperm, hfreed⟩ := ht.entries
  cases he : entryAt side es with
  | none =>
    refine .some ⟨rfl, rfl, ht.grants, evicted, made, hfresh, ?_, hfreed⟩
    rw [without_of_none he, entryAnswer, hnull]
    exact hperm
  | some e =>
    refine .some ⟨rfl, rfl, ht.grants, evicted, made, hfresh, ?_, hfreed⟩
    rw [entryAnswer, hu]
    have hswap : (e :: (evicted ++ without side es)).Perm (evicted ++ e :: without side es) :=
      List.perm_middle.symm
    have hmove : (out ++ [e] ++ evicted ++ without side es).Perm
        (out ++ evicted ++ (e :: without side es)) := by
      simpa using hswap.append_left out
    exact hmove.trans (((without_perm he).append_left (out ++ evicted)).trans hperm)

theorem Tally.ringStep (hg : ∀ i, h₀.grants i sizeofDeqEntry = true)
    (ht : Tally h₀ ⟨h, data, .ring es⟩ out) (u : Use) :
    Follows h₀ out u (Deque.ringStep h data es u) (listOp (es.map data) u) := by
  cases u with
  | call op =>
    cases op with
    | push side x => exact ht.pushView hg fun _ => rfl
    | pop side => exact ht.handOut (fun _ _ => rfl) fun _ => rfl
    | get side =>
      have hget : listOp (es.map data) (.call (.get side)) =
          some (orNull ((entryAt side es).map data), some (es.map data)) := by
        simp only [listOp, listStep_get]
      rw [hget]
      refine .some ⟨?_, rfl, ht⟩
      cases entryAt side es <;> rfl
    | isempty => exact .some ⟨by simp [listStep], rfl, ht⟩
  | push side maxItems x => exact ht.boundedView hg maxItems
  | pop side =>
    cases es with
    | nil => exact .some ⟨rfl, rfl, ht.grants, ht.entries⟩
    | cons e es => exact ht.handOut (fun _ _ => rfl) fun _ => rfl
  | isempty => exact .some ⟨by simp, rfl, ht⟩

theorem Tally.step (hg : ∀ i, h₀.grants i sizeofDeqEntry = true) (ht : Tally h₀ v out)
    (u : Use) : Follows h₀ out u (v.step u) (listUse v.contents u) := by
  obtain ⟨h, data, shape⟩ := v
  cases shape with
  | ring es => exact ht.ringStep hg u
  | torn =>
    cases u with
    | call op =>
      cases op with
      | push side x => exact .none
      | pop side => exact .none
      | get side =>
        refine .some ⟨rfl, rfl, ?_⟩
        cases side <;> exact ht
      | isempty => exact .some ⟨rfl, rfl, ht⟩
    | push side maxItems x => exact .none
    | pop side => exact .none
    | isempty => exact .some ⟨rfl, rfl, ht⟩

theorem Torn.deqFree {d : Deq} (ht : Torn d) : deqFree d = none := by
  have hfirst : loadNextIn d (.addr .head) = some listPoison1 := by
    rw [← ht.next]
    exact Links.loadNext_addr _ ht.ok_head
  have hsecond : loadNextIn d listPoison1 = none := rfl
  simp [Deque.deqFree, kListForEachEntrySafe, hfirst, hsecond]

theorem Torn.deqForEach {d : Deq} (ht : Torn d) : deqForEach d = none := by
  have hhead : d.links.loadNext d.ok (.addr .head) = some listPoison1 := by
    rw [← ht.next]
    exact Links.loadNext_addr _ ht.ok_head
  simp [Deque.deqForEach, ringForward, kListForEach, hhead, listPoison1, Links.walk]

theorem Rep.deqForEach {d : Deq} (hr : Rep d es) : deqForEach d = some (es.map d.data) := by
  rw [Deque.deqForEach, hr.ring_walks.1]
  refine mapM_map_some fun e he => ?_
  simp [hr.live e he]

/-- A deque that a program leaves with the list `l`, where `out` has been handed out. Only a deque
in a block of its own may be passed to `deq_free`. -/
def Left (h₀ : Heap) (d : Deq) (out : List ℕ) : Option (List ℕ) → Prop
  | none => deqForEach d = none ∧ macroClear d = none ∧ deqFree d = none
  | some l => deqForEach d = some l ∧ ∃ d', macroClear d = some d' ∧
      (∀ e, h₀.fresh ≤ e → e < d.heap.fresh →
        d'.heap.freed.count (.own e) = if e ∈ out then 0 else 1) ∧
      (d.self = none → deqFree d = none) ∧
      ∀ self ∈ d.self, ∃ h, deqFree d = some h ∧ h.freed = .own self :: d'.heap.freed ∧
        h.freed.count (.own self) = 1

theorem count_own (es : List ℕ) (e : ℕ) : (es.map Block.own).count (.own e) = es.count e :=
  List.count_map_of_injective es Block.own (fun _ _ h => Block.own.inj h) e

theorem Tally.left {d : Deq} (hs : Shows d v) (ht : Tally h₀ v out) (hb : h₀.Balanced) :
    Left h₀ d out v.contents := by
  obtain ⟨h, data, shape⟩ := v
  cases shape with
  | torn =>
    have htorn : Torn d := hs.shape
    exact ⟨htorn.deqForEach, htorn.clear, htorn.deqFree⟩
  | ring es =>
    obtain ⟨hheap, hr, hdata⟩ := hs
    obtain ⟨evicted, made, hfresh, hperm, hfreed⟩ := ht.entries
    have hperm' : (out ++ evicted ++ es).Perm (List.range' h₀.fresh made) := hperm
    obtain ⟨h', hclear, hcleared, -⟩ := hr.freeEntries
    have hcount (e : ℕ) : h'.freed.count (.own e) =
        es.count e + evicted.count e + h₀.freed.count (.own e) := by
      have hheap' : d.heap.freed = evicted.reverse.map Block.own ++ h₀.freed :=
        (congrArg Heap.freed hheap).trans hfreed
      rw [hcleared, hheap', List.count_append, List.count_append, count_own, count_own,
        List.count_reverse, List.count_reverse, Nat.add_assoc]
    refine ⟨?_, { d with heap := h' }, hclear, fun e hlo hhi => ?_, hr.free_variable,
      fun self hself => ?_⟩
    · rw [hr.deqForEach]
      exact congrArg some (List.map_congr_left hdata)
    · have hone : out.count e + evicted.count e + es.count e = 1 := by
        have hmem : e ∈ List.range' h₀.fresh made := by
          have hhi' : e < h₀.fresh + made := by
            rw [hheap] at hhi
            exact hfresh ▸ hhi
          exact List.mem_range'_1.mpr ⟨hlo, hhi'⟩
        rw [← List.count_append, ← List.count_append, hperm'.count_eq]
        exact List.count_eq_one_of_mem (List.nodup_range') hmem
      have hzero : h₀.freed.count (.own e) = 0 := by
        rw [hb.freed_count, if_neg (by omega)]
      rw [hcount e, hzero]
      split_ifs with hout
      · have hpos := List.count_pos_iff.mpr hout
        omega
      · rw [List.count_eq_zero.mpr hout] at hone
        omega
    · obtain ⟨h'', hfree, hledger⟩ := hr.free hself
      refine ⟨h'', hfree, by rw [hledger, hcleared, List.cons_append], ?_⟩
      have hzero : d.heap.freed.count (.own self) = 0 := by
        rw [hr.balanced.freed_count, hr.self_live self hself]
        simp
      rw [hledger, List.cons_append, List.count_cons_self, List.count_append, hzero, count_own,
        List.count_reverse, List.count_eq_zero.mpr (hr.self_out self hself)]

theorem allocAndLink_self {d d' : Deq} {tail : Bool} (h : allocAndLink d tail x = some d') :
    d'.self = d.self := by
  unfold allocAndLink at h
  split at h
  · cases h
  · cases tail with
    | true =>
      obtain ⟨links, -, rfl⟩ := by simpa [Option.bind_eq_some_iff] using h
      rfl
    | false =>
      obtain ⟨links, -, rfl⟩ := by simpa [Option.bind_eq_some_iff] using h
      rfl

theorem makeRoom_self {d d' : Deq} {maxItems : ℤ} (h : makeRoom d maxItems = some d') :
    d'.self = d.self := by
  unfold makeRoom at h
  split at h
  · obtain ⟨item, -, hrest⟩ := Option.bind_eq_some_iff.mp h
    obtain ⟨links, -, hfree⟩ := Option.bind_eq_some_iff.mp hrest
    cases item with
    | addr y =>
      cases y with
      | head => cases hfree
      | node e =>
        obtain ⟨h, -, hret⟩ := Option.bind_eq_some_iff.mp hfree
        rw [← Option.some.inj hret]
    | null => cases hfree
    | poison n => cases hfree
  · obtain ⟨size, -, hret⟩ := Option.bind_eq_some_iff.mp h
    rw [← Option.some.inj hret]

theorem macroPopEnd_self {d : Deq} {fromTail : Bool} {r : Ptr (Loc ℕ) × Deq}
    (h : macroPopEnd d fromTail = some r) : r.2.self = d.self := by
  obtain ⟨item, -, hrest⟩ := Option.bind_eq_some_iff.mp h
  obtain ⟨links, -, hrest⟩ := Option.bind_eq_some_iff.mp hrest
  obtain ⟨size, -, hret⟩ := Option.bind_eq_some_iff.mp hrest
  rw [← Option.some.inj hret]

theorem useStep_self {d d' : Deq} {u : Use} {r : Answer × Ptr (Loc ℕ)}
    (h : useStep d u = some (r, d')) : d'.self = d.self := by
  cases u with
  | call op =>
    cases op with
    | push side x =>
      obtain ⟨d₁, hpush, hret⟩ := Option.map_eq_some_iff.mp ((step_push d side x).symm.trans h)
      rw [deqPush_eq_allocAndLink] at hpush
      obtain ⟨size, -, hlink⟩ := Option.bind_eq_some_iff.mp hpush
      obtain rfl := (Prod.mk.inj hret).2
      exact allocAndLink_self (d := { d with size := size }) hlink
    | pop side =>
      obtain ⟨r₁, hpop, hret⟩ := Option.map_eq_some_iff.mp ((step_pop d side).symm.trans h)
      obtain rfl := (Prod.mk.inj hret).2
      cases hd : deqIsempty d with
      | true =>
        rw [deqPop, if_pos hd] at hpop
        rw [← Option.some.inj hpop]
      | false =>
        rw [← macroPopEnd_of_not_empty hd] at hpop
        exact macroPopEnd_self hpop
    | get side =>
      obtain ⟨p, -, hret⟩ := Option.map_eq_some_iff.mp ((step_get d side).symm.trans h)
      rw [← (Prod.mk.inj hret).2]
    | isempty => rw [← (Prod.mk.inj (Option.some.inj h)).2]
  | push side maxItems y =>
    rw [useStep_push] at h
    obtain ⟨d₁, hpush, hret⟩ := Option.map_eq_some_iff.mp h
    obtain rfl := (Prod.mk.inj hret).2
    obtain ⟨d₂, hroom, hlink⟩ := Option.bind_eq_some_iff.mp hpush
    exact (allocAndLink_self hlink).trans (makeRoom_self hroom)
  | pop side =>
    rw [useStep_pop] at h
    obtain ⟨r₁, hpop, hret⟩ := Option.map_eq_some_iff.mp h
    obtain rfl := (Prod.mk.inj hret).2
    exact macroPopEnd_self hpop
  | isempty => rw [← (Prod.mk.inj (Option.some.inj h)).2]

def Used (d₀ d : Deq) (l : Option (List ℕ)) (out : List ℕ) : Prop :=
  d.self = d₀.self ∧ ∃ v, Shows d v ∧ v.contents = l ∧ Tally d₀.heap v out

theorem Used.step {d₀ d : Deq} {l : Option (List ℕ)}
    (hg : ∀ i, d₀.heap.grants i sizeofDeqEntry = true) (hu : Used d₀ d l out) (u : Use) :
    Option.Rel (fun a b => a.1.1 = b.1 ∧ Used d₀ a.2 b.2 (handedOut out u a.1))
      (useStep d u) (listUse l u) := by
  obtain ⟨hself, v, hs, rfl, ht⟩ := hu
  have hview := hs.step u
  have hlist := ht.step hg u
  have hstay : ∀ a, useStep d u = some a → a.2.self = d₀.self := fun a ha =>
    (useStep_self ha).trans hself
  generalize useStep d u = x at hview hstay
  generalize v.step u = y at hview hlist
  generalize listUse v.contents u = z at hlist
  cases hview with
  | none =>
    cases hlist
    exact .none
  | some h =>
    cases hlist with
    | some h' =>
      refine .some ⟨(congrArg Prod.fst h.1).trans h'.1, hstay _ rfl, _, h.2, h'.2.1, ?_⟩
      rw [h.1]
      exact h'.2.2

/-- What `DEFINE_DEQ` sets up, and `deque_create` in a block that held zero for the counter. -/
def Created (h : Heap) (raw : Raw) (d : Deq) : Prop :=
  defineDeq h raw = some d ∨ dequeCreate h raw = some (.ok d) ∧ raw.size = 0

theorem Created.rep {h : Heap} {raw : Raw} {d : Deq} (hb : h.Balanced) (hd : Created h raw d) :
    Rep d [] ∧ d.heap.grants = h.grants := by
  rcases hd with hd | ⟨hd, hzero⟩
  · obtain ⟨d₁, hd₁, hheap, -, -, hr⟩ := defineDeq_rep hb raw
    obtain rfl : d₁ = d := Option.some.inj (hd₁.symm.trans hd)
    exact ⟨hr, by rw [hheap]⟩
  · obtain ⟨hheap, hsize, hself, hbal, hring⟩ := dequeCreate_ok hb hd
    refine ⟨⟨hring, by simp, hself, by simp, hbal, by rw [hsize, hzero]; rfl⟩, ?_⟩
    rw [hheap, Heap.grant_grants]

/-- A program that mixes the functions and the macros on a new deque is answered like a list. In
the end `DEQ_CLEAR` and `deq_free` free what no pop has handed out, unless the macros have popped
an empty deque. -/
theorem run_uses_list {h : Heap} {raw : Raw} {d₀ : Deq} (hb : h.Balanced)
    (hg : ∀ i, h.grants i sizeofDeqEntry = true) (hd₀ : Created h raw d₀) (uses : List Use) :
    (run useStep d₀ uses).map (fun r => r.1.map Prod.fst) =
        (run listUse (some []) uses).map Prod.fst ∧
      ∀ rs d, run useStep d₀ uses = some (rs, d) → d.self = d₀.self ∧ ∃ answers l,
        run listUse (some []) uses = some (answers, l) ∧
          Left d₀.heap d (allHandedOut uses rs) l := by
  obtain ⟨hr₀, hgrants⟩ := hd₀.rep hb
  have hstart : Tally d₀.heap ⟨d₀.heap, d₀.data, .ring []⟩ [] :=
    ⟨rfl, [], 0, rfl, List.Perm.refl _, rfl⟩
  have hused : Used d₀ d₀ (some []) [] := ⟨rfl, _, Shows.ring hr₀, rfl, hstart⟩
  have hrel := run_rel_ghost (R := Used d₀) Prod.fst handedOut
    (fun d l out u hu => hu.step (hgrants ▸ hg) u) hused uses
  generalize run useStep d₀ uses = x at hrel ⊢
  generalize run listUse (some []) uses = y at hrel ⊢
  cases hrel with
  | none => exact ⟨rfl, fun _ _ h => absurd h (by simp)⟩
  | @some p q hpq =>
    refine ⟨congrArg some hpq.1, ?_⟩
    rintro rs d heq
    obtain rfl := Option.some.inj heq
    obtain ⟨hself, v, hs, hl, ht⟩ := hpq.2
    exact ⟨hself, q.1, q.2, rfl, hl ▸ ht.left hs hr₀.balanced⟩

theorem run_uses_list_mixed : ∃ d₀ rs d,
    dequeCreate (Heap.start fun _ _ => true) zeroRaw = some (.ok d₀) ∧
    run useStep d₀ [.push .tail 2 5, .call (.push .head 6), .push .tail 2 7, .pop .head] =
      some (rs, d) ∧ rs.map Prod.fst = [.done, .done, .done, .data 5] ∧
    Left d₀.heap d [1] (some [7]) := by
  obtain ⟨d₀, hd₀⟩ : ∃ d₀, dequeCreate (Heap.start fun _ _ => true) zeroRaw = some (.ok d₀) :=
    ⟨_, rfl⟩
  obtain ⟨hanswers, hleft⟩ := run_uses_list (Heap.Balanced.start _) (fun _ => rfl)
    (Or.inr ⟨hd₀, rfl⟩) [.push .tail 2 5, .call (.push .head 6), .push .tail 2 7, .pop .head]
  obtain ⟨rs, d, hrun, hout⟩ : ∃ rs d,
      run useStep d₀ [.push .tail 2 5, .call (.push .head 6), .push .tail 2 7, .pop .head] =
        some (rs, d) ∧ allHandedOut [.push .tail 2 5, .call (.push .head 6), .push .tail 2 7,
          .pop .head] rs = [1] := by
    cases hd₀
    exact ⟨_, _, rfl, rfl⟩
  obtain ⟨-, answers, l, hlist, hl⟩ := hleft rs d hrun
  have hspec : run listUse (some []) [.push .tail 2 5, .call (.push .head 6), .push .tail 2 7,
      .pop .head] = some ([.done, .done, .done, .data 5], some [7]) := rfl
  obtain ⟨rfl, rfl⟩ := Prod.mk.inj (Option.some.inj (hlist.symm.trans hspec))
  rw [hrun, hlist] at hanswers
  exact ⟨d₀, rs, d, hd₀, hrun, Option.some.inj hanswers, hout ▸ hl⟩

end
end KernelHashtable.Deque
