import KernelHashtable.Deque
import KernelHashtable.Lib.Run

/-!
# Runs of deque operations

The deque of the source simulates a plain list of data pointers that is pushed, popped
and read at both ends, and it neither loses nor duplicates an entry.
-/

namespace KernelHashtable.Deque
open KList

inductive End where
  | head
  | tail
  deriving DecidableEq

inductive Op where
  | push (side : End) (data : ℕ)
  | pop (side : End)
  | get (side : End)
  | isempty
  deriving DecidableEq

def Op.isPush : Op → Bool
  | .push _ _ => true
  | _ => false

inductive Answer where
  | done
  | null
  | data (x : ℕ)
  | outside
  | empty (b : Bool)
  deriving DecidableEq

def answer (d : Deq) : Ptr (Loc ℕ) → Answer
  | .null => .null
  | .addr (.node e) => .data (d.data e)
  | _ => .outside

def step (d : Deq) : Op → Option ((Answer × Ptr (Loc ℕ)) × Deq)
  | .push .head x => (deqPushHead d x).map fun d' => ((.done, .null), d')
  | .push .tail x => (deqPushTail d x).map fun d' => ((.done, .null), d')
  | .pop .head => (deqPopHead d).map fun r => ((answer d r.1, r.1), r.2)
  | .pop .tail => (deqPopTail d).map fun r => ((answer d r.1, r.1), r.2)
  | .get .head => (deqGetHead d).map fun p => ((answer d p, p), d)
  | .get .tail => (deqGetTail d).map fun p => ((answer d p, p), d)
  | .isempty => some ((.empty (deqIsempty d), .null), d)

def orNull : Option ℕ → Answer
  | none => .null
  | some x => .data x

def listStep : List ℕ → Op → Answer × List ℕ
  | l, .push .head x => (.done, x :: l)
  | l, .push .tail x => (.done, l ++ [x])
  | l, .pop .head => (orNull l.head?, l.tail)
  | l, .pop .tail => (orNull l.getLast?, l.dropLast)
  | l, .get .head => (orNull l.head?, l)
  | l, .get .tail => (orNull l.getLast?, l)
  | l, .isempty => (.empty l.isEmpty, l)

def poppedBy (popped : List ℕ) : Op → Answer × Ptr (Loc ℕ) → List ℕ
  | .pop _, (_, .addr (.node e)) => popped ++ [e]
  | _, _ => popped

def popped (ops : List Op) (rs : List (Answer × Ptr (Loc ℕ))) : List ℕ :=
  (ops.zip rs).foldl (fun p r => poppedBy p r.1 r.2) []

/-- The deque `d` has come from `d₀` by operations of which `os` are still to come,
`t` is its abstract list and `out` are the entries popped so far. `total` pushes are
made in all. -/
structure Simulates (d₀ : Deq) (total : ℕ) (d : Deq) (t out : List ℕ) (os : List Op) :
    Prop where
  entries : ∃ es made, Rep d es ∧ t = es.map d.data ∧
    d.heap.fresh = d₀.heap.fresh + made ∧ made + os.countP Op.isPush = total ∧
    (out ++ es).Perm (List.range' d₀.heap.fresh made)
  grants : d.heap.grants = d₀.heap.grants
  self : d.self = d₀.self
  freed : d.heap.freed = d₀.heap.freed

theorem Rep.map_data_fresh {d : Deq} {es : List ℕ} (hr : Rep d es) (x : ℕ) :
    es.map (Function.update d.data d.heap.fresh x) = es.map d.data := by
  refine List.map_congr_left fun e he => Function.update_of_ne ?_ _ _
  exact fun h => hr.fresh_out (h ▸ he)

theorem step_push (d : Deq) (side : End) (x : ℕ) : step d (.push side x) =
    (deqPush d (decide (side = .tail)) x).map fun d' => ((.done, .null), d') := by
  cases side <;> rfl

theorem step_pop (d : Deq) (side : End) : step d (.pop side) =
    (deqPop d (decide (side = .tail))).map fun r => ((answer d r.1, r.1), r.2) := by
  cases side <;> rfl

theorem step_get (d : Deq) (side : End) : step d (.get side) =
    (deqGet d (decide (side = .tail))).map fun p => ((answer d p, p), d) := by
  cases side <;> rfl

def entryAt (side : End) (es : List ℕ) : Option ℕ :=
  if side = .tail then es.getLast? else es.head?

def without (side : End) (es : List ℕ) : List ℕ :=
  if side = .tail then es.dropLast else es.tail

def entryPtr : Option ℕ → Ptr (Loc ℕ)
  | none => .null
  | some e => .addr (.node e)

section
variable {d : Deq} {e : ℕ} {es : List ℕ} {side : End}

theorem mem_of_entryAt (he : entryAt side es = some e) : e ∈ es := by
  cases side with
  | head => exact List.mem_of_head? he
  | tail => exact List.mem_of_getLast? he

theorem mem_of_without (he : e ∈ without side es) : e ∈ es := by
  cases side with
  | head => exact List.mem_of_mem_tail he
  | tail => exact List.mem_of_mem_dropLast he

theorem length_without : (without side es).length = es.length - 1 := by
  cases side <;> simp [without]

theorem without_perm (he : entryAt side es = some e) : (e :: without side es).Perm es := by
  cases side with
  | head =>
    obtain ⟨fs, rfl⟩ := List.head?_eq_some_iff.mp he
    exact List.Perm.refl _
  | tail =>
    obtain ⟨fs, rfl⟩ := List.getLast?_eq_some_iff.mp he
    simpa [without] using (List.perm_append_singleton e fs).symm

theorem without_of_none (he : entryAt side es = none) : without side es = es := by
  cases side with
  | head => rw [List.head?_eq_none_iff.mp he]; rfl
  | tail => rw [List.getLast?_eq_none_iff.mp he]; rfl

theorem listStep_pop (f : ℕ → ℕ) : listStep (es.map f) (.pop side) =
    (orNull ((entryAt side es).map f), (without side es).map f) := by
  cases side <;> simp [listStep, entryAt, without]

theorem listStep_get (f : ℕ → ℕ) : listStep (es.map f) (.get side) =
    (orNull ((entryAt side es).map f), es.map f) := by
  cases side <;> simp [listStep, entryAt]

theorem answer_entryPtr (d : Deq) (o : Option ℕ) :
    answer d (entryPtr o) = orNull (o.map d.data) := by
  cases o <;> rfl

theorem Rep.popAt (hr : Rep d es) (side : End) : ∃ d',
    deqPop d (decide (side = .tail)) = some (entryPtr (entryAt side es), d') ∧
      d'.heap = d.heap ∧ d'.self = d.self ∧ d'.data = d.data ∧ Rep d' (without side es) := by
  cases side with
  | head =>
    cases es with
    | nil => exact ⟨d, hr.pop_nil false, rfl, rfl, rfl, hr⟩
    | cons e es => exact hr.pop_head
  | tail =>
    rcases List.eq_nil_or_concat' es with rfl | ⟨es, e, rfl⟩
    · exact ⟨d, hr.pop_nil true, rfl, rfl, rfl, hr⟩
    · obtain ⟨d', hd, hheap, hself, hdata, hr'⟩ := hr.pop_tail
      refine ⟨d', ?_, hheap, hself, hdata, by simpa [without] using hr'⟩
      simpa [entryAt, entryPtr] using hd

theorem Rep.getAt (hr : Rep d es) (side : End) :
    deqGet d (decide (side = .tail)) = some (entryPtr (entryAt side es)) := by
  cases side with
  | head =>
    cases es with
    | nil => exact hr.get_nil false
    | cons e es => exact hr.get_head
  | tail =>
    rcases List.eq_nil_or_concat' es with rfl | ⟨es, e, rfl⟩
    · exact hr.get_nil true
    · simpa [entryAt, entryPtr] using hr.get_tail

theorem Rep.pop (hr : Rep d es) (side : End) : ∃ r d' es',
    step d (.pop side) = some (r, d') ∧ d'.heap = d.heap ∧ d'.self = d.self ∧ Rep d' es' ∧
      es'.length = es.length - 1 ∧ r.2 ≠ .addr .head ∧
      (r.1, es'.map d'.data) = listStep (es.map d.data) (.pop side) ∧
      ∀ out, (poppedBy out (.pop side) r ++ es').Perm (out ++ es) := by
  obtain ⟨d', hd, hheap, hself, hdata, hr'⟩ := hr.popAt side
  refine ⟨_, d', without side es, by rw [step_pop, hd]; rfl, hheap, hself, hr', length_without, ?_,
    ?_, fun out => ?_⟩
  · cases entryAt side es <;> simp [entryPtr]
  · rw [listStep_pop, answer_entryPtr, hdata]
  · cases he : entryAt side es with
    | none =>
      rw [without_of_none he]
      exact List.Perm.refl _
    | some e =>
      have hperm : (out ++ ([e] ++ without side es)).Perm (out ++ es) :=
        (without_perm he).append_left out
      simpa [poppedBy, entryPtr] using hperm

theorem Rep.get (hr : Rep d es) (side : End) : ∃ r,
    step d (.get side) = some (r, d) ∧
      (r.1, es.map d.data) = listStep (es.map d.data) (.get side) := by
  refine ⟨_, by rw [step_get, hr.getAt]; rfl, ?_⟩
  rw [listStep_get, answer_entryPtr]

end

def pushed (side : End) (e : ℕ) (es : List ℕ) : List ℕ :=
  if side = .tail then es ++ [e] else e :: es

theorem pushed_perm (side : End) (e : ℕ) (es : List ℕ) :
    (pushed side e es).Perm (es ++ [e]) := by
  cases side with
  | head => simpa [pushed] using (List.perm_append_singleton e es).symm
  | tail => simp [pushed]

theorem Rep.push_step {d : Deq} {es : List ℕ} (hr : Rep d es) (side : End) (x : ℕ)
    (hlt : es.length + 1 < 2 ^ 31) (hg : d.heap.grants d.heap.calls sizeofDeqEntry = true) :
    ∃ r d', step d (.push side x) = some (r, d') ∧
      d'.heap = d.heap.grant sizeofDeqEntry ∧ d'.self = d.self ∧
      Rep d' (pushed side d.heap.fresh es) ∧
      (r.1, (pushed side d.heap.fresh es).map d'.data) =
        listStep (es.map d.data) (.push side x) := by
  obtain ⟨d', hd, hheap, hself, hdata, hr'⟩ := hr.push (decide (side = .tail)) x hlt hg
  refine ⟨(.done, .null), d', by rw [step_push, hd]; rfl, hheap, hself, ?_, ?_⟩
  · simpa [pushed] using hr'
  · have hmap := hr.map_data_fresh x
    cases side with
    | head => simp [pushed, listStep, hdata, hmap]
    | tail => simp [pushed, listStep, hdata, hmap]

namespace Simulates
variable {d₀ d : Deq} {total : ℕ} {t out : List ℕ} {os : List Op}

theorem next (hg : ∀ i, d₀.heap.grants i sizeofDeqEntry = true) (ht : total < 2 ^ 31) {o : Op}
    (hs : Simulates d₀ total d t out (o :: os)) : ∃ r d', step d o = some (r, d') ∧
      r.1 = (listStep t o).1 ∧
      Simulates d₀ total d' (listStep t o).2 (poppedBy out o r) os := by
  obtain ⟨⟨es, made, hr, rfl, hfresh, hmade, hperm⟩, hgrants, hself, hfreed⟩ := hs
  cases o with
  | push side x =>
    rw [List.countP_cons_of_pos (by rfl)] at hmade
    have hlen := hperm.length_eq
    rw [List.length_append, List.length_range'] at hlen
    obtain ⟨r, d', hd, hheap, hself', hr', hspec⟩ := hr.push_step side x (by omega)
      (by rw [hgrants]; exact hg _)
    obtain ⟨ha, hl⟩ := Prod.mk.inj hspec
    refine ⟨r, d', hd, ha, ⟨_, made + 1, hr', hl.symm, ?_, by omega, ?_⟩, ?_, ?_, ?_⟩
    · rw [hheap, Heap.grant_fresh, hfresh]
      omega
    · rw [List.range'_concat, Nat.one_mul, ← hfresh]
      have hp : (out ++ pushed side d.heap.fresh es).Perm ((out ++ es) ++ [d.heap.fresh]) := by
        rw [List.append_assoc]
        exact (pushed_perm side d.heap.fresh es).append_left out
      exact hp.trans (hperm.append_right _)
    · exact (congrArg Heap.grants hheap).trans hgrants
    · exact hself'.trans hself
    · exact (congrArg Heap.freed hheap).trans hfreed
  | pop side =>
    rw [List.countP_cons_of_neg (by simp [Op.isPush])] at hmade
    obtain ⟨r, d', es', hd, hheap, hself', hr', -, -, hspec, hp⟩ := hr.pop side
    obtain ⟨ha, hl⟩ := Prod.mk.inj hspec
    refine ⟨r, d', hd, ha, ⟨es', made, hr', hl.symm, ?_, hmade, (hp out).trans hperm⟩, ?_, ?_, ?_⟩
    · rw [hheap, hfresh]
    · exact (congrArg Heap.grants hheap).trans hgrants
    · exact hself'.trans hself
    · exact (congrArg Heap.freed hheap).trans hfreed
  | get side =>
    rw [List.countP_cons_of_neg (by simp [Op.isPush])] at hmade
    obtain ⟨r, hd, hspec⟩ := hr.get side
    obtain ⟨ha, hl⟩ := Prod.mk.inj hspec
    exact ⟨r, d, hd, ha, ⟨es, made, hr, hl.symm, hfresh, hmade, hperm⟩, hgrants, hself, hfreed⟩
  | isempty =>
    rw [List.countP_cons_of_neg (by simp [Op.isPush])] at hmade
    refine ⟨_, d, rfl, ?_, ⟨es, made, hr, rfl, hfresh, hmade, hperm⟩, hgrants, hself, hfreed⟩
    simp [listStep, hr.isempty]

end Simulates

theorem defineDeq_rep {h : Heap} (hb : h.Balanced) (raw : Raw) :
    ∃ d, defineDeq h raw = some d ∧ d.heap = h ∧ d.self = none ∧ d.size = 0 ∧ Rep d [] := by
  let d : Deq := ⟨h, none, raw.links, raw.data, 0⟩
  have hhead : d.ok .head = true := rfl
  obtain ⟨links, hinit, hring⟩ := kInitListHead_isRing (L := raw.links) hhead
  refine ⟨{ d with links := links }, ?_, rfl, rfl, rfl, hring, by simp, by simp [d], by simp, hb,
    rfl⟩
  simp only [defineDeq]
  rw [hinit]
  rfl

/-- From an empty ring and a zero counter, every run is answered like the abstract list,
ends with the counter and both directions of the ring in agreement, and has handed out
every pushed entry once by a pop or keeps it for `deq_free`, whose loop frees it once. -/
theorem run_refines_list (d : Deq) (hring : IsRing d.links .head []) (hsize : d.size = 0)
    (hself : ∀ b ∈ d.self, d.heap.live b = true) (hb : d.heap.Balanced)
    (hg : ∀ i, d.heap.grants i sizeofDeqEntry = true) (ops : List Op)
    (hops : ops.countP Op.isPush < 2 ^ 31) :
    ∃ rs d' es, run step d ops = some (rs, d') ∧
      rs.map Prod.fst = (runSpec listStep [] ops).1 ∧
      es.map d'.data = (runSpec listStep [] ops).2 ∧
      d'.size.toInt = es.length ∧
      ringForward d' = some (es.map .node) ∧
      ringBackward d' = some (es.map .node).reverse ∧
      (popped ops rs ++ es).Perm (List.range' d.heap.fresh (ops.countP Op.isPush)) ∧
      ∃ h, kListForEachEntrySafe loadNextIn freeItem .head (d'.heap.fresh + 1) d' =
          some { d' with heap := h } ∧
        h.freed = es.reverse.map Block.own ++ d.heap.freed ∧
        ∀ self ∈ d.self, deqFree d' = some (h.release self) := by
  have hrep : Rep d [] := ⟨hring, by simp, hself, by simp, hb, by simp [hsize]⟩
  have hstart : Simulates d (ops.countP Op.isPush) d [] [] ops :=
    ⟨⟨[], 0, hrep, rfl, rfl, by simp, by simp⟩, rfl, rfl, rfl⟩
  obtain ⟨rs, d', hrun, hans, -, hend⟩ := run_simulates listStep Prod.fst poppedBy
    (fun _ _ _ _ _ hs => hs.next hg hops) hstart
  obtain ⟨⟨es, made, hr, hl, -, hmade, hperm⟩, -, hself', hfreed⟩ := hend
  have hmade' : made = ops.countP Op.isPush := by simpa using hmade
  obtain ⟨h, hloop, hledger, hlive⟩ := hr.freeEntries
  refine ⟨rs, d', es, hrun, hans, hl.symm, hr.count, hr.ring_walks.1, hr.ring_walks.2, ?_, h,
    hloop, hledger.trans (by rw [hfreed]), fun self hmem => ?_⟩
  · exact hmade' ▸ hperm
  · have hmem' : self ∈ d'.self := hself' ▸ hmem
    simp [deqFree, hloop, Option.mem_def.mp hmem', Heap.free_live (hlive self hmem')]

def freshDeq : Deq :=
  ⟨(Heap.start fun _ _ => true).grant sizeofDeq, some 0,
    ⟨fun _ => .addr .head, fun _ => .addr .head⟩, fun _ => 0, 0⟩

theorem freshDeq_refines_list : ∃ rs d' es,
    run step freshDeq [.push .tail 5, .push .head 6, .pop .tail] = some (rs, d') ∧
      rs.map Prod.fst = [.done, .done, .data 5] ∧
      es.map d'.data = [6] ∧
      d'.size.toInt = es.length ∧
      ringForward d' = some (es.map .node) ∧
      ringBackward d' = some (es.map .node).reverse ∧
      (popped [.push .tail 5, .push .head 6, .pop .tail] rs ++ es).Perm [1, 2] ∧
      ∃ h, deqFree d' = some h ∧ h.freed = .own 0 :: es.reverse.map Block.own ++ [] := by
  obtain ⟨rs, d', es, hrun, hanswers, hdata, hsize, hforward, hbackward, hperm, h, -, hfreed,
      hfree⟩ := run_refines_list freshDeq (IsRing.nil_iff.mpr ⟨rfl, rfl⟩) rfl
    (fun b hb => by obtain rfl := Option.some.inj hb; rfl) ((Heap.Balanced.start _).grant _)
    (fun _ => rfl) [.push .tail 5, .push .head 6, .pop .tail] (by decide)
  exact ⟨rs, d', es, hrun, hanswers, hdata, hsize, hforward, hbackward, hperm, _, hfree 0 rfl,
    congrArg (Block.own 0 :: ·) hfreed⟩

/-- The counter is trustworthy: it counts the ring, it tells an empty ring, and no pop
mistakes the ring head for an entry. -/
structure Sound (d : Deq) : Prop where
  counted : ∃ xs, ringForward d = some xs ∧ d.size.toInt = xs.length
  isempty_iff : deqIsempty d = true ↔ ringForward d = some []
  pop_entry : ∀ side r d', step d (.pop side) = some (r, d') → r.2 ≠ .addr .head

theorem Rep.sound {d : Deq} {es : List ℕ} (hr : Rep d es) : Sound d := by
  refine ⟨⟨_, hr.ring_walks.1, by simpa using hr.count⟩, ?_, fun side r d' hs => ?_⟩
  · rw [hr.isempty, hr.ring_walks.1]
    cases es <;> simp
  · obtain ⟨r', d₁, -, hd, -, -, -, -, hne, -⟩ := hr.pop side
    obtain ⟨rfl, -⟩ := Prod.mk.inj (Option.some.inj (hd.symm.trans hs))
    exact hne

def held (n : ℕ) : Op → ℕ
  | .push _ _ => n + 1
  | .pop _ => n - 1
  | _ => n

theorem Rep.step_cases {d : Deq} {es : List ℕ} (hr : Rep d es)
    (hg : ∀ i, d.heap.grants i sizeofDeqEntry = true) (o : Op) :
    (2 ^ 31 ≤ held es.length o ∧ step d o = none) ∨
    (held es.length o < 2 ^ 31 ∧ ∃ r d' es', step d o = some (r, d') ∧ Rep d' es' ∧
      es'.length = held es.length o ∧ d'.heap.grants = d.heap.grants) := by
  have hlt := hr.count_lt
  cases o with
  | push side x =>
    by_cases hmax : es.length + 1 < 2 ^ 31
    · obtain ⟨r, d', hd, hheap, -, hr', -⟩ := hr.push_step side x hmax (hg _)
      refine Or.inr ⟨hmax, r, d', _, hd, hr', ?_, by rw [hheap]; rfl⟩
      simpa [held] using (pushed_perm side d.heap.fresh es).length_eq
    · refine Or.inl ⟨by simpa [held] using hmax, ?_⟩
      simp [step_push, deqPush, intIncr_of_not_lt hr.count hmax]
  | pop side =>
    obtain ⟨r, d', es', hd, hheap, -, hr', hlen, -⟩ := hr.pop side
    have hle : held es.length (.pop side) < 2 ^ 31 := by
      simp only [held]
      omega
    exact Or.inr ⟨hle, r, d', es', hd, hr', hlen, congrArg Heap.grants hheap⟩
  | get side =>
    obtain ⟨r, hd, -⟩ := hr.get side
    exact Or.inr ⟨hlt, r, d, es, hd, hr, rfl, rfl⟩
  | isempty => exact Or.inr ⟨hlt, _, d, es, rfl, hr, rfl, rfl⟩

theorem Rep.always_sound_iff {d : Deq} {es : List ℕ} (hr : Rep d es)
    (hg : ∀ i, d.heap.grants i sizeofDeqEntry = true) (ops : List Op) :
    Always step Sound d ops ↔ ∀ p, p <+: ops → p.foldl held es.length < 2 ^ 31 := by
  induction ops generalizing d es with
  | nil =>
    refine ⟨fun _ p hp => ?_, fun _ => hr.sound⟩
    rw [List.prefix_nil.mp hp]
    exact hr.count_lt
  | cons o os ih =>
    rcases hr.step_cases hg o with ⟨hover, hnone⟩ | ⟨hlt, r, d', es', hs, hr', hlen, hgr⟩
    · refine ⟨fun halways => ?_, fun hp => ?_⟩
      · obtain ⟨-, r, d', hs, -⟩ := halways
        rw [hnone] at hs
        cases hs
      · have hone := hp [o] (by simp)
        simp only [List.foldl_cons, List.foldl_nil] at hone
        omega
    · rw [always_cons hs, and_iff_right hr.sound, ih hr' (hgr ▸ hg), hlen]
      refine ⟨fun hp p hpo => ?_,
        fun hp p hpo => hp (o :: p) (List.cons_prefix_cons.mpr ⟨rfl, hpo⟩)⟩
      rcases List.prefix_cons_iff.mp hpo with rfl | ⟨q, rfl, hq⟩
      · exact hr.count_lt
      · exact hp q hq

theorem dequeCreate_ok {h : Heap} {raw : Raw} {d : Deq} (hb : h.Balanced)
    (hd : dequeCreate h raw = some (.ok d)) : d.heap = h.grant sizeofDeq ∧ d.size = raw.size ∧
      (∀ b ∈ d.self, d.heap.live b = true) ∧ d.heap.Balanced ∧ IsRing d.links .head [] := by
  cases hg : h.grants h.calls sizeofDeq with
  | false => simp [dequeCreate, Heap.malloc_deny hg] at hd
  | true =>
    let d₁ : Deq := ⟨h.grant sizeofDeq, some h.fresh, raw.links, raw.data, raw.size⟩
    have hself : d₁.ok .head = true := by simp [Deq.ok, d₁]
    obtain ⟨L, hL, hring⟩ := kInitListHead_isRing (L := raw.links) hself
    have hcreate : dequeCreate h raw = some (.ok { d₁ with links := L }) := by
      simp only [dequeCreate, Heap.malloc_grant hg]
      change (kInitListHead d₁.ok raw.links _).bind _ = _
      rw [hL]
      rfl
    obtain rfl := Except.ok.inj (Option.some.inj (hcreate.symm.trans hd))
    exact ⟨rfl, rfl, by simp [d₁], hb.grant _, hring⟩

/-- A created deque stays sound through a run exactly when the block it was given held
zero where the counter lies, and the run never holds `2 ^ 31` entries. -/
theorem dequeCreate_always_sound_iff (h : Heap) (raw : Raw) (d : Deq) (hb : h.Balanced)
    (hg : ∀ i, h.grants i sizeofDeqEntry = true) (hd : dequeCreate h raw = some (.ok d))
    (ops : List Op) :
    Always step Sound d ops ↔
      raw.size = 0 ∧ ∀ p, p <+: ops → p.foldl held 0 < 2 ^ 31 := by
  obtain ⟨hheap, hsize, hself, hbal, hring⟩ := dequeCreate_ok hb hd
  by_cases hz : raw.size = 0
  · have hrep : Rep d [] := ⟨hring, by simp, hself, by simp, hbal, by simp [hsize, hz]⟩
    rw [hrep.always_sound_iff (fun i => by rw [hheap]; exact hg i) ops]
    simp [hz]
  · refine ⟨fun halways => ?_, fun hc => absurd hc.1 hz⟩
    have hsound : Sound d := by
      cases ops with
      | nil => exact halways
      | cons o os => exact halways.1
    have hok : ∀ x ∈ [Loc.head], d.ok x = true := fun x hx => by
      rw [List.mem_singleton.mp hx]
      exact Deq.ok_head.mpr hself
    have hempty : ringForward d = some [] := (kListForEach_isRing hring hok (by simp)).1
    have hzero := hsound.isempty_iff.mpr hempty
    simp [deqIsempty, hsize, hz] at hzero

def zeroRaw : Raw := ⟨⟨fun _ => .null, fun _ => .null⟩, fun _ => 0, 0⟩

theorem dequeCreate_zeroed_sound : ∃ d,
    dequeCreate (Heap.start fun _ _ => true) zeroRaw = some (.ok d) ∧
      Always step Sound d [.push .head 1, .pop .tail, .pop .tail] := by
  obtain ⟨d, hd⟩ : ∃ d, dequeCreate (Heap.start fun _ _ => true) zeroRaw = some (.ok d) :=
    ⟨_, rfl⟩
  refine ⟨d, hd, (dequeCreate_always_sound_iff _ zeroRaw d (Heap.Balanced.start _)
    (fun _ => rfl) hd _).mpr ⟨rfl, fun p hp => ?_⟩⟩
  have hmem := (List.mem_inits _ _).mpr hp
  simp only [List.inits, List.map_cons, List.map_nil, List.mem_cons, List.not_mem_nil,
    or_false] at hmem
  rcases hmem with rfl | rfl | rfl | rfl <;> decide

def dirtyRaw : Raw := ⟨⟨fun _ => .null, fun _ => .null⟩, fun _ => 0, 1⟩

theorem dequeCreate_dirty_pop : ∃ d d₁ d₂ d₃,
    dequeCreate (Heap.start fun _ _ => true) dirtyRaw = some (.ok d) ∧
    step d (.push .tail 7) = some ((.done, .null), d₁) ∧
    d₁.size = 2 ∧ ringForward d₁ = some [.node 1] ∧ ¬ Sound d₁ ∧
    step d₁ (.pop .tail) = some ((.data 7, .addr (.node 1)), d₂) ∧
    step d₂ (.pop .tail) = some ((.outside, .addr .head), d₃) := by
  refine ⟨_, _, _, _, rfl, rfl, rfl, rfl, ?_, rfl, rfl⟩
  intro hs
  obtain ⟨xs, hxs, hc⟩ := hs.counted
  obtain rfl : [Loc.node 1] = xs := Option.some.inj hxs
  exact absurd hc (by decide)

def countAndAlloc (d : Deq) : Option (Ptr (Loc ℕ) × Deq) := do
  let size ← intIncr d.size
  match d.heap.malloc sizeofDeqEntry with
  | (none, h) => return (.null, { d with heap := h, size := size })
  | (some deqItem, h) => return (.addr (.node deqItem), { d with heap := h, size := size })

def storeData (d : Deq) (data : ℕ) : Ptr (Loc ℕ) → Option Deq
  | .addr (.node e) =>
    if d.heap.live e then some { d with data := Function.update d.data e data } else none
  | _ => none

def linkItem (d : Deq) (pushTailFlag : Bool) (deqItem : Ptr (Loc ℕ)) : Option Deq := do
  let links ← if pushTailFlag then kListAddTail d.ok d.links deqItem (.addr .head)
    else kListAdd d.ok d.links deqItem (.addr .head)
  return { d with links := links }

theorem deqPush_eq (d : Deq) (pushTailFlag : Bool) (data : ℕ) :
    deqPush d pushTailFlag data = (countAndAlloc d).bind fun r =>
      (storeData r.2 data r.1).bind fun d => linkItem d pushTailFlag r.1 := by
  cases hsize : intIncr d.size with
  | none => simp [deqPush, countAndAlloc, hsize]
  | some size =>
    cases hg : d.heap.grants d.heap.calls sizeofDeqEntry with
    | false => simp [deqPush, countAndAlloc, hsize, Heap.malloc_deny hg, storeData]
    | true =>
      have hlive : (d.heap.grant sizeofDeqEntry).live d.heap.fresh = true := by simp
      simp only [deqPush, countAndAlloc, hsize, Heap.malloc_grant hg, storeData, hlive, if_true,
        Option.pure_def, Option.bind_eq_bind, Option.bind_some]
      rfl

def PushLeaves (d : Deq) (pushTailFlag : Bool) (data : ℕ) : Prop :=
  ∃ d', deqPush d pushTailFlag data = some d' ∧ d'.size = d.size ∧
    ringForward d' = ringForward d ∧ ringBackward d' = ringBackward d ∧ Sound d'

theorem Rep.countAndAlloc_denied {d : Deq} {es : List ℕ} (hr : Rep d es)
    (hg : d.heap.grants d.heap.calls sizeofDeqEntry = false) {deqItem : Ptr (Loc ℕ)} {d₁ : Deq}
    (hd : countAndAlloc d = some (deqItem, d₁)) :
    deqItem = .null ∧ d₁.size.toInt = (es.length + 1 : ℕ) ∧ ringForward d₁ = ringForward d ∧
      ¬ Sound d₁ ∧ ∀ data, storeData d₁ data deqItem = none := by
  have hfit : es.length + 1 < 2 ^ 31 := by
    by_contra hover
    simp [countAndAlloc, intIncr_of_not_lt hr.count hover] at hd
  obtain ⟨m, hm, hcount⟩ := intIncr_of_lt hr.count hfit
  obtain ⟨rfl, rfl⟩ : .null = deqItem ∧ { d with heap := d.heap.deny, size := m } = d₁ := by
    simpa [countAndAlloc, hm, Heap.malloc_deny hg] using hd
  refine ⟨rfl, hcount, rfl, fun hsound => ?_, fun _ => rfl⟩
  obtain ⟨xs, hxs, hlen⟩ := hsound.counted
  obtain rfl : es.map Loc.node = xs := Option.some.inj (hr.ring_walks.1.symm.trans hxs)
  rw [hcount, List.length_map] at hlen
  omega

/-- No push whose entry is denied leaves the deque as it was. -/
theorem deqPush_denied {d : Deq} {es : List ℕ} (hr : Rep d es)
    (hg : d.heap.grants d.heap.calls sizeofDeqEntry = false) (pushTailFlag : Bool) (data : ℕ) :
    ¬ PushLeaves d pushTailFlag data := by
  rintro ⟨d', hpush, -⟩
  rw [deqPush_eq] at hpush
  cases hd : countAndAlloc d with
  | none => simp [hd] at hpush
  | some r =>
    obtain ⟨-, -, -, -, hstore⟩ := hr.countAndAlloc_denied hg hd
    simp [hd, hstore data] at hpush

theorem deqPush_denied_second : ∃ d₀ d,
    dequeCreate (Heap.start fun i _ => i != 2) zeroRaw = some (.ok d₀) ∧
    deqPush d₀ true 7 = some d ∧ ringForward d = some [.node 1] ∧ ¬ PushLeaves d false 8 := by
  obtain ⟨d₀, hd₀⟩ : ∃ d₀, dequeCreate (Heap.start fun i _ => i != 2) zeroRaw = some (.ok d₀) :=
    ⟨_, rfl⟩
  obtain ⟨hheap, hsize, hself, hbal, hring⟩ := dequeCreate_ok (Heap.Balanced.start _) hd₀
  have hrep : Rep d₀ [] := ⟨hring, by simp, hself, by simp, hbal, by rw [hsize]; rfl⟩
  obtain ⟨d, hd, hheap', -, -, hrep'⟩ :=
    hrep.push true 7 (by decide) (by rw [hheap]; rfl)
  have hg : d.heap.grants d.heap.calls sizeofDeqEntry = false := by
    rw [hheap', hheap]
    rfl
  have hfirst : d₀.heap.fresh = 1 := by
    rw [hheap]
    rfl
  rw [hfirst] at hrep'
  exact ⟨d₀, d, hd₀, hd, hrep'.ring_walks.1, deqPush_denied hrep' hg false 8⟩

/-- The first push on a created deque, with its entry denied. -/
theorem deqPush_denied_first : ∃ d,
    dequeCreate (Heap.start fun i _ => i == 0) zeroRaw = some (.ok d) ∧
    d.size = 0 ∧ ringForward d = some [] ∧ Sound d ∧
    (∃ d₁, countAndAlloc d = some (.null, d₁) ∧ d₁.size = 1 ∧ ringForward d₁ = some []) ∧
    deqPush d true 7 = none ∧ ¬ PushLeaves d true 7 := by
  obtain ⟨d, hd⟩ : ∃ d, dequeCreate (Heap.start fun i _ => i == 0) zeroRaw = some (.ok d) :=
    ⟨_, rfl⟩
  obtain ⟨-, hsize, hself, hbal, hring⟩ := dequeCreate_ok (Heap.Balanced.start _) hd
  have hrep : Rep d [] := ⟨hring, by simp, hself, by simp, hbal, by rw [hsize]; rfl⟩
  have hnone : deqPush d true 7 = none := by
    cases hd
    rfl
  refine ⟨d, hd, hsize, hrep.ring_walks.1, hrep.sound, ?_, hnone, ?_⟩
  · cases hd
    exact ⟨_, rfl, rfl, rfl⟩
  · rintro ⟨d', hpush, -⟩
    rw [hnone] at hpush
    cases hpush

end KernelHashtable.Deque
