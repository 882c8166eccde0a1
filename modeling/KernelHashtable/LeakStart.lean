import KernelHashtable.LeakReport

/-!
# The leak detector from the start of the program

The head is set up by the first record. Until then its links are null, and every search and
every report follows them. A run is safe when `remove_mem_info` comes to its end in each of
its calls and when both loops of the report do so after it; what the report prints and what
`clear` passes to `free` are left aside.
-/

namespace KernelHashtable.Leak
open KList

def Op.searched : Op → Option ℕ
  | .xrealloc old _ _ _ _ => some old
  | .xfree memRef => some memRef
  | _ => none

def SafeStep (d : Detector) (op : Op) : Prop :=
  ∀ p, op.searched = some p → ∃ fuel d', removeLoop d p fuel (.addr .head) = some d'

def reportWalk (d : Detector) (fuel : ℕ) : Walk Unit :=
  Links.traverse (fun _ => d.ok) d.links.next .head (fun _ _ => some ()) fuel ()
    (d.links.next .head)

/-- `free` of a node, without effect where it has no meaning. -/
def letGo (h : Arena) (x : Loc ℕ) : Arena := (freeNode h x).getD h

def clearWalk (d : Detector) (fuel : ℕ) : Walk Arena :=
  Links.traverse (fun h => ({ d with heap := h } : Detector).ok) d.links.next .head
    (fun h x => some (letGo h x)) fuel d.heap (.addr .head)

def SafeReport (fopen : String → String → Bool) (d : Detector) : Prop :=
  (fopen outputFile "wt" = true → ∃ fuel, reportWalk d fuel = .ended ()) ∧
    ∃ fuel h, clearWalk d fuel = .ended h

/-- A run that the report follows. It goes on as long as its steps are defined. -/
def SafeRun (fopen : String → String → Bool) : Detector → List Op → Prop
  | d, [] => SafeReport fopen d
  | d, op :: ops => SafeStep d op ∧ ∀ r d', step d op = some (r, d') → SafeRun fopen d' ops

/-- Only null pointers and blocks that the program holds are released, and the requests of
other code are answered with blocks that it does not hold. -/
def Holds (held : ℕ → Bool) : Op → Prop
  | .xmalloc _ _ _ _ | .xcalloc _ _ _ _ _ => True
  | .xrealloc p _ _ _ _ | .xfree p | .otherFree p => p = 0 ∨ held p = true
  | .otherMalloc p _ => p = 0 ∨ held p = false

def gain (held : ℕ → Bool) (p : ℕ) : ℕ → Bool :=
  if p = 0 then held else Function.update held p true

def lose (held : ℕ → Bool) (p : ℕ) : ℕ → Bool := Function.update held p false

def heldStep (held : ℕ → Bool) : Op → ℕ → Bool
  | .xmalloc ptr _ _ _ | .xcalloc ptr _ _ _ _ | .otherMalloc ptr _ => gain held ptr
  | .xrealloc old ptr _ size _ =>
    if ptr = 0 ∧ size.toNat ≠ 0 then held else gain (lose held old) ptr
  | .xfree p | .otherFree p => lose held p

def HoldsRun : (ℕ → Bool) → List Op → Prop
  | _, [] => True
  | held, op :: ops => Holds held op ∧ HoldsRun (heldStep held op) ops

def BlockFirst (ops : List Op) : Prop :=
  ∃ before op after, ops = before ++ op :: after ∧ (op.Allocates ∧ op.answer ≠ 0) ∧
    ∀ o ∈ before, o.searched = none

section
variable {d : Detector} {nodes : List ℕ} {held : ℕ → Bool}

theorem reportWalk_of_reportLoop {fuel : ℕ} {r r' : Report}
    (h : reportLoop d fuel r (d.links.next .head) = some r') : reportWalk d fuel = .ended () := by
  rw [reportLoop_eq_traverse, Walk.result_eq_some] at h
  exact Links.traverse_map (fun _ : Report => ()) (fun _ _ hx => hx) (fun _ _ _ _ => rfl) h

theorem clearLoop_eq_traverse (d : Detector) (fuel : ℕ) (h : Arena) (curr : Ptr (Loc ℕ)) :
    clearLoop { d with heap := h } fuel curr =
      (Links.traverse (fun h => ({ d with heap := h } : Detector).ok) d.links.next .head freeNode
        fuel h curr).result.map fun h => { d with heap := h } := by
  induction fuel generalizing h curr with
  | zero => rfl
  | succ fuel ih =>
    rw [clearLoop, Links.traverse_result_succ]
    cases hx : curr.deref ({ d with heap := h } : Detector).ok with
    | none => simp [Links.loadNext, hx]
    | some x =>
      by_cases hn : d.links.next x = .addr .head
      · simp [Links.loadNext, hx, hn]
      · cases hfree : freeNode h x with
        | none => simp [Links.loadNext, hx, hn, hfree]
        | some h' => simp [Links.loadNext, hx, hn, hfree, ih]

theorem clearWalk_of_clear {d' : Detector} (h : clear d = some d') :
    ∃ fuel heap, clearWalk d fuel = .ended heap := by
  rw [clear, clearLoop_eq_traverse d _ d.heap, Option.map_eq_some_iff] at h
  obtain ⟨heap, hwalk, -⟩ := h
  refine ⟨_, heap, Links.traverse_map id (fun _ _ hx => hx) ?_ (Walk.result_eq_some.mp hwalk)⟩
  intro h x h' hfree
  rw [id, letGo, hfree]
  rfl

theorem safeReport_of_reportMemLeak {fopen : String → String → Bool} {r : Report} {d' : Detector}
    (h : reportMemLeak d fopen = some (r, d')) : SafeReport fopen d := by
  obtain ⟨r', hrep, hrest⟩ := Option.bind_eq_some_iff.mp h
  obtain ⟨d₁, hclear, -⟩ := Option.bind_eq_some_iff.mp hrest
  refine ⟨fun hopen => ?_, clearWalk_of_clear hclear⟩
  have hhead : d.links.loadNext d.ok (.addr .head) = some (d.links.next .head) :=
    Links.loadNext_addr _ d.ok_head
  simp only [leakReport, hhead, hopen, if_true, Option.bind_eq_bind, Option.bind_some] at hrep
  obtain ⟨r₀, -, hloop⟩ := Option.bind_eq_some_iff.mp hrep
  exact ⟨_, reportWalk_of_reportLoop hloop⟩

theorem Records.reportWalk_ended (hr : Records d nodes held) (hflag : d.memleakFlag = true) :
    ∃ fuel, reportWalk d fuel = .ended () := by
  have hlen : (nodes.map Loc.node).length < nodes.length + 1 := by simp
  refine ⟨nodes.length + 1, Walk.result_eq_some.mp ?_⟩
  rw [reportWalk, Links.traverse_ring (hr.isRing hflag) _ hr.ok () hlen]
  exact List.foldlM_pure

theorem letGo_live {h : Arena} {x : Loc ℕ} {c : ℕ} (hc : h.live c = true) (hne : x ≠ .node c) :
    (letGo h x).live c = true := by
  cases x with
  | head => exact hc
  | node a =>
    have hca : c ≠ a := fun e => hne (e ▸ rfl)
    rw [letGo, freeNode, Arena.free]
    split_ifs
    · exact hc
    · simp [hc, hca]
    · exact hc

theorem Records.clearWalk_ended (hr : Records d nodes held) (hflag : d.memleakFlag = true) :
    ∃ fuel h, clearWalk d fuel = .ended h := by
  have hring := hr.isRing hflag
  let I : List (Loc ℕ) → Arena → Prop := fun rest h =>
    rest.Nodup ∧ ∀ x ∈ rest, ({ d with heap := h } : Detector).ok x = true
  have hbody : ∀ x y rest h, I (x :: y :: rest) h →
      ∃ h', some (letGo h x) = some h' ∧ I (y :: rest) h' := by
    rintro x y rest h ⟨hnd, hok⟩
    obtain ⟨hx, hnd'⟩ := List.nodup_cons.mp hnd
    refine ⟨letGo h x, rfl, hnd', fun z hz => ?_⟩
    have hz' := hok z (List.mem_cons_of_mem x hz)
    cases z with
    | head => rfl
    | node c => exact letGo_live hz' fun e => hx (e ▸ hz)
  obtain ⟨h, hwalk, -⟩ := Links.traverse_chain (I := I) (fun x rest h hI => hI.2 x (by simp)) hbody
    (hring.chain.imp fun _ _ hab => hab.1) (List.nodup_cons.mp hring.nodup).1
    (s := d.heap) ⟨hring.nodup, hr.ok⟩ (Nat.lt_succ_self _)
  exact ⟨_, h, hwalk⟩

theorem clearWalk_null (hnull : d.links.next .head = .null) (fuel : ℕ) (h : Arena) :
    clearWalk d fuel ≠ .ended h :=
  Links.traverse_next_null hnull fuel d.heap h

theorem removeLoop_null (hnull : d.links.next .head = .null) (p fuel : ℕ) :
    removeLoop d p fuel (.addr .head) = none := by
  rw [removeLoop_eq_search]
  cases hw : searchRecord d p fuel .head with
  | ended r => exact absurd hw (Links.search_next_null hnull fuel r)
  | nullNext => rfl
  | stray => rfl
  | endless => rfl

end

namespace Records
variable {d d' : Detector} {nodes : List ℕ} {held : ℕ → Bool} {p ptr new n r : ℕ} {h : Arena}
  {size : UInt32} {site : Site}

theorem held_null (hr : Records d nodes held) : held 0 = false := by
  have hnull := hr.null
  rw [Bool.eq_false_iff, ne_eq, hr.live_iff, not_or] at hnull
  exact Bool.eq_false_iff.mpr hnull.2

theorem malloc (hr : Records d nodes held) (hm : d.heap.malloc p n = some h) :
    Records { d with heap := h } nodes (gain held p) := by
  rcases Arena.malloc_cases hm with ⟨hp, rfl⟩ | ⟨hp, hl, rfl⟩
  · rwa [gain, if_pos hp]
  · rw [gain, if_neg hp]
    exact hr.hold hp hl n

theorem lose (hr : Records d nodes held) (hp : p = 0 ∨ held p = true) :
    ∃ h, d.heap.free p = some h ∧ Records { d with heap := h } nodes (Leak.lose held p) := by
  rcases hp with rfl | hp
  · have hsame : Leak.lose held 0 = held := by
      rw [Leak.lose, ← hr.held_null, Function.update_eq_self]
    exact ⟨d.heap, rfl, by rwa [hsame]⟩
  · exact ⟨_, hr.free hp⟩

theorem added (hr : Records d nodes held) (ha : Leak.addMemInfo d new p size site = some d') :
    Records d' (nodes ++ [new]) held ∧ d'.memleakFlag = true := by
  by_cases hnew0 : new = 0
  · rw [hnew0, addMemInfo_denied] at ha
    cases ha
  · cases hl : d.heap.live new with
    | true => simp [Leak.addMemInfo, add, Arena.malloc, hnew0, hl] at ha
    | false =>
      obtain ⟨links, hadd, hr'⟩ := hr.addMemInfo hnew0 hl p size (addMemInfo_some ha).2.1
      obtain rfl := Option.some.inj (hadd.symm.trans ha)
      exact ⟨hr', rfl⟩

theorem request (hr : Records d nodes held)
    (hs : Leak.request d ptr new n size site = some (r, d')) :
    (∃ nodes', Records d' nodes' (gain held ptr)) ∧
      (d.memleakFlag = true ∨ ptr ≠ 0 → d'.memleakFlag = true) := by
  obtain ⟨-, h, hm, ⟨hptr, rfl⟩ | ⟨-, hadd⟩⟩ := request_cases hs
  · exact ⟨⟨nodes, hr.malloc hm⟩, fun hflag => hflag.resolve_right (by simpa using hptr)⟩
  · obtain ⟨hr', hflag'⟩ := (hr.malloc hm).added hadd
    exact ⟨⟨_, hr'⟩, fun _ => hflag'⟩

theorem realloc (hr : Records d nodes held) {old : ℕ} (hold : old = 0 ∨ held old = true)
    (hm : d.heap.realloc old ptr n = some h) :
    Records { d with heap := h } nodes
      (if ptr = 0 ∧ n ≠ 0 then held else gain (Leak.lose held old) ptr) := by
  rw [Arena.realloc] at hm
  by_cases hfail : ptr = 0 ∧ n ≠ 0
  · rw [if_pos hfail, if_pos] at hm
    · obtain rfl := Option.some.inj hm
      rwa [if_pos hfail]
    · exact hold.imp_right fun h => (hr.live_iff old).mpr (Or.inr h)
  · rw [if_neg hfail] at hm ⊢
    obtain ⟨h₁, hfree, hr₁⟩ := hr.lose hold
    rw [hfree] at hm
    exact hr₁.malloc hm

theorem realloc_denied (hr : Records d nodes held) {old : ℕ} (hold : old = 0 ∨ held old = true)
    (n : ℕ) : ∃ h held', d.heap.realloc old 0 n = some h ∧
      Records { d with heap := h } nodes held' ∧ ∀ a, held a = false → held' a = false := by
  by_cases hn : n = 0
  · obtain ⟨h, hfree, hr'⟩ := hr.lose hold
    refine ⟨h, _, by simp [Arena.realloc, hn, hfree, Arena.malloc], hr', fun a ha => ?_⟩
    by_cases hao : a = old
    · simp [Leak.lose, hao]
    · simp [Leak.lose, hao, ha]
  · have hlive : old = 0 ∨ d.heap.live old = true :=
      hold.imp_right fun h => (hr.live_iff old).mpr (Or.inr h)
    exact ⟨d.heap, held, by rw [Arena.realloc, if_pos ⟨rfl, hn⟩, if_pos hlive], hr,
      fun _ ha => ha⟩

theorem step (hr : Records d nodes held) {op : Op}
    (hready : d.memleakFlag = true ∨ op.searched = none) (hh : Holds held op)
    (hs : Leak.step d op = some (r, d')) :
    (∃ nodes', Records d' nodes' (heldStep held op)) ∧
      (d.memleakFlag = true ∨ op.Allocates ∧ op.answer ≠ 0 → d'.memleakFlag = true) := by
  cases op with
  | xmalloc ptr new size site =>
    rw [Leak.step, xmalloc_eq_request] at hs
    obtain ⟨hr', hflag⟩ := hr.request hs
    exact ⟨hr', fun h => hflag (h.imp_right fun h => h.2)⟩
  | xcalloc ptr new elements size site =>
    rw [Leak.step, xcalloc_eq_request] at hs
    obtain ⟨hr', hflag⟩ := hr.request hs
    exact ⟨hr', fun h => hflag (h.imp_right fun h => h.2)⟩
  | xrealloc old ptr new size site =>
    have hflag := hready.resolve_right (by simp [Op.searched])
    obtain ⟨d₁, hrem, hr₁, -, -⟩ := hr.removeMemInfo hflag old
    simp only [Leak.step, xrealloc, hrem, Option.bind_eq_bind, Option.bind_some] at hs
    obtain ⟨h, hm, hrest⟩ := Option.bind_eq_some_iff.mp hs
    obtain ⟨d₂, hadd, hret⟩ := Option.bind_eq_some_iff.mp hrest
    obtain rfl : d₂ = d' := (Prod.mk.inj (Option.some.inj hret)).2
    obtain ⟨hr', hflag'⟩ := (hr₁.realloc hh hm).added hadd
    exact ⟨⟨_, hr'⟩, fun _ => hflag'⟩
  | xfree p =>
    have hflag := hready.resolve_right (by simp [Op.searched])
    obtain ⟨d₁, hrem, hr₁, -, hflag₁⟩ := hr.removeMemInfo hflag p
    obtain ⟨h, hfree, hr'⟩ := hr₁.lose hh
    simp only [Leak.step, xfree, hrem, hfree, Option.bind_eq_bind, Option.bind_some,
      Option.map_some, Option.pure_def] at hs
    obtain rfl := (Prod.mk.inj (Option.some.inj hs)).2
    exact ⟨⟨_, hr'⟩, fun _ => hflag₁⟩
  | otherMalloc ptr n =>
    obtain ⟨h, hm, hret⟩ := Option.map_eq_some_iff.mp hs
    obtain rfl := (Prod.mk.inj hret).2
    exact ⟨⟨_, hr.malloc hm⟩, fun h => h.resolve_right fun h => h.1⟩
  | otherFree ptr =>
    obtain ⟨h, hfree, hr'⟩ := hr.lose hh
    obtain ⟨h', hfree', hret⟩ := Option.map_eq_some_iff.mp hs
    obtain rfl := Option.some.inj (hfree.symm.trans hfree')
    obtain rfl := (Prod.mk.inj hret).2
    exact ⟨⟨_, hr'⟩, fun h => h.resolve_right fun h => h.1⟩

end Records

section
variable {d : Detector} {nodes : List ℕ} {held : ℕ → Bool} {fopen : String → String → Bool}
  {op : Op} {ops : List Op}

theorem Op.Allocates.searched_eq_none (hop : op.Allocates) : op.searched = none := by
  cases op with
  | xmalloc ptr new size site => rfl
  | xcalloc ptr new elements size site => rfl
  | xrealloc old ptr new size site => exact hop.elim
  | xfree p => exact hop.elim
  | otherMalloc ptr n => rfl
  | otherFree ptr => rfl

theorem safeStep_of_searched (hop : op.searched = none) : SafeStep d op := by
  intro p hp
  rw [hop] at hp
  cases hp

theorem Records.safeStep (hr : Records d nodes held) (hflag : d.memleakFlag = true) (op : Op) :
    SafeStep d op := by
  intro p _
  obtain ⟨d', hrem, -⟩ := hr.removeMemInfo hflag p
  exact ⟨_, d', hrem⟩

theorem Records.safeRun (hr : Records d nodes held) (hflag : d.memleakFlag = true)
    (hh : HoldsRun held ops) : SafeRun fopen d ops := by
  induction ops generalizing d nodes held with
  | nil => exact ⟨fun _ => hr.reportWalk_ended hflag, hr.clearWalk_ended hflag⟩
  | cons op ops ih =>
    refine ⟨hr.safeStep hflag op, fun r d' hs => ?_⟩
    obtain ⟨⟨nodes', hr'⟩, hflag'⟩ := hr.step (Or.inl hflag) hh.1 hs
    exact ih hr' (hflag' (Or.inl hflag)) hh.2

theorem not_blockFirst_nil : ¬ BlockFirst [] := by
  rintro ⟨before, op, after, hsplit, -⟩
  simpa using congrArg List.length hsplit

theorem blockFirst_cons : BlockFirst (op :: ops) ↔
    (op.Allocates ∧ op.answer ≠ 0) ∨ op.searched = none ∧ BlockFirst ops := by
  constructor
  · rintro ⟨before, op', after, hsplit, hop', hbefore⟩
    cases before with
    | nil =>
      obtain ⟨rfl, -⟩ := List.cons.inj hsplit
      exact Or.inl hop'
    | cons o before =>
      obtain ⟨rfl, rfl⟩ := List.cons.inj hsplit
      exact Or.inr ⟨hbefore op (by simp), before, op', after, rfl, hop',
        fun o ho => hbefore o (List.mem_cons_of_mem op ho)⟩
  · rintro (hop | ⟨hop, before, op', after, rfl, hop', hbefore⟩)
    · exact ⟨[], op, ops, rfl, hop, by simp⟩
    · refine ⟨op :: before, op', after, rfl, hop', fun o ho => ?_⟩
      rcases List.mem_cons.mp ho with rfl | ho
      · exact hop
      · exact hbefore o ho

theorem Records.idle (hr : Records d nodes held) (hflag : d.memleakFlag = false)
    (hop : op.searched = none) (hno : ¬ (op.Allocates ∧ op.answer ≠ 0)) (hh : Holds held op) :
    ∃ d', Leak.step d op = some (op.answer, d') ∧ d'.links = d.links ∧ d'.memleakFlag = false := by
  have hnodes : nodes = [] := by
    have hring := hr.ring
    rwa [hflag, if_neg (by simp)] at hring
  cases op with
  | xmalloc ptr new size site =>
    obtain rfl : ptr = 0 := by simpa [Op.Allocates, Op.answer] using hno
    exact ⟨d, rfl, rfl, hflag⟩
  | xcalloc ptr new elements size site =>
    obtain rfl : ptr = 0 := by simpa [Op.Allocates, Op.answer] using hno
    exact ⟨d, rfl, rfl, hflag⟩
  | xrealloc old ptr new size site => cases hop
  | xfree p => cases hop
  | otherMalloc ptr n =>
    by_cases hptr : ptr = 0
    · exact ⟨d, by simp [Leak.step, Arena.malloc, hptr, Op.answer], rfl, hflag⟩
    · have hl : d.heap.live ptr = false := by
        rw [Bool.eq_false_iff, ne_eq, hr.live_iff, hnodes, hh.resolve_left hptr]
        simp
      exact ⟨{ d with heap := d.heap.hold ptr n },
        by simp [Leak.step, Arena.malloc_ok hptr hl, Op.answer], rfl, hflag⟩
  | otherFree ptr =>
    obtain ⟨h, hfree, -⟩ := hr.lose hh
    exact ⟨{ d with heap := h }, by simp [Leak.step, hfree, Op.answer], rfl, hflag⟩

theorem Records.safeRun_iff (hr : Records d nodes held) (hflag : d.memleakFlag = false)
    (hnull : d.links.next .head = .null) (hh : HoldsRun held ops) :
    SafeRun fopen d ops ↔ BlockFirst ops := by
  induction ops generalizing d nodes held with
  | nil =>
    refine ⟨fun hsafe => ?_, fun h => absurd h not_blockFirst_nil⟩
    obtain ⟨fuel, h, hwalk⟩ := hsafe.2
    exact absurd hwalk (clearWalk_null hnull fuel h)
  | cons op ops ih =>
    rw [blockFirst_cons]
    by_cases hop : op.Allocates ∧ op.answer ≠ 0
    · have hsearched := hop.1.searched_eq_none
      refine ⟨fun _ => Or.inl hop, fun _ => ⟨safeStep_of_searched hsearched, fun r d' hs => ?_⟩⟩
      obtain ⟨⟨nodes', hr'⟩, hflag'⟩ := hr.step (Or.inr hsearched) hh.1 hs
      exact hr'.safeRun (hflag' (Or.inr hop)) hh.2
    · cases hsearched : op.searched with
      | some p =>
        refine ⟨fun hsafe => ?_, fun h => ?_⟩
        · obtain ⟨fuel, d', hloop⟩ := hsafe.1 p hsearched
          rw [removeLoop_null hnull] at hloop
          cases hloop
        · simp [hop] at h
      | none =>
        obtain ⟨d', hs, hlinks, hflag'⟩ := hr.idle hflag hsearched hop hh.1
        obtain ⟨⟨nodes', hr'⟩, -⟩ := hr.step (Or.inr hsearched) hh.1 hs
        have hrec := ih hr' hflag' (by rw [hlinks]; exact hnull) hh.2
        constructor
        · intro hsafe
          exact Or.inr ⟨rfl, hrec.mp (hsafe.2 _ d' hs)⟩
        · intro h
          refine ⟨safeStep_of_searched hsearched, fun r d'' hs' => ?_⟩
          obtain ⟨-, rfl⟩ := Prod.mk.inj (Option.some.inj (hs.symm.trans hs'))
          exact hrec.mpr (h.resolve_left hop).2

theorem start_records {heap : Arena} (hzero : heap.live 0 = false) (links : Links (Loc ℕ))
    (info : ℕ → MemInfo) : Records (start heap links info) [] heap.live := by
  refine ⟨rfl, fun a => ?_, by simp, hzero, Nat.zero_le _⟩
  simp [start]

/-- A run from the start of the program is safe exactly if it gets a block before it
searches, and before it reports. -/
theorem start_safeRun_iff {heap : Arena} (hzero : heap.live 0 = false) (links : Links (Loc ℕ))
    (info : ℕ → MemInfo) (hh : HoldsRun heap.live ops) :
    SafeRun fopen (start heap links info) ops ↔ BlockFirst ops :=
  (start_records hzero links info).safeRun_iff rfl (by simp [start]) hh

theorem start_safeRun_denied :
    SafeRun (fun _ _ => true) blankStart [.xcalloc 0 0 2 8 (.ones 1 0 1),
      .xmalloc 8 9 16 (.ones 1 0 2), .xrealloc 8 0 10 32 (.ones 1 0 3), .xfree 0,
      .xfree 8] ↔
    BlockFirst [.xcalloc 0 0 2 8 (.ones 1 0 1),
      .xmalloc 8 9 16 (.ones 1 0 2), .xrealloc 8 0 10 32 (.ones 1 0 3), .xfree 0,
      .xfree 8] := by
  refine start_safeRun_iff rfl ⟨fun _ => .poison 0, fun _ => .poison 0⟩ (fun _ => ⟨0, 0, [], 0⟩) ?_
  simp [HoldsRun, Holds, heldStep, gain, lose]

/-- `xfree (NULL)` as the first call follows the null link of the head, and so does a report
before any call. -/
theorem start_search_null :
    (∀ fuel, searchRecord blankStart 0 (fuel + 1) .head = .nullNext) ∧
      (∀ fopen, ¬ SafeRun fopen blankStart [.xfree 0]) ∧
      ∀ fopen, ¬ SafeRun fopen blankStart [] := by
  have hnull : blankStart.links.next .head = .null := rfl
  refine ⟨fun fuel => ?_, fun fopen hsafe => ?_, fun fopen hsafe => ?_⟩
  · simp [searchRecord, Links.search, hnull]
  · obtain ⟨fuel, d', hloop⟩ := hsafe.1 0 rfl
    rw [removeLoop_null hnull] at hloop
    cases hloop
  · obtain ⟨fuel, h, hwalk⟩ := hsafe.2
    exact clearWalk_null hnull fuel h hwalk

end
end KernelHashtable.Leak
