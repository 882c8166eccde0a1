import KernelHashtable.LeakRealloc
import KernelHashtable.LeakStart

/-!
# The report at the end of a program

What the records say is settled by the calls of the program and the answers of the allocator:
`noteAfter` is the effect of a call on the notes, whether its requests are granted or not. A
report writes all notes but the last; it is the end of the program unless there are none.
-/

namespace KernelHashtable.Leak
open KList

def struck (l : List MemInfo) (p : ℕ) : List MemInfo := l.eraseP fun m => decide (m.address = p)

/-- A reallocation strikes out the old note and adds one, whatever the request comes to. -/
def noteAfter (l : List MemInfo) : Op → List MemInfo
  | .xmalloc ptr _ size site => if ptr = 0 then l else l ++ [site.shown ptr size]
  | .xcalloc ptr _ elements size site =>
    if ptr = 0 then l else l ++ [site.shown ptr (elements * size)]
  | .xrealloc old ptr _ size site => struck l old ++ [site.shown ptr size]
  | .xfree memRef => struck l memRef
  | .otherMalloc _ _ | .otherFree _ => l

def reportText (opens : Bool) (l : List MemInfo) : Report :=
  if opens then ⟨written summaryTexts ++ l.flatMap fun m => written (recordTexts m),
    l.flatMap fun _ => ascii "HIT\n", []⟩
  else ⟨[], [], ["Open leak_detector_c infofile error"]⟩

inductive Act where
  | call (op : Op)
  | report

inductive Answer where
  | ptr (p : ℕ)
  | report (r : Report)

def actStep (fopen : String → String → Bool) (d : Detector) : Act → Option (Answer × Detector)
  | .call op => (step d op).map fun r => (.ptr r.1, r.2)
  | .report => (reportMemLeak d fopen).map fun r => (.report r.1, r.2)

def noteStep (opens : Bool) (l : List MemInfo) : Act → Option (Answer × List MemInfo)
  | .call op => some (.ptr op.answer, noteAfter l op)
  | .report => if l = [] then some (.report (reportText opens l), l) else none

def Act.op? : Act → Option Op
  | .call op => some op
  | .report => none

def calls (acts : List Act) : List Op := acts.filterMap Act.op?

structure Noted (d : Detector) (nodes : List ℕ) (held : ℕ → Bool) (l : List MemInfo) : Prop where
  records : Records d nodes held
  shown : nodes.map (fun a => (d.info a).shown) = l
  named : ∀ a ∈ nodes, (d.info a).Named

section
variable {d d' : Detector} {nodes : List ℕ} {held held' : ℕ → Bool} {l : List MemInfo}
  {fopen : String → String → Bool} {site : Site} {p ptr new n r : ℕ} {size : UInt32}

theorem recordTexts_shown (m : MemInfo) : recordTexts m.shown = recordTexts m := by
  simp only [recordTexts, MemInfo.shown, cString_of_not_mem (zero_not_mem_cString m.fileName)]

namespace Noted

theorem heap {h : Arena} (hn : Noted d nodes held l)
    (hr : Records { d with heap := h } nodes held') :
    Noted { d with heap := h } nodes held' l :=
  ⟨hr, hn.shown, hn.named⟩

theorem added (hn : Noted d nodes held l) (ha : addMemInfo d new p size site = some d') :
    Noted d' (nodes ++ [new]) held (l ++ [site.shown p size]) ∧ d'.memleakFlag = true := by
  obtain ⟨hr', hflag⟩ := hn.records.added ha
  obtain ⟨hlive, hends, -, hinfo⟩ := addMemInfo_some ha
  have hnote := record_shown hends (d.info new) p size
  have hnamed : (site.record (d.info new) p size).Named := (record_named hends _ p size).2
  have hold : ∀ a ∈ nodes, d'.info a = d.info a := by
    intro a hmem
    have hne : a ≠ new := by
      rintro rfl
      rw [hn.records.live hmem] at hlive
      cases hlive
    rw [hinfo, Function.update_of_ne hne]
  have hnew : d'.info new = site.record (d.info new) p size := by
    rw [hinfo, Function.update_self]
  refine ⟨⟨hr', ?_, fun a ha => ?_⟩, hflag⟩
  · rw [List.map_append, List.map_singleton, hnew, hnote, ← hn.shown]
    refine congrArg (· ++ _) (List.map_congr_left fun a ha => ?_)
    rw [hold a ha]
  · rcases List.mem_append.mp ha with ha | ha
    · rw [hold a ha]
      exact hn.named a ha
    · rw [List.mem_singleton.mp ha, hnew]
      exact hnamed

theorem removed (hn : Noted d nodes held l) (hflag : d.memleakFlag = true) (p : ℕ) :
    ∃ d' nodes', removeMemInfo d p = some d' ∧ Noted d' nodes' held (struck l p) ∧
      d'.memleakFlag = true := by
  obtain ⟨d', hrem, hr', hinfo, hflag'⟩ := hn.records.removeMemInfo hflag p
  refine ⟨d', _, hrem, ⟨hr', ?_, fun a ha => ?_⟩, hflag'⟩
  · rw [hinfo, struck, ← hn.shown, List.eraseP_map]
    rfl
  · rw [hinfo]
    exact hn.named a (List.mem_of_mem_eraseP ha)

end Noted

def HeadSet (d : Detector) : Prop := d.memleakFlag = true ∨ d.links.next .head = .null

theorem HeadSet.of_remove (hh : HeadSet d) (hrem : removeMemInfo d p = some d') :
    d.memleakFlag = true := by
  refine hh.resolve_right fun hnull => ?_
  rw [removeMemInfo, removeLoop_null hnull] at hrem
  cases hrem

theorem Noted.request (hn : Noted d nodes held l) (hset : HeadSet d)
    (hs : Leak.request d ptr new n size site = some (r, d')) : r = ptr ∧
      (∃ nodes', Noted d' nodes' (gain held ptr)
        (if ptr = 0 then l else l ++ [site.shown ptr size])) ∧
      HeadSet d' ∧ (d.memleakFlag = true ∨ ptr ≠ 0 → d'.memleakFlag = true) := by
  obtain ⟨hret, h, hm, ⟨hptr, rfl⟩ | ⟨hptr, hadd⟩⟩ := request_cases hs
  · rw [if_pos hptr]
    exact ⟨hret, ⟨nodes, hn.heap (hn.records.malloc hm)⟩, hset,
      fun hflag => hflag.resolve_right fun h => h hptr⟩
  · obtain ⟨hn', hflag⟩ := (hn.heap (hn.records.malloc hm)).added hadd
    rw [if_neg hptr]
    exact ⟨hret, ⟨_, hn'⟩, Or.inl hflag, fun _ => hflag⟩

theorem Noted.step {op : Op} (hn : Noted d nodes held l) (hset : HeadSet d) (hh : Holds held op)
    (hs : Leak.step d op = some (r, d')) :
    r = op.answer ∧ (∃ nodes', Noted d' nodes' (heldStep held op) (noteAfter l op)) ∧
      HeadSet d' ∧ (d.memleakFlag = true ∨ op.Allocates ∧ op.answer ≠ 0 →
        d'.memleakFlag = true) := by
  cases op with
  | xmalloc ptr new size site =>
    rw [Leak.step, xmalloc_eq_request] at hs
    obtain ⟨hret, hn', hset', hflag⟩ := hn.request hset hs
    exact ⟨hret, hn', hset', fun h => hflag (h.imp_right And.right)⟩
  | xcalloc ptr new elements size site =>
    rw [Leak.step, xcalloc_eq_request] at hs
    obtain ⟨hret, hn', hset', hflag⟩ := hn.request hset hs
    exact ⟨hret, hn', hset', fun h => hflag (h.imp_right And.right)⟩
  | xrealloc old ptr new size site =>
    obtain ⟨d₁, hrem, hrest⟩ := Option.bind_eq_some_iff.mp hs
    obtain ⟨d₂, nodes₂, hrem', hn₁, hflag₁⟩ := hn.removed (hset.of_remove hrem) old
    obtain rfl := Option.some.inj (hrem'.symm.trans hrem)
    obtain ⟨h, hm, hrest⟩ := Option.bind_eq_some_iff.mp hrest
    obtain ⟨d₃, hadd, hret⟩ := Option.bind_eq_some_iff.mp hrest
    obtain ⟨rfl, rfl⟩ := Prod.mk.inj (Option.some.inj hret)
    obtain ⟨hn', hflag⟩ := (hn₁.heap (hn₁.records.realloc hh hm)).added hadd
    exact ⟨rfl, ⟨_, hn'⟩, Or.inl hflag, fun _ => hflag⟩
  | xfree p =>
    obtain ⟨d₁, hfree, hret⟩ := Option.map_eq_some_iff.mp hs
    obtain ⟨rfl, rfl⟩ := Prod.mk.inj hret
    obtain ⟨d₂, hrem, hrest⟩ := Option.bind_eq_some_iff.mp hfree
    obtain ⟨d₃, nodes₃, hrem', hn₁, hflag₁⟩ := hn.removed (hset.of_remove hrem) p
    obtain rfl := Option.some.inj (hrem'.symm.trans hrem)
    obtain ⟨h, hfree', hret⟩ := Option.bind_eq_some_iff.mp hrest
    obtain rfl := Option.some.inj hret
    obtain ⟨h', hfree'', hr'⟩ := hn₁.records.lose hh
    obtain rfl := Option.some.inj (hfree''.symm.trans hfree')
    exact ⟨rfl, ⟨_, hn₁.heap hr'⟩, Or.inl hflag₁, fun _ => hflag₁⟩
  | otherMalloc ptr n =>
    obtain ⟨h, hm, hret⟩ := Option.map_eq_some_iff.mp hs
    obtain ⟨rfl, rfl⟩ := Prod.mk.inj hret
    exact ⟨rfl, ⟨_, hn.heap (hn.records.malloc hm)⟩, hset, fun h => h.resolve_right fun h => h.1⟩
  | otherFree ptr =>
    obtain ⟨h, hfree, hret⟩ := Option.map_eq_some_iff.mp hs
    obtain ⟨rfl, rfl⟩ := Prod.mk.inj hret
    obtain ⟨h', hfree', hr'⟩ := hn.records.lose hh
    obtain rfl := Option.some.inj (hfree'.symm.trans hfree)
    exact ⟨rfl, ⟨_, hn.heap hr'⟩, hset, fun h => h.resolve_right fun h => h.1⟩

theorem Noted.ledgerOf_eq (hn : Noted d nodes held l) (hflag : d.memleakFlag = true) :
    ledgerOf d = some l := by
  rw [hn.records.ledgerOf_eq hflag, hn.shown]

theorem Noted.leakReport_eq (hn : Noted d nodes held l) (hflag : d.memleakFlag = true)
    (fopen : String → String → Bool) :
    leakReport d fopen = some (reportText (fopen outputFile "wt") l.dropLast) := by
  cases hopen : fopen outputFile "wt" with
  | false =>
    have hhead : d.links.loadNext d.ok (.addr .head) = some (d.links.next .head) :=
      Links.loadNext_addr _ rfl
    simp [leakReport, hhead, hopen, reportText]
  | true =>
    have htexts : ∀ xs : List ℕ, reportOf d xs = written summaryTexts ++
        (xs.map fun a => (d.info a).shown).flatMap fun m => written (recordTexts m) := by
      intro xs
      rw [reportOf, List.flatMap_map]
      simp only [recordTexts_shown]
    rw [leakReport_named hn.records hflag hopen hn.named, htexts, ← hn.shown, ← List.map_dropLast,
      reportText, if_pos rfl, List.flatMap_map (f := fun a => (d.info a).shown)
        (g := fun _ => ascii "HIT\n")]

theorem Noted.report (hn : Noted d nodes held l) (hflag : d.memleakFlag = true)
    (fopen : String → String → Bool) : reportMemLeak d fopen =
      if l = [] then some (reportText (fopen outputFile "wt") [], d) else none := by
  have hrep := hn.leakReport_eq hflag fopen
  obtain rfl := hn.shown
  cases nodes with
  | nil =>
    rw [if_pos List.map_nil, reportMemLeak, hrep]
    simp [clear_nil hn.records hflag]
  | cons a nodes =>
    rw [if_neg (by simp), reportMemLeak, hrep]
    simp [clear_undefined hn.records hflag]

theorem report_null (hnull : d.links.next .head = .null) : reportMemLeak d fopen = none := by
  cases hrep : reportMemLeak d fopen with
  | none => rfl
  | some r =>
    obtain ⟨fuel, h, hwalk⟩ := (safeReport_of_reportMemLeak hrep).2
    exact absurd hwalk (clearWalk_null hnull fuel h)

def Underway (d : Detector) (l : List MemInfo) (acts : List Act) : Prop :=
  ∃ nodes held, Noted d nodes held l ∧ HeadSet d ∧ HoldsRun held (calls acts)

theorem Underway.step {act : Act} {acts : List Act} {a : Answer}
    (hu : Underway d l (act :: acts)) (hs : actStep fopen d act = some (a, d')) :
    ∃ l', noteStep (fopen outputFile "wt") l act = some (a, l') ∧ Underway d' l' acts ∧
      (d.memleakFlag = true ∨ (∃ op ∈ act.op?, op.Allocates ∧ op.answer ≠ 0) →
        d'.memleakFlag = true) := by
  obtain ⟨nodes, held, hn, hset, hh⟩ := hu
  cases act with
  | call op =>
    obtain ⟨⟨r, d₁⟩, hstep, hret⟩ := Option.map_eq_some_iff.mp hs
    obtain ⟨rfl, rfl⟩ := Prod.mk.inj hret
    obtain ⟨rfl, ⟨nodes', hn'⟩, hset', hflag⟩ := hn.step hset hh.1 hstep
    refine ⟨noteAfter l op, rfl, ⟨nodes', _, hn', hset', hh.2⟩, ?_⟩
    rintro (h | ⟨o, ho, hop⟩)
    · exact hflag (Or.inl h)
    · obtain rfl := Option.some.inj ho
      exact hflag (Or.inr hop)
  | report =>
    obtain ⟨⟨r, d₁⟩, hrep, hret⟩ := Option.map_eq_some_iff.mp hs
    obtain ⟨rfl, rfl⟩ := Prod.mk.inj hret
    rcases hset with hflag | hnull
    · rw [hn.report hflag] at hrep
      split_ifs at hrep with hl
      obtain ⟨rfl, rfl⟩ := Prod.mk.inj (Option.some.inj hrep)
      refine ⟨l, ?_, ⟨nodes, held, hn, Or.inl hflag, hh⟩, fun _ => hflag⟩
      rw [noteStep, if_pos hl, hl]
    · rw [report_null hnull] at hrep
      cases hrep

theorem foldl_noteStep {opens : Bool} {l' : List MemInfo} {act : Act} {a : Answer}
    (hs : noteStep opens l act = some (a, l')) (acts : List Act) :
    (calls acts).foldl noteAfter l' = (calls (act :: acts)).foldl noteAfter l := by
  cases act with
  | call op =>
    obtain ⟨-, rfl⟩ := Prod.mk.inj (Option.some.inj hs)
    rfl
  | report =>
    rw [noteStep] at hs
    split_ifs at hs
    obtain ⟨-, rfl⟩ := Prod.mk.inj (Option.some.inj hs)
    rfl

theorem mem_calls_cons {act : Act} {acts : List Act} {op : Op} (ho : op ∈ calls (act :: acts)) :
    op ∈ act.op? ∨ op ∈ calls acts := by
  cases act with
  | call op' =>
    rcases List.mem_cons.mp ho with rfl | ho
    · exact Or.inl rfl
    · exact Or.inr ho
  | report => exact Or.inr ho

/-- A program that has got a block from the wrappers, whatever its requests came to: the answers
and the report are those of the notes. Every note but the last is in the report, and the report
has no meaning, for what it frees, unless there are no notes. -/
theorem run_report {heap : Arena} (hzero : heap.live 0 = false) (links : Links (Loc ℕ))
    (info : ℕ → MemInfo) (fopen : String → String → Bool) {acts : List Act}
    (hh : HoldsRun heap.live (calls acts))
    (hblock : ∃ op ∈ calls acts, op.Allocates ∧ op.answer ≠ 0) {rs : List Answer} {d : Detector}
    (hrun : run (actStep fopen) (start heap links info) acts = some (rs, d)) : ∃ l,
    l = (calls acts).foldl noteAfter [] ∧
      run (noteStep (fopen outputFile "wt")) [] acts = some (rs, l) ∧ ledgerOf d = some l ∧
      leakReport d fopen = some (reportText (fopen outputFile "wt") l.dropLast) ∧
      reportMemLeak d fopen =
        if l = [] then some (reportText (fopen outputFile "wt") [], d) else none := by
  have hstart : Underway (start heap links info) [] acts :=
    ⟨[], heap.live, ⟨start_records hzero links info, rfl, by simp⟩, Or.inr (by simp [start]), hh⟩
  obtain ⟨l, hnotes, ⟨nodes, held, hn, -⟩, hflag, hl⟩ := run_of_some
    (R := fun d l as => Underway d l as ∧
      (d.memleakFlag = true ∨ ∃ op ∈ calls as, op.Allocates ∧ op.answer ≠ 0) ∧
      (calls as).foldl noteAfter l = (calls acts).foldl noteAfter [])
    (fun d l act as a d' h hs => by
      obtain ⟨hu, hflag, hl⟩ := h
      obtain ⟨l', hnote, hu', hflag'⟩ := hu.step hs
      refine ⟨l', hnote, hu', ?_, (foldl_noteStep hnote as).trans hl⟩
      rcases hflag with hflag | ⟨op, ho, hop⟩
      · exact Or.inl (hflag' (Or.inl hflag))
      · rcases mem_calls_cons ho with ho | ho
        · exact Or.inl (hflag' (Or.inr ⟨op, ho, hop⟩))
        · exact Or.inr ⟨op, ho, hop⟩)
    ⟨hstart, Or.inr hblock, rfl⟩ hrun
  have hset : d.memleakFlag = true := by
    rcases hflag with hflag | ⟨op, ho, -⟩
    · exact hflag
    · exact absurd ho List.not_mem_nil
  exact ⟨l, hl, hnotes, hn.ledgerOf_eq hset, hn.leakReport_eq hset fopen, hn.report hset fopen⟩

def deniedActs : List Act :=
  [.call (.xcalloc 0 0 2 8 (.ones 1 0 1)), .call (.xmalloc 8 9 16 (.ones 1 0 2)),
    .call (.xfree 8), .report, .call (.xmalloc 8 9 16 (.ones 1 0 2)),
    .call (.xcalloc 10 11 2 8 (.ones 2 0 3)), .call (.xrealloc 8 0 12 32 (.ones 3 0 4))]

theorem run_report_denied : ∃ rs d,
    run (actStep fun _ _ => true) blankStart deniedActs = some (rs, d) ∧
      ledgerOf d = some [⟨10, 16, [97, 97], 3⟩, ⟨0, 32, [97, 97, 97], 4⟩] ∧
      leakReport d (fun _ _ => true) = some (reportText true [⟨10, 16, [97, 97], 3⟩]) ∧
      reportMemLeak d (fun _ _ => true) = none := by
  obtain ⟨rs, d, hrun⟩ : ∃ rs d, run (actStep fun _ _ => true) blankStart deniedActs =
      some (rs, d) := ⟨_, _, rfl⟩
  have hcalls : calls deniedActs = [.xcalloc 0 0 2 8 (.ones 1 0 1), .xmalloc 8 9 16 (.ones 1 0 2),
    .xfree 8, .xmalloc 8 9 16 (.ones 1 0 2), .xcalloc 10 11 2 8 (.ones 2 0 3),
    .xrealloc 8 0 12 32 (.ones 3 0 4)] := rfl
  obtain ⟨l, hl, -, hledger, hreport, hend⟩ := run_report rfl
    ⟨fun _ => .poison 0, fun _ => .poison 0⟩ (fun _ => ⟨0, 0, [], 0⟩) (fun _ _ => true)
    (by simp [hcalls, HoldsRun, Holds, heldStep, gain, lose])
    (by simp [hcalls, Op.Allocates, Op.answer]) hrun
  obtain rfl : l = [⟨10, 16, [97, 97], 3⟩, ⟨0, 32, [97, 97, 97], 4⟩] := hl
  exact ⟨rs, d, hrun, hledger, hreport, hend⟩

end
end KernelHashtable.Leak
