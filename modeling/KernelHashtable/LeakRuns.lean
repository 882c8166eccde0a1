import KernelHashtable.LeakBook
import KernelHashtable.Lib.Run

/-!
# Runs of the leak detector

A run is legal when every request is granted an address that is not in use and when
nothing is released that is not live, or released past the wrappers that returned it. Every
legal call whose file name ends does to the ring of records what it does to the book.
-/

namespace KernelHashtable.Leak
open KList

/-- The calls, with the addresses that their requests are granted. Other code uses the
same allocator without the wrappers. -/
inductive Op where
  | xmalloc (ptr new : ℕ) (size : UInt32) (site : Site)
  | xcalloc (ptr new : ℕ) (elements size : UInt32) (site : Site)
  | xrealloc (old ptr new : ℕ) (size : UInt32) (site : Site)
  | xfree (memRef : ℕ)
  | otherMalloc (ptr n : ℕ)
  | otherFree (ptr : ℕ)

def step (d : Detector) : Op → Option (ℕ × Detector)
  | .xmalloc ptr new size site => xmalloc d ptr new size site
  | .xcalloc ptr new elements size site => xcalloc d ptr new elements size site
  | .xrealloc old ptr new size site => xrealloc d old ptr new size site
  | .xfree memRef => (xfree d memRef).map fun d => (0, d)
  | .otherMalloc ptr n => (d.heap.malloc ptr n).map fun h => (ptr, { d with heap := h })
  | .otherFree ptr => (d.heap.free ptr).map fun h => (0, { d with heap := h })

def Op.answer : Op → ℕ
  | .xmalloc ptr _ _ _ | .xcalloc ptr _ _ _ _ | .xrealloc _ ptr _ _ _ | .otherMalloc ptr _ => ptr
  | .xfree _ | .otherFree _ => 0

def Op.site? : Op → Option Site
  | .xmalloc _ _ _ site | .xcalloc _ _ _ _ site | .xrealloc _ _ _ _ site => some site
  | .xfree _ | .otherMalloc _ _ | .otherFree _ => none

def Op.Ends (op : Op) : Prop := ∀ site ∈ op.site?, site.Ends

def bookStep (b : Book) : Op → Book
  | .xmalloc ptr new _ _ => b.enter new ptr
  | .xcalloc ptr new _ _ _ => b.enter new ptr
  | .xrealloc old ptr new _ _ => (b.release old).enter new ptr
  | .xfree memRef => b.release memRef
  | .otherMalloc ptr _ => b.lend ptr true
  | .otherFree ptr => b.lend ptr false

def Legal (b : Book) : Op → Prop
  | .xmalloc ptr new _ _ => b.Fresh ptr ∧ b.Fresh new ∧ new ≠ ptr
  | .xcalloc ptr new _ _ _ => b.Fresh ptr ∧ b.Fresh new ∧ new ≠ ptr
  | .xrealloc old ptr new _ _ =>
    b.Releasable old ∧ (b.release old).Fresh ptr ∧ (b.release old).Fresh new ∧ new ≠ ptr
  | .xfree memRef => b.Releasable memRef
  | .otherMalloc ptr _ => b.Fresh ptr
  | .otherFree ptr => b.foreign ptr = true

def LegalRun : Book → List Op → Prop
  | _, [] => True
  | b, op :: ops => Legal b op ∧ LegalRun (bookStep b op) ops

def trackedAfter (l : List ℕ) : Op → List ℕ
  | .xmalloc ptr _ _ _ => l ++ [ptr]
  | .xcalloc ptr _ _ _ _ => l ++ [ptr]
  | .xrealloc old ptr _ _ _ => l.filter (fun a => decide (a ≠ old)) ++ [ptr]
  | .xfree memRef => l.filter fun a => decide (a ≠ memRef)
  | .otherMalloc _ _ => l
  | .otherFree _ => l

theorem tracked_bookStep (b : Book) (op : Op) :
    (bookStep b op).tracked = trackedAfter b.tracked op := by
  cases op with
  | xmalloc ptr new size site => exact tracked_enter new ptr
  | xcalloc ptr new elements size site => exact tracked_enter new ptr
  | xrealloc old ptr new size site =>
    exact (tracked_enter new ptr).trans (by rw [tracked_release]; rfl)
  | xfree memRef => exact tracked_release memRef
  | otherMalloc ptr n => rfl
  | otherFree ptr => rfl

structure Rep (d : Detector) (b : Book) : Prop extends Accounted d b where
  ring : IsRing d.links .head (recordLocs b)
  flag : d.memleakFlag = true

section
variable {d : Detector} {b : Book} {p new ptr : ℕ} {size : UInt32} {site : Site}

theorem Rep.records (hr : Rep d b) : Records d b.records b.held :=
  hr.toAccounted.records (by rw [if_pos hr.flag]; exact hr.ring)

theorem Rep.of_records (hr : Records d b.records b.held) (hflag : d.memleakFlag = true)
    (hacc : Accounted d b) : Rep d b :=
  ⟨hacc, by rw [recordLocs_eq]; exact hr.isRing hflag, hflag⟩

theorem Rep.removeMemInfo (hr : Rep d b) (p : ℕ) :
    ∃ d', Leak.removeMemInfo d p = some d' ∧ Rep d' (b.disown p) ∧ d'.info = d.info := by
  obtain ⟨d', hrem, hrec, hinfo, hflag⟩ := hr.records.removeMemInfo hr.flag p
  rw [hr.records_disown, ← disown_held b p] at hrec
  have hacc : Accounted d' (b.disown p) := by
    refine hrec.accounted (fun e he => ?_) (hr.nodup.sublist (disown_blocks_sublist b p)) ?_
    · rw [hinfo]
      exact hr.address e (List.mem_of_mem_filter he)
    · intro a ha
      rw [disown_tracked, List.mem_filter, decide_eq_true_eq] at ha
      have hfor := hr.apart a (tracked_mem_blocks ha.1)
      simpa [Book.disown, Book.lend, Book.strike, ha.2] using hfor
  exact ⟨d', hrem, Rep.of_records hrec hflag hacc, hinfo⟩

def Ready (d : Detector) (b : Book) : Prop :=
  if d.memleakFlag then IsRing d.links .head (recordLocs b) else b.entries = []

theorem Rep.ready (hr : Rep d b) : Ready d b := by
  rw [Ready, if_pos hr.flag]
  exact hr.ring

theorem Accounted.addMemInfo (ha : Accounted d b) (hready : Ready d b) (hptr : b.Fresh ptr)
    (hnew : b.Fresh new) (hne : new ≠ ptr) (n : ℕ) (size : UInt32) (hends : site.Ends) :
    ∃ d', Leak.addMemInfo { d with heap := d.heap.hold ptr n } new ptr size site = some d' ∧
      Rep d' (b.enter new ptr) := by
  have hlive : (d.heap.hold ptr n).live new = false := by simp [ha.not_live hnew, hne]
  have hrec := (ha.records hready).hold hptr.1 (ha.not_live hptr) n
  obtain ⟨links, hadd, hrec'⟩ := hrec.addMemInfo hnew.1 hlive ptr size hends
  have hinfo : ((site.record (d.info new) ptr size)).address = ptr := rfl
  refine ⟨_, hadd, ha.enter hptr hnew hne links true (by simp [hinfo]) fun r hr => by simp [hr],
    ?_, rfl⟩
  have hring := hrec'.isRing rfl
  rwa [recordLocs_eq, Book.records, Book.enter, List.map_append]

theorem Accounted.request (ha : Accounted d b) (hready : Ready d b) (hptr : b.Fresh ptr)
    (hnew : b.Fresh new) (hne : new ≠ ptr) (n : ℕ) (size : UInt32) (hends : site.Ends) :
    ∃ d', Leak.request d ptr new n size site = some (ptr, d') ∧ Rep d' (b.enter new ptr) := by
  obtain ⟨d', hadd, hr⟩ := ha.addMemInfo hready hptr hnew hne n size hends
  refine ⟨d', ?_, hr⟩
  simp [Leak.request, Arena.malloc_ok hptr.1 (ha.not_live hptr), hptr.1, hadd]

theorem Accounted.foreign_null (ha : Accounted d b) : b.foreign 0 = false :=
  Bool.eq_false_iff.mpr fun h => ha.live_ne_zero (Or.inr h) rfl

theorem Rep.free (hr : Rep d (b.disown p)) (hp : b.Releasable p) :
    ∃ h, d.heap.free p = some h ∧ Rep { d with heap := h } (b.release p) := by
  rw [← disown_lend]
  by_cases hp0 : p = 0
  · subst hp0
    have hsame : (b.disown 0).lend 0 false = b.disown 0 := by
      rw [Book.lend, ← hr.foreign_null, Function.update_eq_self]
    exact ⟨d.heap, rfl, by rw [hsame]; exact hr⟩
  · have hfor : (b.disown p).foreign p = true := by
      rcases hp.resolve_left hp0 with ht | hf
      · simp [Book.disown, Book.lend, ht]
      · simp [Book.disown, Book.lend, hf]
    obtain ⟨hfree, hacc⟩ := hr.toAccounted.free hfor
    exact ⟨_, hfree, hacc, hr.ring, hr.flag⟩

theorem Rep.xfree (hr : Rep d b) (hp : b.Releasable p) :
    ∃ d', Leak.xfree d p = some d' ∧ Rep d' (b.release p) := by
  obtain ⟨d₁, hrem, hr₁, -⟩ := hr.removeMemInfo p
  obtain ⟨h, hfree, hr₂⟩ := hr₁.free hp
  exact ⟨_, by simp [Leak.xfree, hrem, hfree], hr₂⟩

theorem Rep.xrealloc {old : ℕ} (hr : Rep d b) (hp : b.Releasable old)
    (hptr : (b.release old).Fresh ptr) (hnew : (b.release old).Fresh new) (hne : new ≠ ptr)
    (size : UInt32) (hends : site.Ends) :
    ∃ d', Leak.xrealloc d old ptr new size site = some (ptr, d') ∧
      Rep d' ((b.release old).enter new ptr) := by
  obtain ⟨d₁, hrem, hr₁, -⟩ := hr.removeMemInfo old
  obtain ⟨h, hfree, hr₂⟩ := hr₁.free hp
  obtain ⟨d', hadd, hr'⟩ := hr₂.addMemInfo hr₂.ready hptr hnew hne size.toNat size hends
  refine ⟨d', ?_, hr'⟩
  have hrealloc := Arena.realloc_ok (n := size.toNat) hptr.1 hfree (hr₂.not_live hptr)
  simp [Leak.xrealloc, hrem, hrealloc, hadd]

theorem Rep.step (hr : Rep d b) {op : Op} (hl : Legal b op) (hends : op.Ends) :
    ∃ d', Leak.step d op = some (op.answer, d') ∧ Rep d' (bookStep b op) := by
  cases op with
  | xmalloc ptr new size site =>
    exact hr.request hr.ready hl.1 hl.2.1 hl.2.2 size.toNat size (hends site rfl)
  | xcalloc ptr new elements size site =>
    exact hr.request hr.ready hl.1 hl.2.1 hl.2.2 (elements.toNat * size.toNat) (elements * size)
      (hends site rfl)
  | xrealloc old ptr new size site =>
    exact hr.xrealloc hl.1 hl.2.1 hl.2.2.1 hl.2.2.2 size (hends site rfl)
  | xfree memRef =>
    obtain ⟨d', hfree, hr'⟩ := hr.xfree hl
    exact ⟨d', by simp [Leak.step, hfree, Op.answer], hr'⟩
  | otherMalloc ptr n =>
    have hmalloc := Arena.malloc_ok (n := n) hl.1 (hr.not_live hl)
    exact ⟨_, by simp [Leak.step, hmalloc, Op.answer], hr.hold hl n, hr.ring, hr.flag⟩
  | otherFree ptr =>
    obtain ⟨hfree, hacc⟩ := hr.toAccounted.free hl
    exact ⟨_, by simp [Leak.step, hfree, Op.answer], hacc, hr.ring, hr.flag⟩

theorem ends_of_request {d' : Detector} {n r : ℕ} (hptr : ptr ≠ 0)
    (hs : Leak.request d ptr new n size site = some (r, d')) : site.Ends := by
  obtain ⟨-, h, -, ⟨hzero, -⟩ | ⟨-, hadd⟩⟩ := request_cases hs
  · exact absurd hzero hptr
  · exact (addMemInfo_some hadd).2.1

theorem ends_of_step {d' : Detector} {op : Op} {r : ℕ} (hl : Legal b op)
    (hs : Leak.step d op = some (r, d')) : op.Ends := by
  intro site hsite
  cases op with
  | xmalloc ptr new size site =>
    obtain rfl := Option.some.inj hsite
    exact ends_of_request hl.1.1 hs
  | xcalloc ptr new elements size site =>
    obtain rfl := Option.some.inj hsite
    exact ends_of_request hl.1.1 hs
  | xrealloc old ptr new size site =>
    obtain rfl := Option.some.inj hsite
    obtain ⟨d₁, -, hrest⟩ := Option.bind_eq_some_iff.mp hs
    obtain ⟨h, -, hrest⟩ := Option.bind_eq_some_iff.mp hrest
    obtain ⟨d₂, hadd, -⟩ := Option.bind_eq_some_iff.mp hrest
    exact (addMemInfo_some hadd).2.1
  | xfree memRef => cases hsite
  | otherMalloc ptr n => cases hsite
  | otherFree ptr => cases hsite

end

/-- The program at its start: the static variables are zero. -/
def start (heap : Arena) (links : Links (Loc ℕ)) (info : ℕ → MemInfo) : Detector :=
  ⟨heap, ⟨Function.update links.next .head .null, Function.update links.prev .head .null⟩,
    info, false⟩

def Op.Allocates : Op → Prop
  | .xmalloc _ _ _ _ | .xcalloc _ _ _ _ _ => True
  | _ => False

/-- The records form a ring through the head, and are about the blocks `tracked` in this
order, each of which is live and has one record. -/
structure Ledger (d : Detector) (records tracked : List ℕ) : Prop where
  ring : IsRing d.links .head (records.map .node)
  address : records.map (fun r => (d.info r).address) = tracked
  live : ∀ a ∈ tracked, d.heap.live a = true
  nodup : tracked.Nodup

section
variable {d : Detector} {b : Book}

theorem tracked_sublist_blocks (b : Book) : b.tracked.Sublist b.blocks := by
  rw [Book.tracked, List.map_eq_flatMap]
  exact List.Sublist.flatMap_right _ fun e _ => List.sublist_cons_self e.1 [e.2]

theorem Rep.ledger (hr : Rep d b) : Ledger d (b.entries.map Prod.fst) b.tracked := by
  refine ⟨?_, ?_, fun a ha => (hr.live_iff a).mpr (Or.inl (tracked_mem_blocks ha)),
    hr.nodup.sublist (tracked_sublist_blocks b)⟩
  · rw [List.map_map]
    exact hr.ring
  · rw [List.map_map]
    exact List.map_congr_left hr.address

theorem disown_records (hr : Rep d b) (p : ℕ) : (b.disown p).entries.map Prod.fst =
    (b.entries.map Prod.fst).filter fun r => decide ((d.info r).address ≠ p) := by
  rw [List.filter_map]
  refine congrArg (List.map Prod.fst) (List.filter_congr fun e he => ?_)
  rw [Function.comp_apply, hr.address e he]

theorem start_accounted {heap : Arena} (hnull : heap.live 0 = false) (links : Links (Loc ℕ))
    (info : ℕ → MemInfo) : Accounted (start heap links info) ⟨[], heap.live⟩ := by
  refine ⟨by simp, fun a => ?_, List.nodup_nil, by simp [Book.blocks], hnull, Nat.zero_le _⟩
  simp [Book.Live, Book.blocks, start]

theorem start_step {heap : Arena} (hnull : heap.live 0 = false) (links : Links (Loc ℕ))
    (info : ℕ → MemInfo) {op : Op} (ha : op.Allocates) (hl : Legal ⟨[], heap.live⟩ op)
    (hends : op.Ends) : ∃ d, step (start heap links info) op = some (op.answer, d) ∧
      Rep d (bookStep ⟨[], heap.live⟩ op) := by
  have hacc := start_accounted hnull links info
  have hready : Ready (start heap links info) ⟨[], heap.live⟩ := rfl
  cases op with
  | xmalloc ptr new size site =>
    exact hacc.request hready hl.1 hl.2.1 hl.2.2 size.toNat size (hends site rfl)
  | xcalloc ptr new elements size site =>
    exact hacc.request hready hl.1 hl.2.1 hl.2.2 (elements.toNat * size.toNat) (elements * size)
      (hends site rfl)
  | xrealloc old ptr new size site => exact ha.elim
  | xfree memRef => exact ha.elim
  | otherMalloc ptr n => exact ha.elim
  | otherFree ptr => exact ha.elim

theorem Rep.run (hr : Rep d b) {ops : List Op} (hl : LegalRun b ops)
    (hends : ∀ op ∈ ops, op.Ends) : ∃ rs d',
      KernelHashtable.run Leak.step d ops = some (rs, d') ∧ rs = ops.map Op.answer ∧
      Rep d' (ops.foldl bookStep b) := by
  obtain ⟨rs, d', hrun, hans, -, hr', -⟩ := run_simulates
    (R := fun d b (_ : Unit) ops => Rep d b ∧ LegalRun b ops ∧ ∀ op ∈ ops, op.Ends)
    (fun b op => (op.answer, bookStep b op)) id (fun _ _ _ => ())
    (fun d b _ op ops h => by
      obtain ⟨hr, hl, hends⟩ := h
      obtain ⟨d', hs, hr'⟩ := hr.step hl.1 (hends op List.mem_cons_self)
      exact ⟨op.answer, d', hs, rfl, hr', hl.2, fun o ho => hends o (List.mem_cons_of_mem op ho)⟩)
    (g := ()) ⟨hr, hl, hends⟩
  rw [runSpec_answers] at hans hr'
  exact ⟨rs, d', hrun, by simpa using hans, hr'⟩

theorem ends_of_run {d' : Detector} {ops : List Op} {rs : List ℕ} (hl : LegalRun b ops)
    (hrun : KernelHashtable.run Leak.step d ops = some (rs, d')) : ∀ op ∈ ops, op.Ends := by
  induction ops generalizing d b rs with
  | nil => simp
  | cons op ops ih =>
    obtain ⟨⟨r, d₁⟩, hs, hrest⟩ := Option.bind_eq_some_iff.mp hrun
    obtain ⟨⟨rs₁, d₂⟩, hrun₁, hret⟩ := Option.bind_eq_some_iff.mp hrest
    obtain ⟨-, rfl⟩ := Prod.mk.inj (Option.some.inj hret)
    intro o ho
    rcases List.mem_cons.mp ho with rfl | ho
    · exact ends_of_step hl.1 hs
    · exact ih hl.2 hrun₁ o ho

/-- A legal run that begins with an allocation keeps its ledger, and `remove_mem_info` works on
what it leaves, exactly where every file name that it records ends. -/
theorem run_ledger_iff {heap : Arena} (hnull : heap.live 0 = false) (links : Links (Loc ℕ))
    (info : ℕ → MemInfo) {first : Op} (hfirst : first.Allocates) {ops : List Op}
    (hl : LegalRun ⟨[], heap.live⟩ (first :: ops)) :
    (∃ rs d records, run step (start heap links info) (first :: ops) = some (rs, d) ∧
      rs = (first :: ops).map Op.answer ∧
      Ledger d records ((first :: ops).foldl trackedAfter []) ∧
      ∀ p, ∃ d', removeMemInfo d p = some d' ∧ d'.info = d.info ∧
        Ledger d' (records.filter fun r => decide ((d.info r).address ≠ p))
          (((first :: ops).foldl trackedAfter []).filter fun a => decide (a ≠ p))) ↔
      ∀ op ∈ first :: ops, op.Ends := by
  refine ⟨fun ⟨rs, d, _, hrun, _⟩ => ends_of_run hl hrun, fun hends => ?_⟩
  obtain ⟨d₁, hs, hr₁⟩ := start_step hnull links info hfirst hl.1 (hends first List.mem_cons_self)
  obtain ⟨rs, d, hrun, rfl, hr⟩ := hr₁.run hl.2 fun o ho => hends o (List.mem_cons_of_mem first ho)
  have htracked : ((first :: ops).foldl trackedAfter []) =
      ((first :: ops).foldl bookStep ⟨[], heap.live⟩).tracked := by
    rw [← List.foldl_hom Book.tracked fun b op => (tracked_bookStep b op).symm]
    rfl
  rw [htracked]
  refine ⟨_, d, _, by rw [run_cons hs, hrun]; rfl, rfl, hr.ledger, fun p => ?_⟩
  obtain ⟨d', hrem, hr', hinfo⟩ := hr.removeMemInfo p
  refine ⟨d', hrem, hinfo, ?_⟩
  rw [← disown_records hr, ← disown_tracked]
  exact hr'.ledger

def blankStart : Detector :=
  start ⟨fun _ => false, fun _ => 0, 0⟩ ⟨fun _ => .poison 0, fun _ => .poison 0⟩
    fun _ => ⟨0, 0, [], 0⟩

def Site.ones (n k : ℕ) (line : UInt32) : Site :=
  ⟨List.replicate n 97, line, List.replicate (fileNameLength + 1) 1, List.replicate k 1 ++ [0],
    by simp, by simp⟩

theorem Site.ones_ends {n : ℕ} (hn : n < fileNameLength) (k : ℕ) (line : UInt32) :
    (Site.ones n k line).Ends := by
  left
  rwa [Site.ones, List.length_replicate]

theorem Site.ones_overrun (k : ℕ) (line : UInt32) :
    ¬ (Site.ones fileNameLength k line).Ends ∧
      strcpyExtent (Site.ones fileNameLength k line).copied = fileNameLength + k + 2 := by
  have hcopied : (Site.ones fileNameLength k line).copied =
      (List.replicate fileNameLength 97 ++ 1 :: List.replicate k 1) ++ 0 :: [] := by
    simp [Site.copied, Site.ones, strncpy, List.replicate_succ']
  have hextent : strcpyExtent (Site.ones fileNameLength k line).copied =
      fileNameLength + k + 2 := by
    rw [hcopied, strcpyExtent, cString_append_zero]
    · simp
      omega
    · simp
  refine ⟨fun hends => ?_, hextent⟩
  have hinside := (Site.extent_le_iff _).mpr hends
  omega

theorem run_ledger_reuse : ∃ rs d records,
    run step blankStart
      [.xmalloc 8 9 16 (.ones 1 0 1), .xcalloc 10 11 2 4 (.ones 1 0 2),
        .xrealloc 8 9 8 32 (.ones 1 0 3), .xrealloc 9 9 12 64 (.ones 1 0 4),
        .xfree 0, .otherMalloc 13 1, .xfree 13, .xfree 10] = some (rs, d) ∧
      rs = [8, 10, 9, 9, 0, 13, 0, 0] ∧ Ledger d records [9] ∧
      ∀ p, ∃ d', removeMemInfo d p = some d' ∧ d'.info = d.info ∧
        Ledger d' (records.filter fun r => decide ((d.info r).address ≠ p))
          ([9].filter fun a => decide (a ≠ p)) := by
  refine (run_ledger_iff rfl ⟨fun _ => .poison 0, fun _ => .poison 0⟩ (fun _ => ⟨0, 0, [], 0⟩)
    (by exact trivial) ?_).mpr ?_
  · simp [LegalRun, Legal, bookStep, Book.Fresh, Book.Live, Book.Releasable, Book.blocks,
      Book.tracked, Book.enter, Book.release, Book.strike, Book.lend]
  · have hends : ∀ line, (Site.ones 1 0 line).Ends := Site.ones_ends (by decide) 0
    simp [Op.Ends, Op.site?, hends]

/-- A name of 512 bytes, a line whose number has no zero byte, and 100 bytes that are not zero
behind the local array: `strcpy` goes past the end of the record, where `file_name` has 540
bytes before it. -/
theorem run_ledger_overrun : LegalRun ⟨[], fun _ => false⟩
      [.xmalloc 8 9 16 (.ones fileNameLength 100 0x01010101)] ∧
    540 < strcpyExtent (Site.ones fileNameLength 100 0x01010101).copied ∧
    ¬ ∃ rs d records, run step blankStart
        [.xmalloc 8 9 16 (.ones fileNameLength 100 0x01010101)] = some (rs, d) ∧
      Ledger d records [8] := by
  obtain ⟨hover, hextent⟩ := Site.ones_overrun 100 0x01010101
  have hl : LegalRun ⟨[], fun _ => false⟩
      [.xmalloc 8 9 16 (.ones fileNameLength 100 0x01010101)] := by
    simp [LegalRun, Legal, Book.Fresh, Book.Live, Book.blocks]
  refine ⟨hl, by rw [hextent]; decide, ?_⟩
  rintro ⟨rs, d, records, hrun, -⟩
  exact hover (ends_of_run hl hrun _ List.mem_cons_self _ rfl)

end
end KernelHashtable.Leak
