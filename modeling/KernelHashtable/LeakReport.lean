import KernelHashtable.LeakRecords
import KernelHashtable.LeakRuns
import Mathlib.Algebra.Group.Nat.Defs
import Mathlib.Data.List.TakeWhile

/-!
# The leak report

Both loops of `report_mem_leak` go on until the successor of the current node is the head.
The report begins with the first record, so that the last one is never written. `clear`
begins with the head, so that the head is passed to `free` as soon as there is a record.
-/

namespace KernelHashtable.Leak
open KList

def written (texts : List (List UInt8)) : List UInt8 := texts.flatMap fun text => text ++ [0]

def reportOf (d : Detector) (nodes : List ℕ) : List UInt8 :=
  written summaryTexts ++ nodes.flatMap fun a => written (recordTexts (d.info a))

structure MemInfo.Named (m : MemInfo) : Prop where
  ends : 0 ∈ m.fileName
  short : (cString m.fileName).length ≤ fileNameLength

section
variable {r r' : Report} {texts : List (List UInt8)} {m : MemInfo}

theorem foldlM_write (r : Report) (h : ∀ text ∈ texts, text.length < 1024) :
    texts.foldlM Report.write r = some { r with file := r.file ++ written texts } := by
  induction texts generalizing r with
  | nil => simp [written]
  | cons text texts ih =>
    have hw : r.write text = some { r with file := r.file ++ (text ++ [0]) } := by
      simp [Report.write, guard, h text (by simp)]
    have hrec := ih { r with file := r.file ++ (text ++ [0]) } fun t ht =>
      h t (List.mem_cons_of_mem text ht)
    rw [List.foldlM_cons, hw]
    simpa [written] using hrec

theorem foldlM_write_file (h : texts.foldlM Report.write r = some r') :
    r'.file = r.file ++ written texts := by
  induction texts generalizing r with
  | nil =>
    obtain rfl : r = r' := by simpa using h
    simp [written]
  | cons text texts ih =>
    rw [List.foldlM_cons] at h
    obtain ⟨r₁, hw, hrest⟩ := Option.bind_eq_some_iff.mp h
    have hfile : r₁.file = r.file ++ (text ++ [0]) := by
      simp only [Report.write, guard, Option.bind_eq_bind] at hw
      split_ifs at hw
      · rw [← Option.some.inj hw]
      · cases hw
    rw [ih hrest, hfile]
    simp [written]

theorem reportRecord_file (h : reportRecord r m = some r') :
    r'.file = r.file ++ written (recordTexts m) := by
  simp only [reportRecord, guard, Option.bind_eq_bind] at h
  split_ifs at h
  · obtain ⟨-, -, h⟩ := Option.bind_eq_some_iff.mp h
    have hfile := foldlM_write_file h
    exact hfile
  · cases h

theorem ascii_length (s : String) : (ascii s).length = s.length := by
  rw [ascii, List.length_map, String.length_toList]

theorem line_short (before after : String) {body : List UInt8} {k : ℕ} (hb : body.length ≤ k)
    (hk : before.length + k + after.length < 1024) :
    (ascii before ++ body ++ ascii after).length < 1024 := by
  rw [List.length_append, List.length_append, ascii_length, ascii_length]
  omega

theorem nat_length {n k : ℕ} (hk : 0 < k) (h : n < 10 ^ k) : (ascii n.repr).length ≤ k := by
  rw [ascii_length]
  exact (Nat.length_repr_le_iff hk).mpr h

theorem int_length {i : ℤ} {k : ℕ} (hk : 0 < k) (h : i.natAbs < 10 ^ k) :
    (ascii i.repr).length ≤ k + 1 := by
  rw [ascii_length]
  cases i with
  | ofNat n => exact Nat.le_succ_of_le ((Nat.length_repr_le_iff hk).mpr h)
  | negSucc n =>
    have hn : (n + 1).repr.length ≤ k := (Nat.length_repr_le_iff hk).mpr h
    have hrepr : (Int.negSucc n).repr.length = 1 + (n + 1).repr.length := by
      change ("-" ++ (n + 1).repr).length = _
      rw [String.length_append]
      rfl
    omega

theorem recordTexts_short (hm : m.Named) : ∀ text ∈ recordTexts m, text.length < 1024 := by
  have haddress := nat_length (n := (UInt64.ofNat m.address).toNat) (k := 20) (by decide)
    (lt_trans (UInt64.ofNat m.address).toNat_lt (by decide))
  have hsize := nat_length (n := m.size.toNat) (k := 10) (by decide)
    (lt_trans m.size.toNat_lt (by decide))
  have hline := int_length (i := m.line.toInt32.toInt) (k := 10) (by decide) (by
    have hlo := m.line.toInt32.le_toInt
    have hhi := m.line.toInt32.toInt_lt
    omega)
  simp only [recordTexts, List.mem_cons, List.not_mem_nil, or_false]
  rintro text (rfl | rfl | rfl | rfl | rfl)
  · exact line_short "address : " "\n" haddress (by decide)
  · exact line_short "size    : " " bytes\n" hsize (by decide)
  · exact line_short "file    : " "\n" hm.short (by decide)
  · exact line_short "line    : " "\n" hline (by decide)
  · decide

theorem reportRecord_named (hm : m.Named) (r : Report) : reportRecord r m =
    some ⟨r.file ++ written (recordTexts m), r.stdout ++ ascii "HIT\n", r.perror⟩ := by
  have hwrite := foldlM_write { r with stdout := r.stdout ++ ascii "HIT\n" } (recordTexts_short hm)
  simp [reportRecord, guard, hm.ends, hwrite]

end

theorem record_named {site : Site} (hends : site.Ends) (old : MemInfo) (memRef : ℕ)
    (size : UInt32) :
    cString (site.record old memRef size).fileName = site.file.take fileNameLength ∧
      (site.record old memRef size).Named := by
  have hname : cString (site.record old memRef size).fileName = site.file.take fileNameLength :=
    (cString_strcpy _ _).trans (Site.copied_string hends)
  refine ⟨hname, ?_, by rw [hname]; exact List.length_take_le _ _⟩
  simp [Site.record, strcpy_eq]

theorem reportLoop_eq_traverse (d : Detector) (fuel : ℕ) (r : Report) (curr : Ptr (Loc ℕ)) :
    reportLoop d fuel r curr = (Links.traverse (fun _ => d.ok) d.links.next .head
      (fun r x => reportRecord r (d.memInfo x)) fuel r curr).result := by
  induction fuel generalizing r curr with
  | zero => rfl
  | succ fuel ih =>
    rw [reportLoop, Links.traverse_result_succ]
    cases hx : curr.deref d.ok with
    | none => simp [Links.loadNext, hx]
    | some x => simp [Links.loadNext, hx, ih]

namespace Records
variable {d : Detector} {nodes : List ℕ} {held : ℕ → Bool} {fopen : String → String → Bool}

theorem reportLoop_eq (hr : Records d nodes held) (hflag : d.memleakFlag = true) (r : Report) :
    reportLoop d (d.heap.granted + 1) r (d.links.next .head) =
      nodes.dropLast.foldlM (fun r a => reportRecord r (d.info a)) r := by
  have hlen : (nodes.map Loc.node).length < d.heap.granted + 1 := by
    rw [List.length_map]
    exact Nat.lt_succ_of_le hr.bound
  rw [reportLoop_eq_traverse, Links.traverse_ring (hr.isRing hflag) _ hr.ok r hlen,
    ← List.map_dropLast, List.foldlM_map]
  rfl

theorem leakReport_eq (hr : Records d nodes held) (hflag : d.memleakFlag = true)
    (hopen : fopen outputFile "wt" = true) : leakReport d fopen = nodes.dropLast.foldlM
      (fun r a => reportRecord r (d.info a)) ⟨written summaryTexts, [], []⟩ := by
  have hhead : d.links.loadNext d.ok (.addr .head) = some (d.links.next .head) :=
    Links.loadNext_addr _ rfl
  have hshort : ∀ text ∈ summaryTexts, text.length < 1024 := by decide
  have hsummary := foldlM_write ⟨[], [], []⟩ hshort
  simp only [leakReport, hhead, hopen, if_true, hsummary, Option.bind_eq_bind, Option.bind_some,
    List.nil_append]
  exact hr.reportLoop_eq hflag _

end Records

section
variable {d : Detector} {nodes l : List ℕ} {held : ℕ → Bool} {r r' : Report}
  {fopen : String → String → Bool}

theorem foldlM_record_file (h : l.foldlM (fun r a => reportRecord r (d.info a)) r = some r') :
    r'.file = r.file ++ l.flatMap fun a => written (recordTexts (d.info a)) := by
  induction l generalizing r with
  | nil =>
    obtain rfl : r = r' := by simpa using h
    simp
  | cons a l ih =>
    rw [List.foldlM_cons] at h
    obtain ⟨r₁, hrec, hrest⟩ := Option.bind_eq_some_iff.mp h
    rw [ih hrest, reportRecord_file hrec, List.flatMap_cons, List.append_assoc]

theorem foldlM_record_named (hn : ∀ a ∈ l, (d.info a).Named) (r : Report) :
    l.foldlM (fun r a => reportRecord r (d.info a)) r =
      some ⟨r.file ++ l.flatMap fun a => written (recordTexts (d.info a)),
        r.stdout ++ l.flatMap fun _ => ascii "HIT\n", r.perror⟩ := by
  induction l generalizing r with
  | nil => simp
  | cons a l ih =>
    have hrec := ih (fun b hb => hn b (List.mem_cons_of_mem a hb))
      ⟨r.file ++ written (recordTexts (d.info a)), r.stdout ++ ascii "HIT\n", r.perror⟩
    rw [List.foldlM_cons, reportRecord_named (hn a (by simp))]
    simpa using hrec

theorem leakReport_file (hr : Records d nodes held) (hflag : d.memleakFlag = true)
    (hopen : fopen outputFile "wt" = true) (h : leakReport d fopen = some r) :
    r.file = reportOf d nodes.dropLast := by
  rw [hr.leakReport_eq hflag hopen] at h
  exact foldlM_record_file h

theorem leakReport_named (hr : Records d nodes held) (hflag : d.memleakFlag = true)
    (hopen : fopen outputFile "wt" = true) (hn : ∀ a ∈ nodes, (d.info a).Named) :
    leakReport d fopen = some ⟨reportOf d nodes.dropLast,
      nodes.dropLast.flatMap fun _ => ascii "HIT\n", []⟩ := by
  rw [hr.leakReport_eq hflag hopen]
  exact foldlM_record_named (fun a ha => hn a (List.mem_of_mem_dropLast ha)) _

theorem written_ne_nil (m : MemInfo) : written (recordTexts m) ≠ [] := by
  simp [written, recordTexts]

theorem reportOf_dropLast_ne (d : Detector) (hne : nodes ≠ []) :
    reportOf d nodes.dropLast ≠ reportOf d nodes := by
  intro h
  have hsplit : nodes.flatMap (fun a => written (recordTexts (d.info a))) =
      nodes.dropLast.flatMap (fun a => written (recordTexts (d.info a))) ++
        written (recordTexts (d.info (nodes.getLast hne))) := by
    conv_lhs => rw [← List.dropLast_append_getLast hne]
    simp
  have htail := List.append_cancel_left h
  rw [hsplit] at htail
  exact written_ne_nil (d.info (nodes.getLast hne)) (by simpa using htail)

theorem one_block : ∃ d, xmalloc blankStart 8 9 16 (.ones 1 0 1) = some (8, d) ∧
      Records d [9] (fun a => decide (a = 8)) ∧ d.memleakFlag = true := by
  have hnull : (⟨fun _ => false, fun _ => 0, 0⟩ : Arena).live 0 = false := rfl
  have hfirst : Op.Allocates (.xmalloc 8 9 16 (.ones 1 0 1)) := by exact trivial
  have hends : Op.Ends (.xmalloc 8 9 16 (.ones 1 0 1)) := by
    rintro site ⟨⟩
    exact Site.ones_ends (by decide) 0 1
  obtain ⟨d, hstep, hr⟩ := start_step hnull ⟨fun _ => .poison 0, fun _ => .poison 0⟩
    (fun _ => ⟨0, 0, [], 0⟩) hfirst (by simp [Legal, Book.Fresh, Book.Live, Book.blocks]) hends
  have hheld : (⟨[(9, 8)], fun _ => false⟩ : Book).held = fun a => decide (a = 8) := by
    funext a
    simp [Book.held, Book.tracked]
  have hrec : Records d [9] (⟨[(9, 8)], fun _ => false⟩ : Book).held := hr.records
  rw [hheld] at hrec
  exact ⟨d, hstep, hrec, hr.flag⟩

/-- The report has an entry for every record only when there is none. -/
theorem leakReport_complete_iff (hr : Records d nodes held) (hflag : d.memleakFlag = true)
    (hopen : fopen outputFile "wt" = true) :
    (∃ r, leakReport d fopen = some r ∧ r.file = reportOf d nodes) ↔ nodes = [] := by
  constructor
  · rintro ⟨r, hrep, hfile⟩
    by_contra hne
    rw [leakReport_file hr hflag hopen hrep] at hfile
    exact reportOf_dropLast_ne d hne hfile
  · rintro rfl
    exact ⟨_, hr.leakReport_eq hflag hopen, by simp [reportOf]⟩

theorem leakReport_complete_one : ∃ d, xmalloc blankStart 8 9 16 (.ones 1 0 1) = some (8, d) ∧
      Records d [9] (fun a => decide (a = 8)) ∧
      ((∃ r, leakReport d (fun _ _ => true) = some r ∧ r.file = reportOf d [9]) ↔ [9] = []) := by
  obtain ⟨d, hcall, hr, hflag⟩ := one_block
  exact ⟨d, hcall, hr, leakReport_complete_iff hr hflag rfl⟩

/-- The only block in use is not reported. -/
theorem leakReport_misses_block : ∃ d, xmalloc blankStart 8 9 16 (.ones 1 0 1) = some (8, d) ∧
      Records d [9] (fun a => decide (a = 8)) ∧ d.memleakFlag = true ∧
      leakReport d (fun _ _ => true) = some ⟨reportOf d [], [], []⟩ ∧
      reportOf d [] ≠ reportOf d [9] := by
  obtain ⟨d, hcall, hr, hflag⟩ := one_block
  have hne := reportOf_dropLast_ne d (List.cons_ne_nil 9 [])
  refine ⟨d, hcall, hr, hflag, ?_, hne⟩
  rw [hr.leakReport_eq hflag rfl]
  simp [reportOf]

theorem clear_nil (hr : Records d [] held) (hflag : d.memleakFlag = true) :
    clear d = some d := by
  have hring : d.links.next .head = .addr .head := (hr.isRing hflag).next_head
  simp [clear, clearLoop, Links.loadNext_addr _ d.ok_head, hring]

theorem clear_undefined (hr : Records d nodes held) (hflag : d.memleakFlag = true)
    (hne : nodes ≠ []) : clear d = none := by
  obtain ⟨a, l, rfl⟩ := List.exists_cons_of_ne_nil hne
  have hring : d.links.next .head = .addr (.node a) := (hr.isRing hflag).next_head
  simp [clear, clearLoop, Links.loadNext_addr _ d.ok_head, Ptr.deref_addr d.ok_head, hring,
    freeNode]

theorem clear_empties_iff (hr : Records d nodes held) (hflag : d.memleakFlag = true) :
    (∃ d', clear d = some d' ∧ d'.memleakFlag = true ∧ Records d' [] held) ↔ nodes = [] := by
  constructor
  · rintro ⟨d', hclear, -⟩
    by_contra hne
    rw [clear_undefined hr hflag hne] at hclear
    cases hclear
  · rintro rfl
    exact ⟨d, clear_nil hr hflag, hflag, hr⟩

theorem clear_empties_one : ∃ d, xmalloc blankStart 8 9 16 (.ones 1 0 1) = some (8, d) ∧
      Records d [9] (fun a => decide (a = 8)) ∧
      ((∃ d', clear d = some d' ∧ d'.memleakFlag = true ∧
        Records d' [] fun a => decide (a = 8)) ↔ [9] = []) := by
  obtain ⟨d, hcall, hr, hflag⟩ := one_block
  exact ⟨d, hcall, hr, clear_empties_iff hr hflag⟩

theorem clear_frees_head : ∃ d, xmalloc blankStart 8 9 16 (.ones 1 0 1) = some (8, d) ∧
      Records d [9] (fun a => decide (a = 8)) ∧ d.memleakFlag = true ∧ clear d = none := by
  obtain ⟨d, hcall, hr, hflag⟩ := one_block
  exact ⟨d, hcall, hr, hflag, clear_undefined hr hflag (List.cons_ne_nil 9 [])⟩

theorem reportMemLeak_defined_iff (hr : Records d nodes held) (hflag : d.memleakFlag = true)
    (hopen : fopen outputFile "wt" = true) :
    (∃ r d', reportMemLeak d fopen = some (r, d')) ↔ nodes = [] := by
  constructor
  · rintro ⟨r, d', hrep⟩
    by_contra hne
    simp only [reportMemLeak, clear_undefined hr hflag hne, Option.bind_eq_bind] at hrep
    cases hl : leakReport d fopen with
    | none => simp [hl] at hrep
    | some r' => simp [hl] at hrep
  · rintro rfl
    have hrep := hr.leakReport_eq hflag hopen
    simp only [List.dropLast_nil, List.foldlM_nil, Option.pure_def] at hrep
    exact ⟨⟨written summaryTexts, [], []⟩, d, by simp [reportMemLeak, hrep, clear_nil hr hflag]⟩

end
end KernelHashtable.Leak
