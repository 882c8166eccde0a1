import KernelHashtable.LeakStart

/-!
# The file names of the records

`strncpy` is given one byte less than the local array has, and that byte is left as it was.
`strcpy` ends at it or not at all if the name fills the rest; past it the copy has no meaning.
-/

namespace KernelHashtable.Leak

/-- `old` and `new` are the array of the record before and after the copy. -/
structure NameStored (site : Site) (old new : List UInt8) : Prop where
  string : cString new = site.file.take fileNameLength
  ends : 0 ∈ new.take (fileNameLength + 1)
  reads : strcpyExtent site.copied ≤ fileNameLength + 1
  writes : new.drop (fileNameLength + 1) = old.drop (fileNameLength + 1)

theorem nameStored_iff (site : Site) (old : List UInt8) :
    NameStored site old (strcpy old site.copied) ↔ site.Ends := by
  rw [← site.extent_le_iff]
  refine ⟨fun hs => hs.reads, fun hreads => ⟨?_, strcpy_ends hreads, hreads, strcpy_drop hreads⟩⟩
  rw [cString_strcpy, Site.copied_string (site.extent_le_iff.mp hreads)]

/-- Whatever the local array and the record held, the copy stores the name without a byte read or
written outside the arrays exactly where the name leaves room for the zero or the last byte of
the local array is one. Every call with a meaning has done so, and on a ledger those are all. -/
theorem addMemInfo_nameStored_iff (d : Detector) (new memRef : ℕ) (size : UInt32) (site : Site) :
    (NameStored site (d.info new).fileName (strcpy (d.info new).fileName site.copied) ↔
        site.Ends) ∧
      (∀ d', addMemInfo d new memRef size site = some d' →
        NameStored site (d.info new).fileName (d'.info new).fileName) ∧
      ∀ nodes held, Records d nodes held → new ≠ 0 → d.heap.live new = false →
        ((∃ d', addMemInfo d new memRef size site = some d') ↔ site.Ends) := by
  have hcopy := nameStored_iff site (d.info new).fileName
  refine ⟨hcopy, fun d' hadd => ?_, fun nodes held hr hnew0 hnew => ?_⟩
  · obtain ⟨-, hends, -, hinfo⟩ := addMemInfo_some hadd
    have hname : (d'.info new).fileName = strcpy (d.info new).fileName site.copied := by
      rw [hinfo, Function.update_self]
      rfl
    rw [hname]
    exact hcopy.mpr hends
  · refine ⟨fun ⟨d', hadd⟩ => (addMemInfo_some hadd).2.1, fun hends => ?_⟩
    obtain ⟨links, hadd, -⟩ := hr.addMemInfo hnew0 hnew memRef size hends
    exact ⟨_, hadd⟩

theorem addMemInfo_nameStored_short : ∃ d',
    addMemInfo blankStart 9 8 16 (.ones 511 0 1) = some d' ∧
    NameStored (.ones 511 0 1) (blankStart.info 9).fileName (d'.info 9).fileName := by
  have hr : Records blankStart [] fun _ => false :=
    start_records (show (⟨fun _ => false, fun _ => 0, 0⟩ : Arena).live 0 = false from rfl) _ _
  obtain ⟨-, hstored, hdefined⟩ := addMemInfo_nameStored_iff blankStart 9 8 16 (.ones 511 0 1)
  obtain ⟨d', hadd⟩ := (hdefined _ _ hr (by decide) rfl).mpr (Site.ones_ends (by decide) 0 1)
  exact ⟨d', hadd, hstored d' hadd⟩

theorem addMemInfo_overruns : strcpyExtent (Site.ones 512 0 1).copied = 514 ∧
    ¬ NameStored (.ones 512 0 1) (blankStart.info 9).fileName
      (strcpy (blankStart.info 9).fileName (Site.ones 512 0 1).copied) ∧
    addMemInfo blankStart 9 8 16 (.ones 512 0 1) = none := by
  obtain ⟨hover, hextent⟩ := Site.ones_overrun 0 1
  refine ⟨hextent, fun hs => hover ((nameStored_iff _ _).mp hs), ?_⟩
  cases hadd : addMemInfo blankStart 9 8 16 (.ones 512 0 1) with
  | none => rfl
  | some d' => exact absurd (addMemInfo_some hadd).2.1 hover

end KernelHashtable.Leak
