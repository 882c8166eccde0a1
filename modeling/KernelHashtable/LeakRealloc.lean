import KernelHashtable.LeakStart

/-!
# A reallocation that fails

`xrealloc` takes the record of the old block out before it asks for the new one, and adds a
record without looking at the answer. When `realloc` returns null the ledger has lost the
record of a block that is still allocated, and has gained one for the address 0.
-/

namespace KernelHashtable.Leak
open KList

def MemInfo.shown (m : MemInfo) : MemInfo := { m with fileName := cString m.fileName }

def ledgerOf (d : Detector) : Option (List MemInfo) :=
  (Links.walk d.ok d.links.next .head (d.heap.granted + 1) (d.links.next .head)).map
    fun xs => xs.map fun x => (d.memInfo x).shown

def Site.shown (site : Site) (memRef : ℕ) (size : UInt32) : MemInfo :=
  ⟨memRef, size, site.file.take fileNameLength, site.line⟩

theorem record_shown {site : Site} (hends : site.Ends) (old : MemInfo) (memRef : ℕ)
    (size : UInt32) : (site.record old memRef size).shown = site.shown memRef size := by
  rw [MemInfo.shown, (record_named hends old memRef size).1]
  rfl

section
variable {α : Type} {p : α → Bool} {e n : α} {l B : List α}

theorem concat_eq_cons_iff : B ++ [n] = e :: B ↔ e = n ∧ B = List.replicate B.length n := by
  induction B generalizing e with
  | nil => simp [eq_comm]
  | cons b B ih =>
    rw [List.cons_append, List.cons.injEq, ih, List.length_cons, List.replicate_succ,
      List.cons.injEq]
    constructor
    · rintro ⟨rfl, rfl, hB⟩
      exact ⟨rfl, rfl, hB⟩
    · rintro ⟨rfl, rfl, hB⟩
      exact ⟨rfl, rfl, hB⟩

theorem eraseP_concat_eq_iff : l.eraseP p ++ [n] = l ↔
    p n = true ∧ ∃ A k, l = A ++ List.replicate (k + 1) n ∧ ∀ a ∈ A, p a = false := by
  constructor
  · intro h
    rcases List.exists_or_eq_self_of_eraseP p l with hself | ⟨e, A, B, hA, he, rfl, herase⟩
    · have hlen := congrArg List.length h
      rw [hself, List.length_append, List.length_singleton] at hlen
      omega
    · rw [herase, List.append_assoc] at h
      obtain ⟨rfl, hB⟩ := concat_eq_cons_iff.mp (List.append_cancel_left h)
      refine ⟨he, A, B.length, ?_, fun a ha => by simpa using hA a ha⟩
      rw [List.replicate_succ, ← hB]
  · rintro ⟨hn, A, k, rfl, hA⟩
    rw [List.eraseP_append_right _ (fun a ha => by simp [hA a ha]), List.replicate_succ,
      List.eraseP_cons_of_pos hn, List.append_assoc, ← List.replicate_succ',
      List.replicate_succ]

end

namespace Records
variable {d : Detector} {nodes : List ℕ} {held : ℕ → Bool} {old new : ℕ} {size : UInt32}
  {site : Site}

theorem ledgerOf_eq (hr : Records d nodes held) (hflag : d.memleakFlag = true) :
    ledgerOf d = some (nodes.map fun a => (d.info a).shown) := by
  have hok : ∀ x ∈ nodes.map Loc.node, d.ok x = true := fun x hx =>
    hr.ok x (List.mem_cons_of_mem _ hx)
  have hlen : (nodes.map Loc.node).length < d.heap.granted + 1 := by
    rw [List.length_map]
    exact Nat.lt_succ_of_le hr.bound
  rw [ledgerOf, (hr.isRing hflag).walk_next hok hlen, Option.map_some, List.map_map]
  rfl

theorem xrealloc_denied (hr : Records d nodes held) (hflag : d.memleakFlag = true)
    (hold : old = 0 ∨ held old = true) (hnew0 : new ≠ 0)
    (hnew : new ∉ nodes.eraseP (d.about old) ∧ held new = false) (size : UInt32)
    (hends : site.Ends) : ∃ d', xrealloc d old 0 new size site = some (0, d') ∧ ledgerOf d' =
        some ((nodes.map fun a => (d.info a).shown).eraseP (fun m => decide (m.address = old)) ++
          [site.shown 0 size]) := by
  obtain ⟨d₁, hrem, hr₁, hinfo, -⟩ := hr.removeMemInfo hflag old
  obtain ⟨h, held', hreq, hr₂, hheld⟩ := hr₁.realloc_denied hold size.toNat
  have hlive : h.live new = false := by
    rw [Bool.eq_false_iff, ne_eq, hr₂.live_iff, not_or, hheld new hnew.2]
    exact ⟨hnew.1, by simp⟩
  obtain ⟨links, hadd, hr'⟩ := hr₂.addMemInfo hnew0 hlive 0 size hends
  refine ⟨⟨h.hold new sizeofMemleak, links,
    Function.update d₁.info new (site.record (d₁.info new) 0 size), true⟩,
    by simp [xrealloc, hrem, hreq, hadd], ?_⟩
  have hkept : (nodes.eraseP (d.about old)).map (fun a => (Function.update d₁.info new
      (site.record (d₁.info new) 0 size) a).shown) =
        (nodes.map fun a => (d.info a).shown).eraseP fun m => decide (m.address = old) := by
    rw [List.eraseP_map]
    apply List.map_congr_left
    intro a ha
    have hne : a ≠ new := fun h => hnew.1 (h ▸ ha)
    rw [Function.update_of_ne hne, hinfo]
  rw [hr'.ledgerOf_eq rfl, List.map_append, hkept]
  simp [record_shown hends]

end Records

section
variable {d : Detector} {nodes : List ℕ} {held : ℕ → Bool} {old new : ℕ} {size : UInt32}
  {site : Site}

theorem xrealloc_recorded {ptr : ℕ} {r : ℕ × Detector}
    (hcall : xrealloc d old ptr new size site = some r) : new ≠ 0 ∧ site.Ends := by
  obtain ⟨d₁, -, hrest⟩ := Option.bind_eq_some_iff.mp hcall
  obtain ⟨h, -, hrest⟩ := Option.bind_eq_some_iff.mp hrest
  obtain ⟨d₂, hadd, -⟩ := Option.bind_eq_some_iff.mp hrest
  refine ⟨?_, (addMemInfo_some hadd).2.1⟩
  rintro rfl
  rw [addMemInfo_denied] at hadd
  cases hadd

/-- The ledger is as it was only if the record that comes is one of those that it had at its
end, and no other block of the address 0 was recorded before them. -/
theorem xrealloc_unchanged_iff (hr : Records d nodes held) (hflag : d.memleakFlag = true)
    (hold : old = 0 ∨ held old = true)
    (hnew : new ∉ nodes.eraseP (d.about old) ∧ held new = false) :
    (∃ d', xrealloc d old 0 new size site = some (0, d') ∧ ledgerOf d' = ledgerOf d) ↔
      new ≠ 0 ∧ site.Ends ∧ old = 0 ∧ ∃ A k,
        ledgerOf d = some (A ++ List.replicate (k + 1) (site.shown 0 size)) ∧
          ∀ m ∈ A, m.address ≠ 0 := by
  have hledger := hr.ledgerOf_eq hflag
  constructor
  · rintro ⟨d', hcall, hsame⟩
    obtain ⟨hnew0, hends⟩ := xrealloc_recorded hcall
    obtain ⟨d₁, hcall₁, hafter⟩ := hr.xrealloc_denied hflag hold hnew0 hnew size hends
    obtain rfl : d₁ = d' := (Prod.mk.inj (Option.some.inj (hcall₁.symm.trans hcall))).2
    rw [hafter, hledger] at hsame
    obtain ⟨hn, A, k, hsplit, hA⟩ := eraseP_concat_eq_iff.mp (Option.some.inj hsame)
    have h0 : old = 0 := (of_decide_eq_true hn).symm
    refine ⟨hnew0, hends, h0, A, k, by rw [hledger, hsplit], fun m hm => ?_⟩
    simpa [h0] using hA m hm
  · rintro ⟨hnew0, hends, rfl, A, k, hsplit, hA⟩
    obtain ⟨d', hcall, hafter⟩ := hr.xrealloc_denied hflag hold hnew0 hnew size hends
    refine ⟨d', hcall, ?_⟩
    rw [hafter, hledger]
    refine congrArg some (eraseP_concat_eq_iff.mpr ⟨by simp [Site.shown], A, k, ?_, ?_⟩)
    · exact Option.some.inj (hledger.symm.trans hsplit)
    · intro m hm
      simpa using hA m hm

theorem xrealloc_unchanged_tracked : ∃ d,
    xmalloc blankStart 8 9 16 (.ones 1 0 1) = some (8, d) ∧
      ((∃ d', xrealloc d 8 0 10 32 (.ones 1 0 2) = some (0, d') ∧ ledgerOf d' = ledgerOf d) ↔
        10 ≠ 0 ∧ (Site.ones 1 0 2).Ends ∧ 8 = 0 ∧ ∃ A k, ledgerOf d =
          some (A ++ List.replicate (k + 1) ((Site.ones 1 0 2).shown 0 32)) ∧
            ∀ m ∈ A, m.address ≠ 0) := by
  obtain ⟨d, hcall, hr, hflag⟩ := one_block
  have hout : 10 ∉ [9].eraseP (d.about 8) := by
    intro h
    simpa using List.mem_of_mem_eraseP h
  exact ⟨d, hcall, xrealloc_unchanged_iff hr hflag (Or.inr rfl) ⟨hout, rfl⟩⟩

theorem xrealloc_loses_record : ∃ d d',
    xmalloc blankStart 8 9 16 (.ones 1 0 1) = some (8, d) ∧
      ledgerOf d = some [⟨8, 16, [97], 1⟩] ∧
      xrealloc d 8 0 10 32 (.ones 1 0 2) = some (0, d') ∧ d'.heap.live 8 = true ∧
      ledgerOf d' = some [⟨0, 32, [97], 2⟩] := by
  exact ⟨_, _, rfl, rfl, rfl, rfl, rfl⟩

end

end KernelHashtable.Leak
