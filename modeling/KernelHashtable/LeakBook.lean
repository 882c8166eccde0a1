import KernelHashtable.LeakRecords
import Mathlib.Data.List.Flatten

/-!
# The book of the leak detector

A `Book` is what the ledger should say: the pairs of a record and the block it is about,
the latest last, and the live blocks that the wrappers have not returned. `Accounted` ties
it to the allocator and to the contents of the records, whatever their links are.
-/

namespace KernelHashtable.Leak
open KList

structure Book where
  entries : List (ℕ × ℕ)
  foreign : ℕ → Bool

namespace Book

def tracked (b : Book) : List ℕ := b.entries.map Prod.snd

def records (b : Book) : List ℕ := b.entries.map Prod.fst

def blocks (b : Book) : List ℕ := b.entries.flatMap fun e => [e.1, e.2]

def Live (b : Book) (a : ℕ) : Prop := a ∈ b.blocks ∨ b.foreign a = true

def Fresh (b : Book) (a : ℕ) : Prop := a ≠ 0 ∧ ¬ b.Live a

def held (b : Book) (a : ℕ) : Bool := decide (a ∈ b.tracked) || b.foreign a

def Releasable (b : Book) (p : ℕ) : Prop := p = 0 ∨ p ∈ b.tracked ∨ b.foreign p = true

def enter (b : Book) (new ptr : ℕ) : Book := { b with entries := b.entries ++ [(new, ptr)] }

def strike (b : Book) (p : ℕ) : Book :=
  { b with entries := b.entries.filter fun e => decide (e.2 ≠ p) }

def lend (b : Book) (a : ℕ) (v : Bool) : Book :=
  { b with foreign := Function.update b.foreign a v }

def release (b : Book) (p : ℕ) : Book := (b.strike p).lend p false

end Book

def recordLocs (b : Book) : List (Loc ℕ) := b.entries.map fun e => .node e.1

structure Accounted (d : Detector) (b : Book) : Prop where
  address : ∀ e ∈ b.entries, (d.info e.1).address = e.2
  live_iff : ∀ a, d.heap.live a = true ↔ b.Live a
  nodup : b.blocks.Nodup
  apart : ∀ a ∈ b.blocks, b.foreign a = false
  null : d.heap.live 0 = false
  bound : b.entries.length ≤ d.heap.granted

section
variable {b : Book} {p a : ℕ} {e : ℕ × ℕ}

theorem mem_blocks : a ∈ b.blocks ↔ ∃ e ∈ b.entries, a = e.1 ∨ a = e.2 := by
  simp [Book.blocks]

theorem mem_blocks_iff : a ∈ b.blocks ↔ a ∈ b.records ∨ a ∈ b.tracked := by
  simp only [mem_blocks, Book.records, Book.tracked, List.mem_map]
  constructor
  · rintro ⟨e, he, rfl | rfl⟩
    · exact Or.inl ⟨e, he, rfl⟩
    · exact Or.inr ⟨e, he, rfl⟩
  · rintro (⟨e, he, rfl⟩ | ⟨e, he, rfl⟩)
    · exact ⟨e, he, Or.inl rfl⟩
    · exact ⟨e, he, Or.inr rfl⟩

theorem live_iff_held : b.Live a ↔ a ∈ b.records ∨ b.held a = true := by
  rw [Book.Live, mem_blocks_iff, Book.held, Bool.or_eq_true, decide_eq_true_eq, or_assoc]

theorem recordLocs_eq (b : Book) : recordLocs b = b.records.map .node := by
  rw [recordLocs, Book.records, List.map_map]
  rfl

theorem tracked_mem_blocks (ha : a ∈ b.tracked) : a ∈ b.blocks := by
  obtain ⟨e, he, rfl⟩ := List.mem_map.mp ha
  exact mem_blocks.mpr ⟨e, he, Or.inr rfl⟩

theorem tracked_enter (new ptr : ℕ) : (b.enter new ptr).tracked = b.tracked ++ [ptr] := by
  simp [Book.enter, Book.tracked]

theorem tracked_release (p : ℕ) :
    (b.release p).tracked = b.tracked.filter fun a => decide (a ≠ p) := by
  simp only [Book.release, Book.lend, Book.strike, Book.tracked, List.filter_map]
  rfl

theorem blocks_enter (new ptr : ℕ) : (b.enter new ptr).blocks = b.blocks ++ [new, ptr] := by
  simp [Book.enter, Book.blocks]

theorem blocks_split {A B : List (ℕ × ℕ)} (hb : b.entries = A ++ e :: B) :
    b.blocks.Perm (e.1 :: e.2 :: (A ++ B).flatMap fun e => [e.1, e.2]) := by
  have hmid : (A ++ e :: B).Perm (e :: (A ++ B)) := List.perm_middle
  rw [Book.blocks, hb]
  exact hmid.flatMap_right _

theorem split_other {A B : List (ℕ × ℕ)} (hnd : b.blocks.Nodup) (hb : b.entries = A ++ e :: B) :
    ∀ f ∈ A ++ B, f.2 ≠ e.2 := by
  obtain ⟨-, hrest⟩ := List.nodup_cons.mp ((blocks_split hb).nodup_iff.mp hnd)
  intro f hf hfe
  refine (List.nodup_cons.mp hrest).1 (hfe ▸ List.mem_flatMap.mpr ⟨f, hf, ?_⟩)
  simp

theorem strike_split {A B : List (ℕ × ℕ)} (hnd : b.blocks.Nodup)
    (hb : b.entries = A ++ e :: B) :
    (b.strike e.2).entries = A ++ B := by
  have hout := split_other hnd hb
  have hA : A.filter (fun f => decide (f.2 ≠ e.2)) = A :=
    List.filter_eq_self.mpr fun f hf => decide_eq_true (hout f (by simp [hf]))
  have hB : B.filter (fun f => decide (f.2 ≠ e.2)) = B :=
    List.filter_eq_self.mpr fun f hf => decide_eq_true (hout f (by simp [hf]))
  simp only [Book.strike, hb, List.filter_append, hA, List.filter_cons, hB]
  simp

theorem strike_untracked (hp : p ∉ b.tracked) : b.strike p = b := by
  have hall : b.entries.filter (fun e => decide (e.2 ≠ p)) = b.entries :=
    List.filter_eq_self.mpr fun e he =>
      decide_eq_true fun h => hp (h ▸ List.mem_map_of_mem he)
  rw [Book.strike, hall]

end

/-- What is left when the record of `p` has gone: a tracked block is now anybody's. -/
def Book.disown (b : Book) (p : ℕ) : Book :=
  (b.strike p).lend p (b.foreign p || decide (p ∈ b.tracked))

theorem disown_untracked {b : Book} {p : ℕ} (hp : p ∉ b.tracked) : b.disown p = b := by
  rw [Book.disown, strike_untracked hp, Book.lend]
  simp [hp]

theorem disown_lend (b : Book) (p : ℕ) : (b.disown p).lend p false = b.release p := by
  simp [Book.disown, Book.release, Book.lend, Book.strike]

theorem disown_tracked (b : Book) (p : ℕ) :
    (b.disown p).tracked = b.tracked.filter fun a => decide (a ≠ p) :=
  (tracked_release (b := b) p).symm ▸ rfl

namespace Accounted
variable {d : Detector} {b : Book} {p a n : ℕ} {e : ℕ × ℕ}

theorem live_ne_zero (ha : Accounted d b) (hl : b.Live a) : a ≠ 0 := by
  rintro rfl
  have hnull := ha.null
  rw [(ha.live_iff 0).mpr hl] at hnull
  cases hnull

theorem not_live (ha : Accounted d b) (hf : b.Fresh a) : d.heap.live a = false :=
  Bool.eq_false_iff.mpr fun hl => hf.2 ((ha.live_iff a).mp hl)

theorem hold (ha : Accounted d b) (hf : b.Fresh a) (n : ℕ) :
    Accounted { d with heap := d.heap.hold a n } (b.lend a true) := by
  refine ⟨ha.address, fun c => ?_, ha.nodup, fun c hc => ?_, ?_, ?_⟩
  · rw [Arena.hold_live, Bool.or_eq_true, ha.live_iff, decide_eq_true_eq]
    by_cases hc : c = a
    · simp [Book.Live, Book.lend, hc]
    · simp [Book.Live, Book.lend, Book.blocks, hc]
  · have hca : c ≠ a := fun h => hf.2 (Or.inl (h ▸ hc))
    simpa [Book.lend, hca] using ha.apart c hc
  · simpa [ha.null] using hf.1.symm
  · exact Nat.le_succ_of_le ha.bound

theorem free (ha : Accounted d b) (hp : b.foreign p = true) :
    d.heap.free p = some (d.heap.drop p) ∧
      Accounted { d with heap := d.heap.drop p } (b.lend p false) := by
  have hl : b.Live p := Or.inr hp
  refine ⟨Arena.free_ok (ha.live_ne_zero hl) ((ha.live_iff p).mpr hl), ha.address, fun c => ?_,
    ha.nodup, fun c hc => ?_, by simp [ha.null], ha.bound⟩
  · rw [Arena.drop_live, Bool.and_eq_true, ha.live_iff, decide_eq_true_eq]
    by_cases hc : c = p
    · have hout : p ∉ b.blocks := fun h => by simp [ha.apart p h] at hp
      simp [Book.Live, Book.lend, Book.blocks, hc] at hout ⊢
      exact hout
    · simp [Book.Live, Book.lend, Book.blocks, hc]
  · by_cases hcp : c = p
    · simp [Book.lend, hcp]
    · simpa [Book.lend, hcp] using ha.apart c hc

theorem enter {new ptr m : ℕ} (ha : Accounted d b) (hptr : b.Fresh ptr) (hnew : b.Fresh new)
    (hne : new ≠ ptr) (links : Links (Loc ℕ)) (flag : Bool) {info : ℕ → MemInfo}
    (hinfo : (info new).address = ptr) (hother : ∀ r, r ≠ new → info r = d.info r) :
    Accounted ⟨(d.heap.hold ptr n).hold new m, links, info, flag⟩ (b.enter new ptr) := by
  have hout : ∀ c ∈ b.blocks, c ≠ new ∧ c ≠ ptr := fun c hc =>
    ⟨fun h => hnew.2 (Or.inl (h ▸ hc)), fun h => hptr.2 (Or.inl (h ▸ hc))⟩
  refine ⟨fun e he => ?_, fun c => ?_, ?_, fun c hc => ?_, ?_, ?_⟩
  · rcases List.mem_append.mp he with he | he
    · have hen : e.1 ≠ new := (hout e.1 (mem_blocks.mpr ⟨e, he, Or.inl rfl⟩)).1
      exact (congrArg MemInfo.address (hother e.1 hen)).trans (ha.address e he)
    · rw [List.mem_singleton.mp he]
      exact hinfo
  · rw [Arena.hold_live, Arena.hold_live, Bool.or_eq_true, Bool.or_eq_true, ha.live_iff,
      decide_eq_true_eq, decide_eq_true_eq, Book.Live, Book.Live, blocks_enter]
    simp only [List.mem_append, List.mem_cons, List.not_mem_nil, or_false, Book.enter]
    tauto
  · rw [blocks_enter]
    refine List.nodup_append.mpr ⟨ha.nodup, by simpa using hne, fun c hc c' hc' h => ?_⟩
    obtain ⟨hcn, hcp⟩ := hout c hc
    simp only [List.mem_cons, List.not_mem_nil, or_false] at hc'
    rcases hc' with rfl | rfl
    · exact hcn h
    · exact hcp h
  · have hfor : ∀ c, b.Fresh c → b.foreign c = false := fun c hc =>
      Bool.eq_false_iff.mpr fun h => hc.2 (Or.inr h)
    rw [blocks_enter] at hc
    rcases List.mem_append.mp hc with hc | hc
    · exact ha.apart c hc
    · simp only [List.mem_cons, List.not_mem_nil, or_false] at hc
      rcases hc with rfl | rfl
      · exact hfor c hnew
      · exact hfor c hptr
  · simpa [ha.null] using ⟨hptr.1.symm, hnew.1.symm⟩
  · have hbound := ha.bound
    simp only [Book.enter, List.length_append, List.length_singleton, Arena.hold_granted]
    omega

theorem records (ha : Accounted d b)
    (hring : if d.memleakFlag then IsRing d.links .head (recordLocs b) else b.entries = []) :
    Records d b.records b.held := by
  refine ⟨?_, fun a => (ha.live_iff a).trans live_iff_held, fun a har => ?_, ha.null, ?_⟩
  · split_ifs at hring ⊢
    · rwa [← recordLocs_eq]
    · rw [Book.records, hring]
      rfl
  · obtain ⟨e, he, rfl⟩ := List.mem_map.mp har
    obtain ⟨A, B, hb⟩ := List.append_of_mem he
    have hnd := (blocks_split hb).nodup_iff.mp ha.nodup
    have hout : e.1 ∉ b.tracked := by
      intro ht
      obtain ⟨f, hf, hfe⟩ := List.mem_map.mp ht
      apply (List.nodup_cons.mp hnd).1
      rw [hb, List.mem_append, List.mem_cons] at hf
      rcases hf with hf | rfl | hf
      · exact List.mem_cons_of_mem _ (List.mem_flatMap.mpr ⟨f, by simp [hf], by simp [hfe]⟩)
      · exact hfe ▸ List.mem_cons_self
      · exact List.mem_cons_of_mem _ (List.mem_flatMap.mpr ⟨f, by simp [hf], by simp [hfe]⟩)
    have hfor := ha.apart e.1 (mem_blocks_iff.mpr (Or.inl har))
    simp [Book.held, hout, hfor]
  · rw [Book.records, List.length_map]
    exact ha.bound

end Accounted

section
variable {d : Detector} {b : Book} {p : ℕ}

theorem Records.accounted (hr : Records d b.records b.held)
    (haddress : ∀ e ∈ b.entries, (d.info e.1).address = e.2) (hnd : b.blocks.Nodup)
    (hfor : ∀ a ∈ b.tracked, b.foreign a = false) : Accounted d b := by
  refine ⟨haddress, fun a => (hr.live_iff a).trans live_iff_held.symm, hnd, fun a ha => ?_,
    hr.null, ?_⟩
  · rcases mem_blocks_iff.mp ha with har | hat
    · have hheld := hr.apart a har
      rw [Book.held, Bool.or_eq_false_iff] at hheld
      exact hheld.2
    · exact hfor a hat
  · have hbound := hr.bound
    rwa [Book.records, List.length_map] at hbound

theorem disown_held (b : Book) (p : ℕ) : (b.disown p).held = b.held := by
  funext a
  have hforeign : (b.disown p).foreign =
      Function.update b.foreign p (b.foreign p || decide (p ∈ b.tracked)) := rfl
  rw [Book.held, Book.held, disown_tracked, hforeign]
  by_cases ha : a = p
  · simp [ha, Bool.or_comm]
  · simp [ha]

theorem disown_blocks_sublist (b : Book) (p : ℕ) : (b.disown p).blocks.Sublist b.blocks :=
  List.filter_sublist.flatMap _

theorem Accounted.records_disown (ha : Accounted d b) (p : ℕ) :
    b.records.eraseP (d.about p) = (b.disown p).records := by
  by_cases hp : p ∈ b.tracked
  · obtain ⟨e, he, rfl⟩ := List.mem_map.mp hp
    obtain ⟨A, B, hb⟩ := List.append_of_mem he
    have hentries : (b.disown e.2).entries = A ++ B := strike_split ha.nodup hb
    have hA : ∀ r ∈ A.map Prod.fst, ¬ d.about e.2 r = true := by
      intro r hr
      obtain ⟨f, hf, rfl⟩ := List.mem_map.mp hr
      have hother := split_other ha.nodup hb f (by simp [hf])
      simpa [Detector.about, ha.address f (by simp [hb, hf])] using hother
    have hfirst : d.about e.2 e.1 = true := by simp [Detector.about, ha.address e he]
    rw [Book.records, Book.records, hentries, hb, List.map_append, List.map_cons,
      List.eraseP_append_right _ hA, List.eraseP_cons_of_pos hfirst, List.map_append]
  · rw [disown_untracked hp]
    apply List.eraseP_of_forall_not
    intro r hr
    obtain ⟨e, he, rfl⟩ := List.mem_map.mp hr
    have hne : e.2 ≠ p := fun h => hp (h ▸ List.mem_map_of_mem he)
    simpa [Detector.about, ha.address e he] using hne

end

end KernelHashtable.Leak
