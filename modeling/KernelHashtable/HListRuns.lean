import KernelHashtable.HList
import Mathlib.Data.Fintype.Basic

/-!
# Runs over a family of hash lists

All the operations of list.h on hash lists, in any order and on any lists of a memory. A node
that is in no list is known only when it has been initialised, or has been made to look as if
it were in one by `hlist_add_fake`.
-/

namespace KernelHashtable.HList
open KList (listPoison1 listPoison2)

variable {β α : Type} [DecidableEq β] [DecidableEq α]

section
variable (okHead : β → Bool) (okNode : α → Bool) (M : Buckets β α)

def hlistAddBefore (n : α) (next : Ptr α) : Option (Buckets β α) := do
  let M ← storePprev okNode M (.addr n) (← loadPprev okNode M next)
  let M ← storeNext okNode M (.addr n) next
  let M ← storePprev okNode M next (.addr (.next n))
  storeCell okHead okNode M (← loadPprev okNode M (.addr n)) (.addr n)

def hlistAddBehind (n prev : α) : Option (Buckets β α) := do
  let M ← storeNext okNode M (.addr n) (← loadNext okNode M (.addr prev))
  let M ← storeNext okNode M (.addr prev) (.addr n)
  let M ← storePprev okNode M (.addr n) (.addr (.next prev))
  let next ← loadNext okNode M (.addr n)
  if next = .null then return M else storePprev okNode M next (.addr (.next n))

def hlistAddFake (n : α) : Option (Buckets β α) :=
  storePprev okNode M (.addr n) (.addr (.next n))

def hlistFake (h : α) : Option Bool := do
  let pprev ← loadPprev okNode M (.addr h)
  return decide (pprev = .addr (.next h))

def hlistMoveList (old new : β) : Option (Buckets β α) := do
  let M ← storeFirst okHead M new (← loadFirst okHead M old)
  let first ← loadFirst okHead M new
  let M ← if first = .null then some M else storePprev okNode M first (.addr (.first new))
  storeFirst okHead M old .null

end

section
variable (okHead : β → Bool) (okNode : α → Bool) (M : Buckets β α)

def collectNode (xs : List α) (x : α) : Option (List α × Bool) := some (xs ++ [x], false)

def hlistForEach (fuel : ℕ) (head : β) : Option (List α) := do
  let pos ← loadFirst okHead M head
  let (_, xs) ← hlistForEachEntry (fun _ p => loadNext okNode M p) collectNode fuel pos []
  return xs

def hlistForEachEntryFrom (fuel : ℕ) (pos : Ptr α) : Option (List α) := do
  let (_, xs) ← hlistForEachEntry (fun _ p => loadNext okNode M p) collectNode fuel pos []
  return xs

def hlistForEachEntryContinue (fuel : ℕ) (pos : Ptr α) : Option (List α) := do
  let pos ← loadNext okNode M pos
  hlistForEachEntryFrom okNode M fuel pos

end

inductive HlistOp (β α : Type) where
  | initHead (h : β)
  | initNode (n : α)
  | addHead (n : α) (h : β)
  | addBefore (n next : α)
  | addBehind (n prev : α)
  | addFake (n : α)
  | del (n : α)
  | delInit (n : α)
  | moveList (old new : β)
  | empty (h : β)
  | unhashed (n : α)
  | fake (n : α)
  deriving DecidableEq

section
variable (okHead : β → Bool) (okNode : α → Bool)

def hlistOpStep (M : Buckets β α) : HlistOp β α → Option (Option Bool × Buckets β α)
  | .initHead h => (initHlistHead okHead M h).map fun M => (none, M)
  | .initNode n => (initHlistNode okNode M (.addr n)).map fun M => (none, M)
  | .addHead n h => (hlistAddHead okHead okNode M n h).map fun M => (none, M)
  | .addBefore n next => (hlistAddBefore okHead okNode M n (.addr next)).map fun M => (none, M)
  | .addBehind n prev => (hlistAddBehind okNode M n prev).map fun M => (none, M)
  | .addFake n => (hlistAddFake okNode M n).map fun M => (none, M)
  | .del n => (hlistDel okHead okNode M (.addr n)).map fun M => (none, M)
  | .delInit n => (hlistDelInit okHead okNode M (.addr n)).map fun M => (none, M)
  | .moveList old new => (hlistMoveList okHead okNode M old new).map fun M => (none, M)
  | .empty h => (hlistEmpty okHead M h).map fun b => (some b, M)
  | .unhashed n => (hlistUnhashed okNode M (.addr n)).map fun b => (some b, M)
  | .fake n => (hlistFake okNode M n).map fun b => (some b, M)

end

/-- The lists by their heads, and what is known of the nodes that are in none: `false` of one
that has been initialised, `true` of one that has been given a fake list. -/
structure Hlists (β α : Type) where
  lists : β → Option (List α)
  spare : α → Option Bool

namespace Hlists

def nodes (a : Hlists β α) (b : β) : List α := (a.lists b).getD []

def Linked (a : Hlists β α) (n : α) : Prop := ∃ b xs, a.lists b = some xs ∧ n ∈ xs

def edit (a : Hlists β α) (x : α) (f : List α → List α) : β → Option (List α) :=
  fun b => (a.lists b).map fun xs => if x ∈ xs then f xs else xs

def spec (a : Hlists β α) : HlistOp β α → Option Bool × Hlists β α
  | .initHead h => (none, { a with lists := Function.update a.lists h (some []) })
  | .initNode n => (none, { a with spare := Function.update a.spare n (some false) })
  | .addHead n h => (none, ⟨Function.update a.lists h (some (n :: a.nodes h)),
      Function.update a.spare n none⟩)
  | .addBefore n next => (none, ⟨a.edit next fun xs => xs.insertIdx (xs.idxOf next) n,
      Function.update a.spare n none⟩)
  | .addBehind n prev => (none, ⟨a.edit prev fun xs => xs.insertIdx (xs.idxOf prev + 1) n,
      Function.update a.spare n none⟩)
  | .addFake n => (none, { a with spare := Function.update a.spare n (some true) })
  | .del n => (none, ⟨a.edit n (·.erase n), Function.update a.spare n none⟩)
  | .delInit n => (none, ⟨a.edit n (·.erase n), Function.update a.spare n (some false)⟩)
  | .moveList old new =>
    (none, ⟨Function.update (Function.update a.lists new (a.lists old)) old (some []), a.spare⟩)
  | .empty h => (some (decide (a.lists h = some [])), a)
  | .unhashed n => (some (decide (a.spare n = some false)), a)
  | .fake n => (some (decide (a.spare n = some true)), a)

/-- What is asked of a caller. A node that is put into a list is in none; a node that is taken
out is in one, or has a fake one, or, where it is initialised as well, has been initialised
before. -/
def Legal (okHead : β → Bool) (okNode : α → Bool) (a : Hlists β α) : HlistOp β α → Prop
  | .initHead h => okHead h = true
  | .initNode n => okNode n = true ∧ ¬ a.Linked n
  | .addHead n h => okNode n = true ∧ ¬ a.Linked n ∧ (a.lists h).isSome
  | .addBefore n x | .addBehind n x => okNode n = true ∧ ¬ a.Linked n ∧ a.Linked x
  | .addFake n => a.spare n = some false
  | .del n => a.Linked n ∨ a.spare n = some true
  | .delInit n => a.Linked n ∨ (a.spare n).isSome
  | .moveList old new => okHead new = true ∧ (a.lists old).isSome
  | .empty h => (a.lists h).isSome
  | .unhashed n | .fake n => a.Linked n ∨ (a.spare n).isSome

end Hlists

def spareLink (n : α) : Bool → Ptr (Cell β α)
  | false => .null
  | true => .addr (.next n)

structure HlistRep (okHead : β → Bool) (okNode : α → Bool) (M : Buckets β α) (a : Hlists β α) :
    Prop where
  table : IsTable (fun b => (a.lists b).isSome = true) M a.nodes
  heads : ∀ b, (a.lists b).isSome = true → okHead b = true
  live : ∀ n, a.Linked n ∨ (a.spare n).isSome = true → okNode n = true
  spare : ∀ n f, a.spare n = some f → ¬ a.Linked n ∧ M.next n = .null ∧ M.pprev n = spareLink n f

section
variable {okHead : β → Bool} {okNode : α → Bool} {M M' : Buckets β α} {a : Hlists β α}
  {b : β} {n x : α} {xs us vs : List α}

omit [DecidableEq α] in
theorem nodes_update (sp : α → Option Bool) (b : β) (ys : List α) :
    (⟨Function.update a.lists b (some ys), sp⟩ : Hlists β α).nodes =
      Function.update a.nodes b ys := by
  funext g
  obtain rfl | hgb := eq_or_ne g b
  · simp [Hlists.nodes]
  · simp [Hlists.nodes, hgb]

omit [DecidableEq β] [DecidableEq α] in
theorem linked_iff : a.Linked n ↔ ∃ b, n ∈ a.nodes b := by
  constructor
  · rintro ⟨b, xs, hb, hn⟩
    exact ⟨b, by simpa [Hlists.nodes, hb] using hn⟩
  · rintro ⟨b, hn⟩
    cases hb : a.lists b with
    | none => simp [Hlists.nodes, hb] at hn
    | some xs => exact ⟨b, xs, hb, by simpa [Hlists.nodes, hb] using hn⟩

omit [DecidableEq α] in
theorem isSome_update {ys : List α} (hb : (a.lists b).isSome = true) (g : β) :
    (Function.update a.lists b (some ys) g).isSome = (a.lists g).isSome := by
  obtain rfl | hgb := eq_or_ne g b
  · simp [hb]
  · rw [Function.update_of_ne hgb]

namespace HlistRep

theorem edit_eq (hr : HlistRep okHead okNode M a) (hb : a.lists b = some xs) (hx : x ∈ xs)
    (f : List α → List α) : a.edit x f = Function.update a.lists b (some (f xs)) := by
  funext g
  obtain rfl | hgb := eq_or_ne g b
  · simp [Hlists.edit, hb, hx]
  · rw [Function.update_of_ne hgb]
    cases hg : a.lists g with
    | none => simp [Hlists.edit, hg]
    | some zs =>
      have hxz : x ∉ zs := fun hm => hgb (hr.table.disjoint g b x
        (by simpa [Hlists.nodes, hg] using hm) (by simpa [Hlists.nodes, hb] using hx))
      simp [Hlists.edit, hg, hxz]

omit [DecidableEq β] in
theorem touch (hr : HlistRep okHead okNode M a) (hn : ¬ a.Linked n)
    (hfirst : M'.first = M.first)
    (hother : ∀ y, y ≠ n → M'.next y = M.next y ∧ M'.pprev y = M.pprev y) (v : Option Bool)
    (hv : ∀ f, v = some f → okNode n = true ∧ M'.next n = .null ∧ M'.pprev n = spareLink n f) :
    HlistRep okHead okNode M' { a with spare := Function.update a.spare n v } := by
  constructor
  · refine hr.table.congr hfirst fun b y hy => hother y ?_
    exact fun e => hn (linked_iff.mpr ⟨b, e ▸ hy⟩)
  · exact hr.heads
  · rintro y (hy | hy)
    · exact hr.live y (Or.inl hy)
    · obtain rfl | hyn := eq_or_ne y n
      · obtain ⟨f, hf⟩ := Option.isSome_iff_exists.mp hy
        exact (hv f (by simpa using hf)).1
      · exact hr.live y (Or.inr (by simpa [hyn] using hy))
  · intro y f hf
    obtain rfl | hyn := eq_or_ne y n
    · exact ⟨hn, (hv f (by simpa using hf)).2⟩
    · obtain ⟨hly, hnext, hpprev⟩ := hr.spare y f (by simpa [hyn] using hf)
      obtain ⟨hnext', hpprev'⟩ := hother y hyn
      exact ⟨hly, hnext'.trans hnext, hpprev'.trans hpprev⟩

omit [DecidableEq α] in
theorem change {ys : List α} {sp : α → Option Bool} (hr : HlistRep okHead okNode M a)
    (hb : okHead b = true)
    (ht : IsTable (fun g => (Function.update a.lists b (some ys) g).isSome = true) M'
      (Function.update a.nodes b ys))
    (hlive : ∀ y ∈ ys, okNode y = true)
    (hsp : ∀ y f, sp y = some f → y ∉ ys ∧ a.spare y = some f ∧ M'.next y = M.next y ∧
      M'.pprev y = M.pprev y) :
    HlistRep okHead okNode M' ⟨Function.update a.lists b (some ys), sp⟩ := by
  have hlinked : ∀ y, (⟨Function.update a.lists b (some ys), sp⟩ : Hlists β α).Linked y →
      y ∈ ys ∨ a.Linked y := by
    rintro y ⟨g, zs, hg, hy⟩
    obtain rfl | hgb := eq_or_ne g b
    · obtain rfl : ys = zs := by simpa using hg
      exact Or.inl hy
    · exact Or.inr ⟨g, zs, by simpa [hgb] using hg, hy⟩
  constructor
  · rw [nodes_update]
    exact ht
  · intro g hg
    obtain rfl | hgb := eq_or_ne g b
    · exact hb
    · exact hr.heads g (by simpa [hgb] using hg)
  · rintro y (hy | hy)
    · exact (hlinked y hy).elim (hlive y) fun h => hr.live y (Or.inl h)
    · obtain ⟨f, hf⟩ := Option.isSome_iff_exists.mp hy
      exact hr.live y (Or.inr (by simp [(hsp y f hf).2.1]))
  · intro y f hf
    obtain ⟨hys, hold, hnext, hpprev⟩ := hsp y f hf
    obtain ⟨hly, hnull, hlink⟩ := hr.spare y f hold
    exact ⟨fun h => (hlinked y h).elim hys hly, hnext.trans hnull, hpprev.trans hlink⟩

omit [DecidableEq α] in
theorem forget (hr : HlistRep okHead okNode M a) (b : β) :
    HlistRep okHead okNode M { a with lists := Function.update a.lists b none } := by
  have hlists : ∀ g xs, Function.update a.lists b none g = some xs → a.lists g = some xs := by
    intro g xs hg
    obtain rfl | hgb := eq_or_ne g b
    · simp at hg
    · rwa [Function.update_of_ne hgb] at hg
  have hlinked : ∀ y, Hlists.Linked { a with lists := Function.update a.lists b none } y →
      a.Linked y := by
    rintro y ⟨g, xs, hg, hy⟩
    exact ⟨g, xs, hlists g xs hg, hy⟩
  have hsub : ∀ g y, y ∈ Hlists.nodes { a with lists := Function.update a.lists b none } g →
      y ∈ a.nodes g := by
    intro g y hy
    obtain rfl | hgb := eq_or_ne g b
    · simp [Hlists.nodes] at hy
    · simpa [Hlists.nodes, hgb] using hy
  constructor
  · constructor
    · intro g hg
      obtain ⟨xs, hx⟩ := Option.isSome_iff_exists.mp hg
      have hth := hr.table.threads g (by simp [hlists g xs hx])
      have hsame : Hlists.nodes { a with lists := Function.update a.lists b none } g =
          a.nodes g := by
        rw [Hlists.nodes, Hlists.nodes, hx, hlists g xs hx]
      rwa [hsame]
    · intro g
      obtain rfl | hgb := eq_or_ne g b
      · simp [Hlists.nodes]
      · simpa [Hlists.nodes, hgb] using hr.table.nodup g
    · exact fun g g' y h h' => hr.table.disjoint g g' y (hsub g y h) (hsub g' y h')
  · intro g hg
    obtain ⟨xs, hx⟩ := Option.isSome_iff_exists.mp hg
    exact hr.heads g (by simp [hlists g xs hx])
  · exact fun y hy => hr.live y (hy.imp_left (hlinked y))
  · intro y f hf
    obtain ⟨hly, hfields⟩ := hr.spare y f hf
    exact ⟨fun h => hly (hlinked y h), hfields⟩

omit [DecidableEq β] [DecidableEq α] in
theorem notMem_nodes (hn : ¬ a.Linked n) (b : β) : n ∉ a.nodes b :=
  fun h => hn (linked_iff.mpr ⟨b, h⟩)

theorem insert (hr : HlistRep okHead okNode M a) (hb : a.lists b = some (us ++ vs))
    (hok : okNode n = true) (hn : ¬ a.Linked n)
    (hp : Pushed M M' (lastCell (.first b) us) n) :
    HlistRep okHead okNode M' ⟨Function.update a.lists b (some (us ++ n :: vs)),
      Function.update a.spare n none⟩ := by
  have hnodes : a.nodes b = us ++ vs := by simp [Hlists.nodes, hb]
  have hsome : (a.lists b).isSome = true := by simp [hb]
  have hlast : M.get (lastCell (.first b) us) = headPtr vs :=
    (show Threads M (.first b) (us ++ vs) from hnodes ▸ hr.table.threads b hsome).get_last
  have hlinked : ∀ y ∈ us ++ vs, a.Linked y := fun y hy => ⟨b, _, hb, hy⟩
  have htab := hr.table.insert hsome hnodes (notMem_nodes hn) hp
  refine hr.change (hr.heads b hsome) (by simpa only [isSome_update hsome] using htab)
    (fun y hy => ?_) fun y f hf => ?_
  · rcases List.mem_cons.mp (List.perm_middle.mem_iff.mp hy) with rfl | hy
    · exact hok
    · exact hr.live y (Or.inl (hlinked y hy))
  · have hyn : y ≠ n := fun e => by simp [e] at hf
    have hold : a.spare y = some f := by simpa [hyn] using hf
    have hly := (hr.spare y f hold).1
    have hyb : y ∉ us ++ vs := fun h => hly (hlinked y h)
    refine ⟨fun h => ?_, hold, hp.get_other (.next y) ?_ (by simpa using hyn),
      hp.pprev_other y hyn fun e => hyb (List.mem_append_right us (mem_of_headPtr (hlast ▸ e)))⟩
    · exact (List.mem_cons.mp (List.perm_middle.mem_iff.mp h)).elim hyn hyb
    · rcases lastCell_cases (.first b) us with he | ⟨w, hw, he⟩
      · simp [he]
      · intro e
        obtain rfl : y = w := Cell.next.inj (e.trans he)
        exact hyb (List.mem_append_left vs hw)

omit [DecidableEq α] in
theorem pull {d : Cell β α} (hr : HlistRep okHead okNode M a)
    (hb : a.lists b = some (us ++ n :: vs)) (hd : M.pprev n = .addr d) (hp : Pulled M M' d n) :
    HlistRep okHead okNode M' ⟨Function.update a.lists b (some (us ++ vs)), a.spare⟩ ∧
      ¬ (⟨Function.update a.lists b (some (us ++ vs)), a.spare⟩ : Hlists β α).Linked n := by
  have hnodes : a.nodes b = us ++ n :: vs := by simp [Hlists.nodes, hb]
  have hsome : (a.lists b).isSome = true := by simp [hb]
  have hth : Threads M (.first b) (us ++ n :: vs) := hnodes ▸ hr.table.threads b hsome
  have hlinked : ∀ y ∈ us ++ n :: vs, a.Linked y := fun y hy => ⟨b, _, hb, hy⟩
  have hsub : ∀ y ∈ us ++ vs, y ∈ us ++ n :: vs := fun y hy =>
    List.perm_middle.mem_iff.mpr (List.mem_cons_of_mem n hy)
  obtain ⟨e, he, -, hv, hcell⟩ := hth.mid
  obtain rfl : d = e := Ptr.addr.inj (hd.symm.trans he)
  constructor
  · have htab := hr.table.pull hsome hnodes hd hp
    refine hr.change (hr.heads b hsome) (by simpa only [isSome_update hsome] using htab)
      (fun y hy => hr.live y (Or.inl (hlinked y (hsub y hy)))) fun y f hf => ?_
    have hly := (hr.spare y f hf).1
    have hyb : y ∉ us ++ n :: vs := fun h => hly (hlinked y h)
    have hyn : y ≠ n := fun e => hyb (by simp [e])
    refine ⟨fun h => hyb (hsub y h), hf, hp.get_other (.next y) ?_ (by simpa using hyn),
      hp.pprev_other y hyn fun e => hyb ?_⟩
    · rcases hcell with ⟨-, rfl⟩ | ⟨w, hw, rfl⟩
      · simp
      · exact fun e => hyb (List.mem_append_left _ (Cell.next.inj e ▸ hw))
    · exact List.mem_append_right us (List.mem_cons_of_mem n (hv.mem_of_get e))
  · rw [linked_iff, nodes_update]
    rintro ⟨g, hg⟩
    exact ((hr.table.mem_update_iff hnodes).mp hg).2 rfl

end HlistRep

theorem hlistAddBefore_pushed {d : Cell β α} (hn : okNode n = true) (hx : okNode x = true)
    (hd : cellOk okHead okNode d = true) (hnx : n ≠ x) (hdn : d ≠ .next n)
    (hpp : M.pprev x = .addr d) (hget : M.get d = .addr x) :
    ∃ M', hlistAddBefore okHead okNode M n (.addr x) = some M' ∧ Pushed M M' d n := by
  refine ⟨(((M.setPprev n (.addr d)).set (.next n) (.addr x)).setPprev x
    (.addr (.next n))).set d (.addr n), ?_, ?_⟩
  · simp [hlistAddBefore, loadPprev_addr hx, hpp, storePprev_addr hn, storeNext_addr hn,
      storePprev_addr hx, loadPprev_addr hn, Buckets.pprev_setPprev_of_ne _ hnx, storeCell,
      Ptr.deref_addr hd]
  · constructor
    · simp
    · rw [← Buckets.get_next, hget]
      simp [Buckets.get_set_of_ne _ hdn.symm]
    · simp [Buckets.pprev_setPprev_of_ne _ hnx]
    · intro y hy
      obtain rfl : x = y := Ptr.addr.inj (hget.symm.trans hy)
      simp
    · intro e he hen
      simp [Buckets.get_set_of_ne _ he, Buckets.get_set_of_ne _ hen]
    · intro y hyn hy
      have hyx : y ≠ x := fun e => hy (by rw [hget, e])
      simp [Buckets.pprev_setPprev_of_ne _ hyx, Buckets.pprev_setPprev_of_ne _ hyn]

theorem hlistAddBehind_pushed (hn : okNode n = true) (hx : okNode x = true) (hnx : n ≠ x)
    (hy : ∀ y, M.next x = .addr y → okNode y = true ∧ y ≠ n) (hp : ∀ k, M.next x ≠ .poison k) :
    ∃ M', hlistAddBehind okNode M n x = some M' ∧ Pushed M M' (.next x) n := by
  have hcell : (.next n : Cell β α) ≠ .next x := fun e => hnx (Cell.next.inj e)
  have hread : ∀ v w,
      ((((M.set (.next n) v).set (.next x) (.addr n)).setPprev n w).next n) = v := by
    intro v w
    rw [← Buckets.get_next]
    simp [Buckets.get_set_of_ne _ hcell]
  cases hnext : M.next x with
  | poison k => exact absurd hnext (hp k)
  | null =>
    refine ⟨((M.set (.next n) .null).set (.next x) (.addr n)).setPprev n (.addr (.next x)), ?_, ?_⟩
    · simp [hlistAddBehind, loadNext_addr hx, hnext, storeNext_addr hn, storeNext_addr hx,
        storePprev_addr hn, loadNext_addr hn, hread]
    · constructor
      · simp
      · rw [hread, Buckets.get_next, hnext]
      · simp
      · intro y hy
        rw [Buckets.get_next, hnext] at hy
        cases hy
      · intro e he hen
        simp [Buckets.get_set_of_ne _ he, Buckets.get_set_of_ne _ hen]
      · intro y hyn _
        simp [Buckets.pprev_setPprev_of_ne _ hyn]
  | addr y =>
    obtain ⟨hoky, hyn⟩ := hy y hnext
    refine ⟨(((M.set (.next n) (.addr y)).set (.next x) (.addr n)).setPprev n
      (.addr (.next x))).setPprev y (.addr (.next n)), ?_, ?_⟩
    · simp [hlistAddBehind, loadNext_addr hx, hnext, storeNext_addr hn, storeNext_addr hx,
        storePprev_addr hn, loadNext_addr hn, hread, storePprev_addr hoky]
    · constructor
      · simp
      · rw [Buckets.get_next, hnext, ← Buckets.get_next, Buckets.get_setPprev, Buckets.get_next,
          hread]
      · simp [Buckets.pprev_setPprev_of_ne _ hyn.symm]
      · intro z hz
        obtain rfl : y = z := Ptr.addr.inj (hnext.symm.trans hz)
        simp
      · intro e he hen
        simp [Buckets.get_set_of_ne _ he, Buckets.get_set_of_ne _ hen]
      · intro z hzn hz
        have hzy : z ≠ y := fun e => hz (by rw [Buckets.get_next, hnext, e])
        simp [Buckets.pprev_setPprev_of_ne _ hzy, Buckets.pprev_setPprev_of_ne _ hzn]

namespace HlistRep

omit [DecidableEq α] in
theorem insertIdx_append (us vs : List α) (n : α) :
    (us ++ vs).insertIdx us.length n = us ++ n :: vs := by
  induction us with
  | nil => rfl
  | cons u us ih =>
    rw [List.cons_append, List.length_cons, List.insertIdx_succ_cons, ih, List.cons_append]

omit [DecidableEq β] in
theorem idxOf_split (hr : HlistRep okHead okNode M a) (hb : a.lists b = some (us ++ x :: vs)) :
    (us ++ x :: vs).idxOf x = us.length := by
  have hnd : (us ++ x :: vs).Nodup := by simpa [Hlists.nodes, hb] using hr.table.nodup b
  have hxu : x ∉ us := fun hm => (List.nodup_append.mp hnd).2.2 x hm x (by simp) rfl
  simp [List.idxOf_append, hxu]

theorem addHead (hr : HlistRep okHead okNode M a) (hok : okNode n = true) (hn : ¬ a.Linked n)
    (hb : (a.lists b).isSome = true) :
    ∃ M', hlistAddHead okHead okNode M n b = some M' ∧
      HlistRep okHead okNode M' (a.spec (.addHead n b)).2 := by
  obtain ⟨xs, hx⟩ := Option.isSome_iff_exists.mp hb
  have hnodes : a.nodes b = xs := by simp [Hlists.nodes, hx]
  have hth := hnodes ▸ hr.table.threads b hb
  have hmem : ∀ y ∈ xs, a.Linked y := fun y hy => ⟨b, xs, hx, hy⟩
  obtain ⟨M', hM, hp⟩ := hlistAddHead_pushed (M := M) (n := n) (hr.heads b hb) hok
    (fun y hy => ⟨hr.live y (Or.inl (hmem y (hth.mem_of_get hy))),
      fun e => hn (e ▸ hmem y (hth.mem_of_get hy))⟩) hth.get_ne_poison
  have hrep := hr.insert (show a.lists b = some ([] ++ xs) from hx) hok hn hp
  exact ⟨M', hM, by simpa [Hlists.spec, hnodes] using hrep⟩

theorem addBefore (hr : HlistRep okHead okNode M a) (hok : okNode n = true) (hn : ¬ a.Linked n)
    (hx : a.Linked x) :
    ∃ M', hlistAddBefore okHead okNode M n (.addr x) = some M' ∧
      HlistRep okHead okNode M' (a.spec (.addBefore n x)).2 := by
  obtain ⟨b, xs, hb, hm⟩ := hx
  obtain ⟨us, vs, rfl⟩ := List.append_of_mem hm
  have hsome : (a.lists b).isSome = true := by simp [hb]
  have hnodes : a.nodes b = us ++ x :: vs := by simp [Hlists.nodes, hb]
  have hth : Threads M (.first b) (us ++ x :: vs) := hnodes ▸ hr.table.threads b hsome
  have hlinked : ∀ y ∈ us ++ x :: vs, a.Linked y := fun y hy => ⟨b, _, hb, hy⟩
  have hcell : cellOk okHead okNode (lastCell (.first b) us) = true ∧
      lastCell (.first b) us ≠ .next n := by
    rcases lastCell_cases (.first b) us with he | ⟨w, hw, he⟩
    · exact ⟨by rw [he]; exact hr.heads b hsome, by simp [he]⟩
    · have hwl := hlinked w (List.mem_append_left _ hw)
      rw [he]
      exact ⟨hr.live w (Or.inl hwl), fun e => hn (Cell.next.inj e ▸ hwl)⟩
  have hxl := hlinked x (by simp)
  obtain ⟨M', hM, hp⟩ := hlistAddBefore_pushed hok (hr.live x (Or.inl hxl)) hcell.1
    (fun e => hn (e ▸ hxl)) hcell.2 hth.pprev_last hth.get_last
  refine ⟨M', hM, ?_⟩
  simp only [Hlists.spec, hr.edit_eq hb hm, hr.idxOf_split hb, insertIdx_append]
  exact hr.insert hb hok hn hp

theorem addBehind (hr : HlistRep okHead okNode M a) (hok : okNode n = true) (hn : ¬ a.Linked n)
    (hx : a.Linked x) :
    ∃ M', hlistAddBehind okNode M n x = some M' ∧
      HlistRep okHead okNode M' (a.spec (.addBehind n x)).2 := by
  obtain ⟨b, xs, hb, hm⟩ := hx
  obtain ⟨us, vs, rfl⟩ := List.append_of_mem hm
  have hsome : (a.lists b).isSome = true := by simp [hb]
  have hnodes : a.nodes b = us ++ x :: vs := by simp [Hlists.nodes, hb]
  have hth : Threads M (.first b) (us ++ x :: vs) := hnodes ▸ hr.table.threads b hsome
  have hlinked : ∀ y ∈ us ++ x :: vs, a.Linked y := fun y hy => ⟨b, _, hb, hy⟩
  obtain ⟨-, -, -, hv, -⟩ := hth.mid
  have hxl := hlinked x (by simp)
  obtain ⟨M', hM, hp⟩ := hlistAddBehind_pushed hok (hr.live x (Or.inl hxl)) (fun e => hn (e ▸ hxl))
    (fun y hy => by
      have hyl := hlinked y (List.mem_append_right us (List.mem_cons_of_mem x (hv.mem_of_get hy)))
      exact ⟨hr.live y (Or.inl hyl), fun e => hn (e ▸ hyl)⟩) hv.get_ne_poison
  have hb' : a.lists b = some ((us ++ [x]) ++ vs) := by simpa using hb
  have hlast : lastCell (.first b) (us ++ [x]) = (.next x : Cell β α) := by simp [lastCell]
  have hrep := hr.insert hb' hok hn (hlast ▸ hp)
  have hidx : (us ++ x :: vs).insertIdx (us.length + 1) n = (us ++ [x]) ++ n :: vs := by
    have hins := insertIdx_append (us ++ [x]) vs n
    simpa using hins
  refine ⟨M', hM, ?_⟩
  simp only [Hlists.spec, hr.edit_eq hb hm, hr.idxOf_split hb, hidx]
  exact hrep

theorem write (hr : HlistRep okHead okNode M a) (hn : ¬ a.Linked n) (v : Ptr α)
    (w : Ptr (Cell β α)) (f : Option Bool)
    (hf : ∀ g, f = some g → okNode n = true ∧ v = .null ∧ w = spareLink n g) :
    HlistRep okHead okNode ((M.set (.next n) v).setPprev n w)
      { a with spare := Function.update a.spare n f } := by
  have hfirst : ((M.set (.next n) v).setPprev n w).first = M.first := rfl
  refine hr.touch hn hfirst (fun y hy => ⟨?_, ?_⟩) f fun g hg => ?_
  · rw [← Buckets.get_next, Buckets.get_setPprev,
      Buckets.get_set_of_ne _ (by simpa using hy), Buckets.get_next]
  · rw [Buckets.pprev_setPprev_of_ne _ hy, Buckets.pprev_set]
  · obtain ⟨hok, rfl, rfl⟩ := hf g hg
    refine ⟨hok, ?_, Buckets.pprev_setPprev_self _ n _⟩
    rw [← Buckets.get_next, Buckets.get_setPprev, Buckets.get_set_self]

omit [DecidableEq β] in
theorem edit_of_not_linked (hn : ¬ a.Linked n) (f : List α → List α) : a.edit n f = a.lists := by
  funext b
  cases hb : a.lists b with
  | none => simp [Hlists.edit, hb]
  | some xs =>
    have hx : n ∉ xs := fun h => hn ⟨b, xs, hb, h⟩
    simp [Hlists.edit, hb, hx]

theorem delLinks (hr : HlistRep okHead okNode M a) (hn : a.Linked n ∨ a.spare n = some true) :
    (∃ d, M.pprev n = .addr d) ∧ okNode n = true ∧
    ∃ M', hlistDelLinks okHead okNode M (.addr n) = some M' ∧
      HlistRep okHead okNode M' ⟨a.edit n (·.erase n), a.spare⟩ ∧
      ¬ Hlists.Linked ⟨a.edit n (·.erase n), a.spare⟩ n := by
  have hok := hr.live n (hn.imp_right fun h => by simp [h])
  rcases hn with hn | hn
  · obtain ⟨b, xs, hb, hm⟩ := hn
    obtain ⟨us, vs, rfl⟩ := List.append_of_mem hm
    have hsome : (a.lists b).isSome = true := by simp [hb]
    have hnodes : a.nodes b = us ++ n :: vs := by simp [Hlists.nodes, hb]
    have hnd : (us ++ n :: vs).Nodup := hnodes ▸ hr.table.nodup b
    have hnu : n ∉ us := fun h => (List.nodup_append.mp hnd).2.2 n h n (by simp) rfl
    obtain ⟨d, hd, hdok, -, hy, hp⟩ := linked_fields hr.table hr.heads hsome
      (fun x hx => hr.live x (Or.inl (linked_iff.mpr ⟨b, hx⟩))) hnodes
    obtain ⟨M', hM, hpull⟩ := hlistDelLinks_pulled hok hd hdok hy hp
    have herase : (us ++ n :: vs).erase n = us ++ vs := by
      rw [List.erase_append_right _ hnu, List.erase_cons_head]
    refine ⟨⟨d, hd⟩, hok, M', hM, ?_⟩
    rw [hr.edit_eq hb hm, herase]
    exact hr.pull hb hd hpull
  · obtain ⟨hln, hnext, hpprev⟩ := hr.spare n true hn
    have hcell : cellOk okHead okNode (.next n) = true := hok
    refine ⟨⟨.next n, hpprev⟩, hok, M.set (.next n) .null, ?_, ?_⟩
    · simp [hlistDelLinks, loadNext_addr hok, loadPprev_addr hok, hnext, hpprev, spareLink,
        storeCell, Ptr.deref_addr hcell]
    · have hrep := hr.write hln .null (M.pprev n) (some true) fun g hg => by
        obtain rfl := Option.some.inj hg
        exact ⟨hok, rfl, hpprev⟩
      have hsame : (M.set (.next n) .null).setPprev n (M.pprev n) = M.set (.next n) .null := by
        simp [Buckets.setPprev, Buckets.set]
      rw [edit_of_not_linked hln]
      refine ⟨?_, hln⟩
      rwa [hsame, ← hn, Function.update_eq_self] at hrep

theorem initNode (hr : HlistRep okHead okNode M a) (hok : okNode n = true) (hn : ¬ a.Linked n) :
    ∃ M', initHlistNode okNode M (.addr n) = some M' ∧
      HlistRep okHead okNode M' (a.spec (.initNode n)).2 := by
  refine ⟨(M.set (.next n) .null).setPprev n .null, ?_, ?_⟩
  · simp [initHlistNode, storeNext_addr hok, storePprev_addr hok]
  · refine hr.write hn .null .null (some false) fun g hg => ?_
    obtain rfl := Option.some.inj hg
    exact ⟨hok, rfl, rfl⟩

theorem addFake (hr : HlistRep okHead okNode M a) (hn : a.spare n = some false) :
    ∃ M', hlistAddFake okNode M n = some M' ∧
      HlistRep okHead okNode M' (a.spec (.addFake n)).2 := by
  have hok := hr.live n (Or.inr (by simp [hn]))
  obtain ⟨hln, hnext, -⟩ := hr.spare n false hn
  have hfirst : (M.setPprev n (.addr (.next n))).first = M.first := rfl
  refine ⟨_, storePprev_addr hok _, hr.touch hln hfirst (fun y hy => ⟨rfl, ?_⟩) (some true) ?_⟩
  · exact Buckets.pprev_setPprev_of_ne M hy _
  · intro g hg
    obtain rfl := Option.some.inj hg
    exact ⟨hok, hnext, Buckets.pprev_setPprev_self M n _⟩

theorem del (hr : HlistRep okHead okNode M a) (hn : a.Linked n ∨ a.spare n = some true) :
    ∃ M', hlistDel okHead okNode M (.addr n) = some M' ∧
      HlistRep okHead okNode M' (a.spec (.del n)).2 := by
  obtain ⟨-, hok, M', hM, hr', hln⟩ := hr.delLinks hn
  refine ⟨(M'.set (.next n) listPoison1).setPprev n listPoison2, ?_, ?_⟩
  · simp [hlistDel, hM, storeNext_addr hok, storePprev_addr hok]
  · exact hr'.write hln listPoison1 listPoison2 none (by simp)

theorem delInit (hr : HlistRep okHead okNode M a) (hn : a.Linked n ∨ (a.spare n).isSome) :
    ∃ M', hlistDelInit okHead okNode M (.addr n) = some M' ∧
      HlistRep okHead okNode M' (a.spec (.delInit n)).2 := by
  by_cases hidle : a.spare n = some false
  · have hok := hr.live n (Or.inr (by simp [hidle]))
    obtain ⟨hln, -, hpprev⟩ := hr.spare n false hidle
    refine ⟨M, hlistDelInit_unhashed hok hpprev, ?_⟩
    have hsame : Function.update a.spare n (some false) = a.spare := by
      rw [← hidle, Function.update_eq_self]
    simpa only [Hlists.spec, edit_of_not_linked hln, hsame] using hr
  · have hn' : a.Linked n ∨ a.spare n = some true := by
      refine hn.imp_right fun h => ?_
      obtain ⟨f, hf⟩ := Option.isSome_iff_exists.mp h
      cases f with
      | false => exact absurd hf hidle
      | true => exact hf
    obtain ⟨⟨d, hd⟩, hok, M', hM, hr', hln⟩ := hr.delLinks hn'
    refine ⟨(M'.set (.next n) .null).setPprev n .null, ?_, ?_⟩
    · simp [hlistDelInit, hlistUnhashed, loadPprev_addr hok, hd, hM, initHlistNode,
        storeNext_addr hok, storePprev_addr hok]
    · refine hr'.write hln .null .null (some false) fun g hg => ?_
      obtain rfl := Option.some.inj hg
      exact ⟨hok, rfl, rfl⟩

omit [DecidableEq α] in
theorem rechain {ys : List α} (hr : HlistRep okHead okNode M a) (hb : okHead b = true)
    (hys : Threads M' (.first b) ys) (hnd : ys.Nodup) (hlive : ∀ y ∈ ys, okNode y = true)
    (hout : ∀ g, g ≠ b → ∀ y ∈ ys, y ∉ a.nodes g)
    (hfirst : ∀ g, g ≠ b → (a.lists g).isSome = true → M'.first g = M.first g)
    (hx : ∀ y, y ∉ a.nodes b → M'.next y = M.next y ∧ M'.pprev y = M.pprev y)
    (hsp : ∀ y f, a.spare y = some f → y ∉ ys) :
    HlistRep okHead okNode M' { a with lists := Function.update a.lists b (some ys) } := by
  refine hr.change hb (hr.table.replace hys hnd hout (fun g hg hD => ?_) fun g hg y hy =>
    hx y fun hyb => hg (hr.table.disjoint g b y hy hyb)) hlive fun y f hf => ?_
  · have hDg : (a.lists g).isSome = true := by simpa [hg] using hD
    exact ⟨hDg, hfirst g hg hDg⟩
  · exact ⟨hsp y f hf, hf, hx y (notMem_nodes (hr.spare y f hf).1 b)⟩

theorem initHead (hr : HlistRep okHead okNode M a) (hb : okHead b = true) :
    ∃ M', initHlistHead okHead M b = some M' ∧
      HlistRep okHead okNode M' (a.spec (.initHead b)).2 := by
  refine ⟨M.set (.first b) .null, by simp [initHlistHead, storeFirst, hb], ?_⟩
  refine hr.rechain hb (Buckets.get_set_self M _ _) List.nodup_nil (by simp) (by simp)
    (fun g hg _ => ?_) (fun y _ => ⟨rfl, rfl⟩) (by simp)
  rw [← Buckets.get_first, Buckets.get_set_of_ne _ (by simpa using hg), Buckets.get_first]

end HlistRep

theorem hlistMoveList_moved {old new : β} (hold : okHead old = true) (hnew : okHead new = true)
    (hf : ∀ x, M.first old = .addr x → okNode x = true) (hp : ∀ k, M.first old ≠ .poison k) :
    ∃ M', hlistMoveList okHead okNode M old new = some M' ∧ M'.first old = .null ∧
      (new ≠ old → M'.first new = M.first old) ∧
      (∀ b, b ≠ old → b ≠ new → M'.first b = M.first b) ∧ M'.next = M.next ∧
      (∀ x, M.first old = .addr x → M'.pprev x = .addr (.first new)) ∧
      ∀ y, M.first old ≠ .addr y → M'.pprev y = M.pprev y := by
  have hread : ∀ v, (M.set (.first new) v).first new = v := fun v => by
    rw [← Buckets.get_first, Buckets.get_set_self]
  have hother : ∀ b, b ≠ old → b ≠ new → ∀ v,
      ((M.set (.first new) v).set (.first old) .null).first b = M.first b := by
    intro b hbo hbn v
    rw [← Buckets.get_first, Buckets.get_set_of_ne _ (by simpa using hbo),
      Buckets.get_set_of_ne _ (by simpa using hbn), Buckets.get_first]
  have hmoved : new ≠ old → ∀ v, ((M.set (.first new) v).set (.first old) .null).first new = v := by
    intro hne v
    rw [← Buckets.get_first, Buckets.get_set_of_ne _ (by simpa using hne), Buckets.get_set_self]
  have hgone : ∀ v, ((M.set (.first new) v).set (.first old) .null).first old = .null := by
    intro v
    rw [← Buckets.get_first, Buckets.get_set_self]
  cases hfirst : M.first old with
  | poison k => exact absurd hfirst (hp k)
  | null =>
    refine ⟨(M.set (.first new) .null).set (.first old) .null, ?_, hgone _, (hmoved · _),
      fun b hbo hbn => hother b hbo hbn _, rfl, by simp, fun y _ => rfl⟩
    simp [hlistMoveList, loadFirst, storeFirst, hold, hnew, hfirst, hread]
  | addr x =>
    have hok := hf x hfirst
    refine ⟨((M.set (.first new) (.addr x)).set (.first old) .null).setPprev x
      (.addr (.first new)), ?_, hgone _, (hmoved · _), fun b hbo hbn => hother b hbo hbn _, rfl,
      ?_, ?_⟩
    · simp [hlistMoveList, loadFirst, storeFirst, hold, hnew, hfirst, storePprev_addr hok,
        Buckets.setPprev, Buckets.set]
    · intro y hy
      obtain rfl := Ptr.addr.inj hy
      exact Buckets.pprev_setPprev_self _ _ _
    · intro y hy
      exact Buckets.pprev_setPprev_of_ne _ (fun e => hy (by rw [e])) _

namespace HlistRep

theorem moveList {old new : β} (hr : HlistRep okHead okNode M a) (hnew : okHead new = true)
    (hold : (a.lists old).isSome = true) :
    ∃ M', hlistMoveList okHead okNode M old new = some M' ∧
      HlistRep okHead okNode M' (a.spec (.moveList old new)).2 := by
  obtain ⟨xs, hx⟩ := Option.isSome_iff_exists.mp hold
  have hnodes : a.nodes old = xs := by simp [Hlists.nodes, hx]
  have hth : Threads M (.first old) xs := hnodes ▸ hr.table.threads old hold
  have hnd : xs.Nodup := hnodes ▸ hr.table.nodup old
  have hlive : ∀ y ∈ xs, okNode y = true := fun y hy => hr.live y (Or.inl ⟨old, xs, hx, hy⟩)
  obtain ⟨M', hM, hnull, hmoved, hfirst, hnext, hback, hpprev⟩ :=
    hlistMoveList_moved (hr.heads old hold) hnew (fun y hy => hlive y (hth.mem_of_get hy))
      hth.get_ne_poison
  have hfields : ∀ y, y ∉ xs → M'.next y = M.next y ∧ M'.pprev y = M.pprev y := fun y hy =>
    ⟨congrFun hnext y, hpprev y fun e => hy (hth.mem_of_get e)⟩
  have hspare : ∀ y f, a.spare y = some f → y ∉ xs := fun y f hf hy =>
    (hr.spare y f hf).1 ⟨old, xs, hx, hy⟩
  refine ⟨M', hM, ?_⟩
  obtain rfl | hne := eq_or_ne new old
  · have hrep := hr.rechain hnew (show Threads M' (.first new) [] from hnull) List.nodup_nil
      (by simp) (by simp) (fun g hg _ => hfirst g hg hg) (by rwa [hnodes]) (by simp)
    simpa [Hlists.spec, hx] using hrep
  · -- the list that is overwritten is given up first, and the old one is emptied next
    have hforget := hr.forget new
    have hnodes₁ : Hlists.nodes { a with lists := Function.update a.lists new none } old = xs := by
      simp [Hlists.nodes, hne.symm, hx]
    have hempty := hforget.rechain (hr.heads old hold)
      (show Threads M' (.first old) [] from hnull) List.nodup_nil (by simp) (by simp)
      (fun g hg hD => hfirst g hg fun e => by simp [e] at hD) (by rwa [hnodes₁]) (by simp)
    have hthread : Threads M' (.first new) xs := by
      cases xs with
      | nil => exact (hmoved hne).trans hth
      | cons x xs =>
        refine ⟨(hmoved hne).trans hth.1, hback x hth.1, hth.2.2.congr (congrFun hnext x) ?_⟩
        intro y hy
        refine ⟨congrFun hnext y, hpprev y fun e => ?_⟩
        obtain rfl : x = y := Ptr.addr.inj (hth.1.symm.trans e)
        exact (List.nodup_cons.mp hnd).1 hy
    have hrep := hempty.rechain hnew hthread hnd hlive (fun g hg y hy => ?_) (fun _ _ _ => rfl)
      (fun _ _ => ⟨rfl, rfl⟩) hspare
    · have hlists : Function.update (Function.update (Function.update a.lists new none) old
          (some [])) new (some xs) =
          Function.update (Function.update a.lists new (a.lists old)) old (some []) := by
        rw [Function.update_comm hne.symm, Function.update_idem, hx]
      simpa only [Hlists.spec, hlists] using hrep
    · rw [nodes_update]
      obtain rfl | hgo := eq_or_ne g old
      · simp
      · rw [Function.update_of_ne hgo]
        intro hyg
        have hyg' : y ∈ a.nodes g := by simpa [Hlists.nodes, hg] using hyg
        exact hgo (hr.table.disjoint g old y hyg' (hnodes ▸ hy))

omit [DecidableEq β] [DecidableEq α] in
theorem pprev_cases (hr : HlistRep okHead okNode M a) (hn : a.Linked n ∨ (a.spare n).isSome) :
    okNode n = true ∧ ((∃ d, M.pprev n = .addr d ∧ d ≠ .next n ∧ a.spare n = none) ∨
      ∃ f, a.spare n = some f ∧ M.pprev n = spareLink n f) := by
  refine ⟨hr.live n hn, ?_⟩
  by_cases hl : a.Linked n
  · obtain ⟨b, xs, hb, hm⟩ := hl
    obtain ⟨us, vs, rfl⟩ := List.append_of_mem hm
    have hnodes : a.nodes b = us ++ n :: vs := by simp [Hlists.nodes, hb]
    obtain ⟨d, hd, -, hdn, -⟩ := linked_fields hr.table hr.heads (show (a.lists b).isSome = true by
      simp [hb]) (fun x hx => hr.live x (Or.inl (linked_iff.mpr ⟨b, hx⟩))) hnodes
    refine Or.inl ⟨d, hd, hdn, ?_⟩
    cases hf : a.spare n with
    | none => rfl
    | some f => exact absurd ⟨b, _, hb, hm⟩ (hr.spare n f hf).1
  · obtain ⟨f, hf⟩ := Option.isSome_iff_exists.mp (hn.resolve_left hl)
    exact Or.inr ⟨f, hf, (hr.spare n f hf).2.2⟩

omit [DecidableEq β] in
theorem empty_query (hr : HlistRep okHead okNode M a)
    (hb : (a.lists b).isSome = true) :
    hlistEmpty okHead M b = some (decide (a.lists b = some [])) := by
  obtain ⟨xs, hx⟩ := Option.isSome_iff_exists.mp hb
  have hth := hr.table.threads b hb
  rw [show a.nodes b = xs by simp [Hlists.nodes, hx]] at hth
  have hget := hth.get_eq
  rw [Buckets.get_first] at hget
  cases xs with
  | nil => simp [hlistEmpty, loadFirst, hr.heads b hb, hget, headPtr, hx]
  | cons x xs => simp [hlistEmpty, loadFirst, hr.heads b hb, hget, headPtr, hx]

theorem unhashed_query (hr : HlistRep okHead okNode M a) (hn : a.Linked n ∨ (a.spare n).isSome) :
    hlistUnhashed okNode M (.addr n) = some (decide (a.spare n = some false)) := by
  obtain ⟨hok, ⟨d, hd, -, hs⟩ | ⟨f, hf, hd⟩⟩ := hr.pprev_cases hn
  · simp [hlistUnhashed, loadPprev_addr hok, hd, hs]
  · cases f <;> simp [hlistUnhashed, loadPprev_addr hok, hd, hf, spareLink]

theorem fake_query (hr : HlistRep okHead okNode M a) (hn : a.Linked n ∨ (a.spare n).isSome) :
    hlistFake okNode M n = some (decide (a.spare n = some true)) := by
  obtain ⟨hok, ⟨d, hd, hdn, hs⟩ | ⟨f, hf, hd⟩⟩ := hr.pprev_cases hn
  · simp [hlistFake, loadPprev_addr hok, hd, hs, hdn]
  · cases f <;> simp [hlistFake, loadPprev_addr hok, hd, hf, spareLink]

theorem step (hr : HlistRep okHead okNode M a) {o : HlistOp β α} (ho : a.Legal okHead okNode o) :
    ∃ M', hlistOpStep okHead okNode M o = some ((a.spec o).1, M') ∧
      HlistRep okHead okNode M' (a.spec o).2 := by
  have changed : ∀ {m : Option (Buckets β α)}, (∃ M', m = some M' ∧
      HlistRep okHead okNode M' (a.spec o).2) → ∃ M', m.map (fun M => ((none : Option Bool), M)) =
        some (none, M') ∧ HlistRep okHead okNode M' (a.spec o).2 := by
    rintro m ⟨M', rfl, hr'⟩
    exact ⟨M', rfl, hr'⟩
  cases o with
  | initHead h => exact changed (hr.initHead ho)
  | initNode n => exact changed (hr.initNode ho.1 ho.2)
  | addHead n h => exact changed (hr.addHead ho.1 ho.2.1 ho.2.2)
  | addBefore n next => exact changed (hr.addBefore ho.1 ho.2.1 ho.2.2)
  | addBehind n prev => exact changed (hr.addBehind ho.1 ho.2.1 ho.2.2)
  | addFake n => exact changed (hr.addFake ho)
  | del n => exact changed (hr.del ho)
  | delInit n => exact changed (hr.delInit ho)
  | moveList old new => exact changed (hr.moveList ho.1 ho.2)
  | empty h => exact ⟨M, by simp [hlistOpStep, hr.empty_query ho, Hlists.spec], hr⟩
  | unhashed n => exact ⟨M, by simp [hlistOpStep, hr.unhashed_query ho, Hlists.spec], hr⟩
  | fake n => exact ⟨M, by simp [hlistOpStep, hr.fake_query ho, Hlists.spec], hr⟩

omit [DecidableEq α] in
theorem foldUntil_collectNode (xs : List α) : foldUntil collectNode [] xs = some (none, xs) := by
  have hfold := foldUntil_collect id id xs fun x _ l => (rfl : collectNode l x = _)
  rwa [List.map_id] at hfold

omit [DecidableEq β] [DecidableEq α] in
theorem hlistForEach_rep (hr : HlistRep okHead okNode M a) (hb : a.lists b = some xs) {fuel : ℕ}
    (hf : xs.length < fuel) : hlistForEach okHead okNode M fuel b = some xs := by
  have hsome : (a.lists b).isSome = true := by simp [hb]
  have hth : Threads M (.first b) xs := by
    simpa [Hlists.nodes, hb] using hr.table.threads b hsome
  have hloop := hlistForEachEntry_threads collectNode hth
    (fun x hx => hr.live x (Or.inl ⟨b, xs, hb, hx⟩)) hf []
  rw [Buckets.get_first, foldUntil_collectNode] at hloop
  simp [hlistForEach, loadFirst, hr.heads b hsome, hloop]

omit [DecidableEq β] [DecidableEq α] in
theorem hlistForEachEntry_cursors (hr : HlistRep okHead okNode M a)
    (hb : a.lists b = some (us ++ x :: vs)) {fuel : ℕ} (hf : (x :: vs).length < fuel) :
    hlistForEachEntryFrom okNode M fuel (.addr x) = some (x :: vs) ∧
      hlistForEachEntryContinue okNode M fuel (.addr x) = some vs := by
  have hsome : (a.lists b).isSome = true := by simp [hb]
  have hth : Threads M (.first b) (us ++ x :: vs) := by
    simpa [Hlists.nodes, hb] using hr.table.threads b hsome
  have hlive : ∀ y ∈ x :: vs, okNode y = true := fun y hy =>
    hr.live y (Or.inl ⟨b, _, hb, List.mem_append_right us hy⟩)
  obtain ⟨d, hd, hget, hv, -⟩ := hth.mid
  have hfrom := hlistForEachEntry_threads collectNode
    (show Threads M d (x :: vs) from ⟨hget, hd, hv⟩) hlive hf []
  have hcont := hlistForEachEntry_threads collectNode hv
    (fun y hy => hlive y (List.mem_cons_of_mem x hy))
    (show vs.length < fuel by simp at hf; omega) []
  rw [hget, foldUntil_collectNode] at hfrom
  rw [Buckets.get_next, foldUntil_collectNode] at hcont
  refine ⟨by simp [hlistForEachEntryFrom, hfrom], ?_⟩
  simp [hlistForEachEntryContinue, hlistForEachEntryFrom, loadNext_addr (hlive x (by simp)), hcont]

end HlistRep

def HlistLegalRun (okHead : β → Bool) (okNode : α → Bool) :
    Hlists β α → List (HlistOp β α) → Prop :=
  AllSteps (fun a o => some (a.spec o)) (fun a o => a.Legal okHead okNode o)

instance [Fintype β] (n : α) : Decidable (a.Linked n) :=
  decidable_of_iff (∃ b, n ∈ a.nodes b) linked_iff.symm

instance [Fintype β] : DecidablePred (Hlists.Legal okHead okNode a)
  | .initHead h => inferInstanceAs (Decidable (okHead h = true))
  | .initNode _ | .addHead _ _ | .addBefore _ _ | .addBehind _ _ | .moveList _ _ =>
    instDecidableAnd
  | .addFake n => inferInstanceAs (Decidable (a.spare n = some false))
  | .del _ | .delInit _ | .unhashed _ | .fake _ => instDecidableOr
  | .empty h => inferInstanceAs (Decidable ((a.lists h).isSome = true))

instance [Fintype β] (os : List (HlistOp β α)) : Decidable (HlistLegalRun okHead okNode a os) :=
  decidableAllSteps a os

theorem HlistRep.run_rep (hr : HlistRep okHead okNode M a) {os : List (HlistOp β α)}
    (hos : HlistLegalRun okHead okNode a os) :
    ∃ M', run (hlistOpStep okHead okNode) M os = some ((runSpec Hlists.spec a os).1, M') ∧
      HlistRep okHead okNode M' (runSpec Hlists.spec a os).2 := by
  obtain ⟨rs, M', hrun, hrs, -, hr', -⟩ := run_simulates (γ := Unit) Hlists.spec id
    (fun g _ _ => g) (R := fun M a _ os => HlistRep okHead okNode M a ∧
      HlistLegalRun okHead okNode a os)
    (fun M a _ o os hR => by
      obtain ⟨M', hM, hr'⟩ := hR.1.step hR.2.1
      exact ⟨_, M', hM, rfl, hr', hR.2.2 _ _ rfl⟩) (g := ()) ⟨hr, hos⟩
  rw [List.map_id] at hrs
  exact ⟨M', by rw [hrun, hrs], hr'⟩

def Hlists.start : Hlists β α := ⟨fun _ => none, fun _ => none⟩

omit [DecidableEq β] [DecidableEq α] in
theorem HlistRep.start (M : Buckets β α) : HlistRep okHead okNode M Hlists.start := by
  refine ⟨⟨by simp [Hlists.start], by simp [Hlists.start, Hlists.nodes],
    by simp [Hlists.start, Hlists.nodes]⟩, by simp [Hlists.start], ?_, by simp [Hlists.start]⟩
  rintro n (⟨b, xs, hb, -⟩ | hn)
  · cases hb
  · cases hn

/-- Whatever the memory holds at first, every call does what it does to lists of nodes, an
unhashed or a fake node is known as such, and a traversal may begin at any node. -/
theorem hlistOp_run_refines (M₀ : Buckets β α) {os : List (HlistOp β α)}
    (hos : HlistLegalRun okHead okNode Hlists.start os) :
    ∃ M, run (hlistOpStep okHead okNode) M₀ os =
        some ((runSpec Hlists.spec Hlists.start os).1, M) ∧
      ∀ b xs, (runSpec Hlists.spec Hlists.start os).2.lists b = some xs →
        xs.Nodup ∧
        (∀ fuel, xs.length < fuel → hlistForEach okHead okNode M fuel b = some xs ∧
          ∀ us x vs, xs = us ++ x :: vs →
            hlistForEachEntryFrom okNode M fuel (.addr x) = some (x :: vs) ∧
            hlistForEachEntryContinue okNode M fuel (.addr x) = some vs) ∧
        ∀ g ys, (runSpec Hlists.spec Hlists.start os).2.lists g = some ys → g ≠ b →
          List.Disjoint ys xs := by
  obtain ⟨M, hrun, hr⟩ := (HlistRep.start M₀).run_rep hos
  refine ⟨M, hrun, fun b xs hb => ⟨?_, fun fuel hf => ⟨hr.hlistForEach_rep hb hf, ?_⟩, ?_⟩⟩
  · simpa [Hlists.nodes, hb] using hr.table.nodup b
  · rintro us x vs rfl
    exact hr.hlistForEachEntry_cursors hb (by simp at hf ⊢; omega)
  · intro g ys hg hgb x hx hx'
    exact hgb (hr.table.disjoint g b x (by simpa [Hlists.nodes, hg] using hx)
      (by simpa [Hlists.nodes, hb] using hx'))

end

def hlistOps : List (HlistOp (Fin 2) (Fin 5)) :=
  [.initHead 0, .initHead 1, .addHead 0 0, .addBehind 1 0, .addBefore 2 0, .initNode 3, .addFake 3,
    .fake 3, .delInit 3, .unhashed 3, .delInit 3, .addHead 3 1, .addBehind 4 1, .moveList 0 1,
    .del 0, .empty 0, .fake 2]

theorem hlistOp_run_refines_hlistOps : ∃ M : Buckets (Fin 2) (Fin 5),
    (run (hlistOpStep (fun _ => true) fun _ => true)
      ⟨fun _ => .poison 7, fun _ => .null, fun _ => .poison 7⟩ hlistOps).map
        (fun r => (r.1.filterMap id, r.2)) = some ([true, true, true, false], M) ∧
    hlistForEach (fun _ => true) (fun _ => true) M 4 1 = some [2, 1, 4] ∧
    hlistForEachEntryContinue (fun _ => true) M 4 (.addr 2) = some [1, 4] := by
  obtain ⟨M, hr, hlists⟩ := hlistOp_run_refines
    ⟨fun _ => .poison 7, fun _ => .null, fun _ => .poison 7⟩
    (show HlistLegalRun (fun _ => true) (fun _ => true) Hlists.start hlistOps by decide)
  have hanswers : ((runSpec Hlists.spec Hlists.start hlistOps).1).filterMap id =
      [true, true, true, false] := by decide
  have hlist := (hlists 1 [2, 1, 4] (by decide)).2.1 4 (by decide)
  refine ⟨M, by rw [hr, Option.map_some, hanswers], hlist.1, ?_⟩
  exact (hlist.2 [] 2 [1, 4] rfl).2

end KernelHashtable.HList
