import KernelHashtable.KListCircles
import KernelHashtable.Lib.Run
import Mathlib.Data.Fintype.Basic

/-!
# Runs over a family of lists

Any lists of a memory are worked on at once by any sequence of the operations of list.h. The
operations keep the lists apart and do to each what its abstract counterpart does to a list of
nodes, from a memory in which nothing has been initialised yet.
-/

namespace KernelHashtable.KList
variable {γ : Type} [DecidableEq γ]

inductive ListOp (γ : Type) where
  | init (list : γ)
  | add (new head : γ)
  | addTail (new head : γ)
  | del (entry : γ)
  | delInit (entry : γ)
  | replace (old new : γ)
  | replaceInit (old new : γ)
  | move (list head : γ)
  | moveTail (list head : γ)
  | rotateLeft (head : γ)
  | cutPosition (list head entry : γ)
  | splice (list head : γ)
  | spliceTail (list head : γ)
  | spliceInit (list head : γ)
  | spliceTailInit (list head : γ)
  | delRange (first last : γ)
  | empty (head : γ)
  | emptyCareful (head : γ)
  | isLast (list head : γ)
  | isSingular (head : γ)
  | firstEntryOrNull (ptr : γ)
  | lastEntryOrNull (ptr : γ)
  deriving DecidableEq

inductive ListAnswer (γ : Type) where
  | done
  | bool (b : Bool)
  | entry (p : Ptr γ)
  deriving DecidableEq

section
variable (ok : γ → Bool)

def changed (L : Option (Links γ)) : Option (ListAnswer γ × Links γ) := L.map fun L => (.done, L)

def listOpStep (L : Links γ) : ListOp γ → Option (ListAnswer γ × Links γ)
  | .init list => changed (kInitListHead ok L (.addr list))
  | .add new head => changed (kListAdd ok L (.addr new) (.addr head))
  | .addTail new head => changed (kListAddTail ok L (.addr new) (.addr head))
  | .del entry => changed (kListDel ok L (.addr entry))
  | .delInit entry => changed (kListDelInit ok L (.addr entry))
  | .replace old new => changed (kListReplace ok L (.addr old) (.addr new))
  | .replaceInit old new => changed (kListReplaceInit ok L (.addr old) (.addr new))
  | .move list head => changed (kListMove ok L (.addr list) (.addr head))
  | .moveTail list head => changed (kListMoveTail ok L (.addr list) (.addr head))
  | .rotateLeft head => changed (kListRotateLeft ok L (.addr head))
  | .cutPosition list head entry =>
    changed (kListCutPosition ok L (.addr list) (.addr head) (.addr entry))
  | .splice list head => changed (kListSplice ok L (.addr list) (.addr head))
  | .spliceTail list head => changed (kListSpliceTail ok L (.addr list) (.addr head))
  | .spliceInit list head => changed (kListSpliceInit ok L (.addr list) (.addr head))
  | .spliceTailInit list head => changed (kListSpliceTailInit ok L (.addr list) (.addr head))
  | .delRange first last => changed (listDelRange ok L (.addr first) (.addr last))
  | .empty head => (kListEmpty ok L (.addr head)).map fun b => (.bool b, L)
  | .emptyCareful head => (kListEmptyCareful ok L (.addr head)).map fun b => (.bool b, L)
  | .isLast list head => (kListIsLast ok L (.addr list) (.addr head)).map fun b => (.bool b, L)
  | .isSingular head => (kListIsSingular ok L (.addr head)).map fun b => (.bool b, L)
  | .firstEntryOrNull ptr => (kListFirstEntryOrNull ok L (.addr ptr)).map fun p => (.entry p, L)
  | .lastEntryOrNull ptr => (kListLastEntryOrNull ok L (.addr ptr)).map fun p => (.entry p, L)

end

def withoutRange (s : Circles γ) (first last : γ) : Circles γ := fun g => (s g).map fun xs =>
  if first ∈ xs then xs.take (xs.idxOf first) ++ xs.drop (xs.idxOf last + 1) else xs

def orNull (x : Option γ) : Ptr γ := x.elim .null .addr

def spliced (s : Circles γ) (list : γ) (place : Circles γ → List γ → Circles γ) : Circles γ :=
  match s list with
  | some (x :: xs) => place (s.forget list) (x :: xs)
  | _ => s

def listOpSpec (s : Circles γ) : ListOp γ → ListAnswer γ × Circles γ
  | .init list => (.done, Function.update s list (some []))
  | .add new head => (.done, (s.forget new).behind head [new])
  | .addTail new head => (.done, (s.forget new).before head [new])
  | .del entry => (.done, s.without entry)
  | .delInit entry => (.done, Function.update (s.without entry) entry (some []))
  | .replace old new => (.done, (s.forget new).rename old new)
  | .replaceInit old new => (.done, Function.update ((s.forget new).rename old new) old (some []))
  | .move list head => (.done, (s.without list).behind head [list])
  | .moveTail list head => (.done, (s.without list).before head [list])
  | .rotateLeft head => (.done, Function.update s head ((s head).map (·.rotate 1)))
  | .cutPosition list head entry => (.done, cutAt s list head entry)
  | .splice list head => (.done, spliced s list (·.behind head ·))
  | .spliceTail list head => (.done, spliced s list (·.before head ·))
  | .spliceInit list head =>
    (.done, Function.update (spliced s list (·.behind head ·)) list (some []))
  | .spliceTailInit list head =>
    (.done, Function.update (spliced s list (·.before head ·)) list (some []))
  | .delRange first last => (.done, withoutRange s first last)
  | .empty head => (.bool (decide (s head = some [])), s)
  | .emptyCareful head => (.bool (decide (s head = some [])), s)
  | .isLast list head => (.bool (decide (list = ((s head).getD []).getLastD head)), s)
  | .isSingular head => (.bool (decide (((s head).getD []).length = 1)), s)
  | .firstEntryOrNull ptr => (.entry (orNull ((s ptr).getD []).head?), s)
  | .lastEntryOrNull ptr => (.entry (orNull ((s ptr).getD []).getLast?), s)

/-- What the header asks of a caller. A node that is given a new place is in no list, but may
be one that it heads, whose members are then given up; a place is any node of a list, its head
included; a list is one that has been initialised. -/
def ListOp.Legal (ok : γ → Bool) (s : Circles γ) : ListOp γ → Prop
  | .init list => ok list = true ∧ s.Free list
  | .add new head | .addTail new head =>
    ok new = true ∧ s.Free new ∧ (s.forget new).Owns head
  | .del entry | .delInit entry => s.Owns entry
  | .replace old new | .replaceInit old new =>
    ok new = true ∧ s.Free new ∧ (s.forget new).Owns old
  | .move list head | .moveTail list head => s.Owns list ∧ (s.without list).Owns head
  | .rotateLeft head => ∃ xs, s head = some xs
  | .cutPosition list head entry => ok list = true ∧ s.Free list ∧ list ≠ head ∧
    ∃ xs, s head = some xs ∧ (xs.length ≤ 1 ∨ entry ∈ head :: xs)
  | .splice list head | .spliceTail list head | .spliceInit list head
  | .spliceTailInit list head =>
    ∃ xs, s list = some xs ∧ (xs ≠ [] → (s.forget list).Owns head)
  | .delRange first last => ∃ g xs, s g = some xs ∧ first ∈ xs ∧ last ∈ xs ∧
    xs.idxOf first ≤ xs.idxOf last
  | .empty head | .emptyCareful head => s.Owns head
  | .isLast list head => (∃ xs, s head = some xs) ∧ s.Owns list
  | .isSingular head | .firstEntryOrNull head | .lastEntryOrNull head => ∃ xs, s head = some xs

section
variable [Fintype γ]

instance decidableOwns (s : Circles γ) (x : γ) : Decidable (s.Owns x) :=
  inferInstanceAs (Decidable (∃ h, ∃ xs, xs ∈ s h ∧ x ∈ h :: xs))

instance decidableFree (s : Circles γ) (x : γ) : Decidable (s.Free x) :=
  inferInstanceAs (Decidable (∀ g, ∀ xs, xs ∈ s g → x ∉ xs))

instance decidableHeads (s : Circles γ) (h : γ) (P : List γ → Prop) [DecidablePred P] :
    Decidable (∃ xs, s h = some xs ∧ P xs) :=
  inferInstanceAs (Decidable (∃ xs, xs ∈ s h ∧ P xs))

instance decidableIsHead (s : Circles γ) (h : γ) : Decidable (∃ xs, s h = some xs) :=
  decidable_of_iff ((s h).isSome = true) Option.isSome_iff_exists

instance decidableLegal (ok : γ → Bool) (s : Circles γ) : DecidablePred (ListOp.Legal ok s)
  | .init _ => instDecidableAnd
  | .add _ _ | .addTail _ _ | .replace _ _ | .replaceInit _ _ | .cutPosition _ _ _ =>
    instDecidableAnd
  | .del e | .delInit e => inferInstanceAs (Decidable (s.Owns e))
  | .empty h | .emptyCareful h => inferInstanceAs (Decidable (s.Owns h))
  | .move _ _ | .moveTail _ _ | .isLast _ _ => instDecidableAnd
  | .rotateLeft h | .isSingular h | .firstEntryOrNull h | .lastEntryOrNull h =>
    inferInstanceAs (Decidable (∃ xs, s h = some xs))
  | .splice x p | .spliceTail x p | .spliceInit x p | .spliceTailInit x p =>
    inferInstanceAs (Decidable (∃ xs, s x = some xs ∧ (xs ≠ [] → (s.forget x).Owns p)))
  | .delRange a b => inferInstanceAs (Decidable (∃ g xs, s g = some xs ∧ a ∈ xs ∧ b ∈ xs ∧
      xs.idxOf a ≤ xs.idxOf b))

end

section
variable {ok : γ → Bool} {L : Links γ} {s : Circles γ} {x : γ} {xs : List γ}

omit [DecidableEq γ] in
theorem changed_of {L' : Links γ} {t : Circles γ} {c : Option (Links γ)} (hc : c = some L')
    (ht : IsCircles ok L' t) :
    ∃ L', changed c = some (.done, L') ∧ IsCircles ok L' t :=
  ⟨L', by rw [hc]; rfl, ht⟩

omit [DecidableEq γ] in
theorem not_mem_of_append {us vs : List γ} (h : (us ++ x :: vs).Nodup) : x ∉ us :=
  fun hm => (List.nodup_append.mp h).2.2 x hm x (by simp) rfl

theorem withoutRange_eq {h first : γ} {us ys vs : List γ} (hs : IsCircles ok L s)
    (hh : s h = some (us ++ first :: (ys ++ vs))) :
    withoutRange s first (ys.getLastD first) = Function.update s h (some (us ++ vs)) := by
  refine hs.ext_at hh (x := first) (by simp) ?_ (fun g zs _ hg hx => ?_) (fun g _ hg => ?_)
    fun g hg => Function.update_of_ne hg _ _
  · have hnd : (us ++ first :: (ys ++ vs)).Nodup := (List.nodup_cons.mp (hs.ring h _ hh).nodup).2
    obtain ⟨A, hA⟩ := IsRing.cons_eq_concat_getLastD first ys
    have hsplit : us ++ first :: (ys ++ vs) = (us ++ A) ++ ys.getLastD first :: vs := by
      rw [← List.cons_append, hA]
      simp
    have hfirst : (us ++ first :: (ys ++ vs)).idxOf first = us.length := by
      simp [List.idxOf_append, not_mem_of_append hnd]
    have hdrop := (take_idxOf vs (not_mem_of_append (hsplit ▸ hnd))).2
    rw [← hsplit] at hdrop
    simp only [withoutRange, hh, Option.map_some, if_pos (show first ∈ us ++ first :: (ys ++ vs) by
      simp), hdrop, hfirst, List.take_left', Function.update_self]
  · have hz : first ∉ zs := fun hm => hx (List.mem_cons_of_mem g hm)
    simp [withoutRange, hg, hz]
  · simp [withoutRange, hg]

theorem exists_range {first last : γ}
    (h : first ∈ xs ∧ last ∈ xs ∧ xs.idxOf first ≤ xs.idxOf last) :
    ∃ us ys vs, xs = us ++ first :: (ys ++ vs) ∧ last = ys.getLastD first := by
  obtain ⟨us, ws, rfl, hu⟩ := List.eq_append_cons_of_mem h.1
  obtain ⟨-, hlast, hle⟩ := h
  obtain rfl | hne := eq_or_ne last first
  · exact ⟨us, [], ws, rfl, rfl⟩
  · have hfirst : (us ++ first :: ws).idxOf first = us.length := by simp [List.idxOf_append, hu]
    have hlu : last ∉ us := by
      intro hm
      have hlt := List.idxOf_lt_length_of_mem hm
      rw [hfirst, List.idxOf_append, if_pos hm] at hle
      omega
    have hw : last ∈ ws := by simpa [hlu, hne] using hlast
    obtain ⟨ys, vs, rfl⟩ := List.append_of_mem hw
    exact ⟨us, ys ++ [last], vs, by simp, by simp⟩

theorem listOpStep_circles (hs : IsCircles ok L s) {o : ListOp γ} (ho : o.Legal ok s) :
    ∃ L', listOpStep ok L o = some ((listOpSpec s o).1, L') ∧
      IsCircles ok L' (listOpSpec s o).2 := by
  cases o with
  | init list =>
    have hsolo := (hs.forget list).solo ho.1 (IsCircles.not_owns_of_free ho.2)
    rw [Circles.forget, Function.update_idem] at hsolo
    exact changed_of (kInitListHead_eq ho.1) hsolo
  | add new head =>
    obtain ⟨hok, hfree, hown⟩ := ho
    obtain ⟨L', h', hs'⟩ := kListAdd_circles (hs.forget new) hown
      (IsCircles.not_owns_of_free hfree) hok
    exact changed_of h' hs'
  | addTail new head =>
    obtain ⟨hok, hfree, hown⟩ := ho
    obtain ⟨L', h', hs'⟩ := kListAddTail_circles (hs.forget new) hown
      (IsCircles.not_owns_of_free hfree) hok
    exact changed_of h' hs'
  | del entry =>
    obtain ⟨L', h', hs', -⟩ := kListDel_circles hs ho
    exact changed_of h' hs'
  | delInit entry =>
    obtain ⟨L', h', hs'⟩ := kListDelInit_circles hs ho
    exact changed_of h' hs'
  | replace old new =>
    obtain ⟨hok, hfree, hown⟩ := ho
    obtain ⟨L', h', hs'⟩ := kListReplace_circles (hs.forget new) hown
      (IsCircles.not_owns_of_free hfree) hok
    exact changed_of h' hs'
  | replaceInit old new =>
    obtain ⟨hok, hfree, hown⟩ := ho
    obtain ⟨L', h', hs'⟩ := kListReplaceInit_circles (hs.forget new) hown
      (IsCircles.not_owns_of_free hfree) hok
    exact changed_of h' hs'
  | move list head =>
    obtain ⟨L', h', hs'⟩ := kListMove_circles hs ho.1 ho.2
    exact changed_of h' hs'
  | moveTail list head =>
    obtain ⟨L', h', hs'⟩ := kListMoveTail_circles hs ho.1 ho.2
    exact changed_of h' hs'
  | rotateLeft head =>
    obtain ⟨xs, hx⟩ := ho
    obtain ⟨L', h', hs'⟩ := kListRotateLeft_circles hs hx
    exact changed_of h' (by simpa [listOpSpec, hx] using hs')
  | cutPosition list head entry =>
    obtain ⟨hok, hfree, hne, xs, hx, he⟩ := ho
    obtain ⟨L', h', hs'⟩ := kListCutPosition_circles hs hx hfree hok hne he
    exact changed_of h' hs'
  | splice list head =>
    obtain ⟨xs, hx, hown⟩ := ho
    obtain ⟨L', h', hs', -, -⟩ := kListSplice_circles hs hx hown
    refine changed_of h' ?_
    cases xs <;> simpa [listOpSpec, spliced, hx] using hs'
  | spliceTail list head =>
    obtain ⟨xs, hx, hown⟩ := ho
    obtain ⟨L', h', hs', -, -⟩ := kListSpliceTail_circles hs hx hown
    refine changed_of h' ?_
    cases xs <;> simpa [listOpSpec, spliced, hx] using hs'
  | spliceInit list head =>
    obtain ⟨xs, hx, hown⟩ := ho
    have hok := hs.live list ⟨list, xs, hx, by simp⟩
    obtain ⟨L', -, hs', h', hnot⟩ := kListSplice_circles hs hx hown
    refine changed_of h' ?_
    cases xs with
    | nil =>
      have hsame : Function.update s list (some []) = s := by rw [← hx, Function.update_eq_self]
      simpa [listOpSpec, spliced, hx, hsame] using hs'
    | cons y ys => simpa [listOpSpec, spliced, hx] using hs'.solo hok (hnot (by simp))
  | spliceTailInit list head =>
    obtain ⟨xs, hx, hown⟩ := ho
    have hok := hs.live list ⟨list, xs, hx, by simp⟩
    obtain ⟨L', -, hs', h', hnot⟩ := kListSpliceTail_circles hs hx hown
    refine changed_of h' ?_
    cases xs with
    | nil =>
      have hsame : Function.update s list (some []) = s := by rw [← hx, Function.update_eq_self]
      simpa [listOpSpec, spliced, hx, hsame] using hs'
    | cons y ys => simpa [listOpSpec, spliced, hx] using hs'.solo hok (hnot (by simp))
  | delRange first last =>
    obtain ⟨g, xs, hg, hrange⟩ := ho
    obtain ⟨us, ys, vs, rfl, rfl⟩ := exists_range hrange
    obtain ⟨L', h', hs'⟩ := listDelRange_circles hs hg
    rw [← withoutRange_eq hs hg] at hs'
    exact changed_of h' hs'
  | empty head =>
    exact ⟨L, by simp [listOpStep, listOpSpec, kListEmpty_circles hs ho], hs⟩
  | emptyCareful head =>
    exact ⟨L, by simp [listOpStep, listOpSpec, kListEmptyCareful_circles hs ho], hs⟩
  | isLast list head =>
    obtain ⟨⟨xs, hx⟩, hown⟩ := ho
    refine ⟨L, ?_, hs⟩
    rw [listOpStep, kListIsLast_circles hs hx hown]
    simp [listOpSpec, hx]
  | isSingular head =>
    obtain ⟨xs, hx⟩ := ho
    exact ⟨L, by simp [listOpStep, listOpSpec, kListIsSingular_circles hs hx, hx], hs⟩
  | firstEntryOrNull ptr =>
    obtain ⟨xs, hx⟩ := ho
    exact ⟨L, by simp [listOpStep, listOpSpec, kListFirstEntryOrNull_circles hs hx, hx, orNull], hs⟩
  | lastEntryOrNull ptr =>
    obtain ⟨xs, hx⟩ := ho
    exact ⟨L, by simp [listOpStep, listOpSpec, kListLastEntryOrNull_circles hs hx, hx, orNull], hs⟩

def LegalRun (ok : γ → Bool) : Circles γ → List (ListOp γ) → Prop :=
  AllSteps (fun s o => some (listOpSpec s o)) (fun s o => o.Legal ok s)

instance decidableLegalRun [Fintype γ] (s : Circles γ) (os : List (ListOp γ)) :
    Decidable (LegalRun ok s os) :=
  decidableAllSteps s os

theorem listOp_run (hs : IsCircles ok L s) {os : List (ListOp γ)} (hos : LegalRun ok s os) :
    ∃ L', run (listOpStep ok) L os = some ((runSpec listOpSpec s os).1, L') ∧
      IsCircles ok L' (runSpec listOpSpec s os).2 := by
  obtain ⟨rs, L', hr, hrs, -, hs', -⟩ := run_simulates (γ := Unit) listOpSpec id
    (fun g _ _ => g) (R := fun L s _ os => IsCircles ok L s ∧ LegalRun ok s os)
    (fun L s _ o os hR => by
      obtain ⟨L', h', hs'⟩ := listOpStep_circles hR.1 hR.2.1
      exact ⟨_, L', h', rfl, hs', hR.2.2 _ _ rfl⟩) (g := ()) ⟨hs, hos⟩
  rw [List.map_id] at hrs
  exact ⟨L', by rw [hr, hrs], hs'⟩

/-- Whatever the memory holds at first, the operations on all its lists answer as on lists of
nodes, and every list can be walked from both ends. -/
theorem listOp_run_refines (L₀ : Links γ) {os : List (ListOp γ)}
    (hos : LegalRun ok (fun _ => none) os) :
    ∃ L, run (listOpStep ok) L₀ os = some ((runSpec listOpSpec (fun _ => none) os).1, L) ∧
      ∀ h xs, (runSpec listOpSpec (fun _ => none) os).2 h = some xs →
        (∀ fuel, xs.length < fuel → kListForEach ok L fuel h = some xs ∧
          kListForEachPrev ok L fuel h = some xs.reverse) ∧
        ∀ g ys, (runSpec listOpSpec (fun _ => none) os).2 g = some ys → g ≠ h →
          List.Disjoint (g :: ys) (h :: xs) := by
  obtain ⟨L, hr, hs⟩ := listOp_run (IsCircles.empty ok L₀) hos
  refine ⟨L, hr, fun h xs hh => ⟨fun fuel hf => ?_, fun g ys hg hgh x hx hx' => ?_⟩⟩
  · exact kListForEach_isRing (hs.ring h xs hh) (fun x hx => hs.live x ⟨h, xs, hh, hx⟩) hf
  · exact hgh (hs.apart g h ys xs x hg hh hx hx')

end

def exampleOps : List (ListOp (Fin 8)) :=
  [.init 0, .init 1, .addTail 2 0, .addTail 3 0, .add 4 2, .addTail 5 1, .replace 2 6,
    .rotateLeft 0, .addTail 2 1, .move 3 1, .spliceTailInit 1 0, .cutPosition 7 0 3, .delInit 4,
    .replaceInit 7 1, .delRange 5 2, .isLast 3 1, .isSingular 0, .firstEntryOrNull 1]

theorem listOp_run_refines_example : ∃ L : Links (Fin 8),
    (run (listOpStep fun _ => true) ⟨fun _ => .null, fun _ => .poison 7⟩ exampleOps).map
      (fun r => (r.1.drop 15, r.2)) =
      some ([.bool true, .bool false, .entry (.addr 6)], L) ∧
    kListForEach (fun _ => true) L 4 1 = some [6, 3] ∧
    kListForEach (fun _ => true) L 4 0 = some [] := by
  obtain ⟨L, hr, hlists⟩ := listOp_run_refines ⟨fun _ => .null, fun _ => .poison 7⟩
    (show LegalRun (fun _ => true) (fun _ => none) exampleOps by decide)
  have hanswers : (runSpec listOpSpec (fun _ => none) exampleOps).1.drop 15 =
      [.bool true, .bool false, .entry (.addr 6)] := by decide
  refine ⟨L, by rw [hr, Option.map_some, hanswers], ?_, ?_⟩
  · exact ((hlists 1 [6, 3] (by decide)).1 4 (by decide)).1
  · exact ((hlists 0 [] (by decide)).1 4 (by decide)).1

end KernelHashtable.KList
