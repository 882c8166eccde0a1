import KernelHashtable.Lib.Ring

/-!
# The doubly linked list of list.h

The functions are those of the source, one store per C assignment and in the same
order. A `struct k_list_head` is either the head of the list or a member of an
entry; `k_container_of` on a member gives its entry, and on the head it gives a
pointer that is no entry, which `Loc` keeps apart.
-/

namespace KernelHashtable

inductive Loc (α : Type) where
  | head
  | node (a : α)
  deriving DecidableEq

namespace KList
variable {α : Type}

def listPoison1 : Ptr α := .poison 0x100
def listPoison2 : Ptr α := .poison 0x200

section
variable [DecidableEq α] (ok : α → Bool) (L : Links α)

def kInitListHead (list : Ptr α) : Option (Links α) := do
  let L ← L.storeNext ok list list
  L.storePrev ok list list

def listAdd (new prev next : Ptr α) : Option (Links α) := do
  let L ← L.storePrev ok next new
  let L ← L.storeNext ok new next
  let L ← L.storePrev ok new prev
  L.storeNext ok prev new

def kListAdd (new head : Ptr α) : Option (Links α) := do
  let next ← L.loadNext ok head
  listAdd ok L new head next

def kListAddTail (new head : Ptr α) : Option (Links α) := do
  let prev ← L.loadPrev ok head
  listAdd ok L new prev head

def listDel (prev next : Ptr α) : Option (Links α) := do
  let L ← L.storePrev ok next prev
  L.storeNext ok prev next

def kListDel (entry : Ptr α) : Option (Links α) := do
  let prev ← L.loadPrev ok entry
  let next ← L.loadNext ok entry
  let L ← listDel ok L prev next
  let L ← L.storeNext ok entry listPoison1
  L.storePrev ok entry listPoison2

def kListEmpty (head : Ptr α) : Option Bool := do
  let next ← L.loadNext ok head
  return decide (next = head)

def kListForEach (fuel : ℕ) (head : α) : Option (List α) := do
  let pos ← L.loadNext ok (.addr head)
  Links.walk ok L.next head fuel pos

def kListForEachPrev (fuel : ℕ) (head : α) : Option (List α) := do
  let pos ← L.loadPrev ok (.addr head)
  Links.walk ok L.prev head fuel pos

end

/-- The loop of `k_list_for_each_entry_safe`: the successor `n` is read before the
body runs on `pos`, and the next successor through `n` afterwards. -/
def kListForEachEntrySafeLoop {σ : Type} [DecidableEq α] (load : σ → Ptr α → Option (Ptr α))
    (body : σ → α → Option σ) (head : α) : ℕ → Ptr α → Ptr α → σ → Option σ
  | 0, _, _, _ => none
  | fuel + 1, .addr a, n, s =>
    if a = head then some s else do
      let s ← body s a
      let n' ← load s n
      kListForEachEntrySafeLoop load body head fuel n n' s
  | _ + 1, _, _, _ => none

def kListForEachEntrySafe {σ : Type} [DecidableEq α] (load : σ → Ptr α → Option (Ptr α))
    (body : σ → α → Option σ) (head : α) (fuel : ℕ) (s : σ) : Option σ := do
  let pos ← load s (.addr head)
  let n ← load s pos
  kListForEachEntrySafeLoop load body head fuel pos n s

section
variable [DecidableEq α] {ok : α → Bool} {L : Links α} {h n p q : α} {xs us vs : List α}

theorem kInitListHead_isRing (hh : ok h = true) :
    ∃ L', kInitListHead ok L (.addr h) = some L' ∧ IsRing L' h [] := by
  refine ⟨⟨Function.update L.next h (.addr h), Function.update L.prev h (.addr h)⟩, ?_, ?_⟩
  · simp [kInitListHead, Links.storeNext_addr _ hh, Links.storePrev_addr _ hh]
  · exact IsRing.nil_iff.mpr (by simp)

theorem listAdd_inserted (hn : ok n = true) (hp : ok p = true) (hq : ok q = true)
    (hnp : n ≠ p) (hnq : n ≠ q) :
    ∃ L', listAdd ok L (.addr n) (.addr p) (.addr q) = some L' ∧ Inserted L L' p n q := by
  refine ⟨⟨Function.update (Function.update L.next n (.addr q)) p (.addr n),
    Function.update (Function.update L.prev q (.addr n)) n (.addr p)⟩, ?_, ?_⟩
  · simp [listAdd, Links.storeNext_addr, Links.storePrev_addr, hn, hp, hq]
  · constructor
    · simp
    · simp [hnp]
    · simp
    · simp [hnq.symm]
    · intro x hxp hxn
      simp [hxp, hxn]
    · intro x hxq hxn
      simp [hxq, hxn]

theorem listDel_removed (n : α) (hp : ok p = true) (hq : ok q = true) :
    ∃ L', listDel ok L (.addr p) (.addr q) = some L' ∧ Removed L L' p n q := by
  refine ⟨⟨Function.update L.next p (.addr q), Function.update L.prev q (.addr p)⟩, ?_, ?_⟩
  · simp [listDel, Links.storeNext_addr, Links.storePrev_addr, hp, hq]
  · constructor
    · simp
    · simp
    · intro x hxp _
      simp [hxp]
    · intro x hxq _
      simp [hxq]

omit [DecidableEq α] in
theorem ok_getLastD (hok : ∀ x ∈ h :: xs, ok x = true) : ok (xs.getLastD h) = true :=
  hok _ List.getLastD_mem_cons

omit [DecidableEq α] in
theorem ok_headD (hok : ∀ x ∈ h :: xs, ok x = true) : ok (xs.headD h) = true :=
  hok _ (IsRing.headD_mem h xs)

theorem kListAddTail_isRing (hr : IsRing L h xs) (hok : ∀ x ∈ h :: xs, ok x = true)
    (hn : ok n = true) (hnew : n ∉ h :: xs) :
    ∃ L', kListAddTail ok L (.addr n) (.addr h) = some L' ∧ IsRing L' h (xs ++ [n]) := by
  obtain ⟨L', hL, hi⟩ := listAdd_inserted (L := L) (p := xs.getLastD h) (q := h) hn
    (ok_getLastD hok) (hok h (by simp)) (fun e => hnew (e ▸ List.getLastD_mem_cons))
    (fun e => hnew (by simp [e]))
  refine ⟨L', ?_, ?_⟩
  · simp only [kListAddTail, Links.loadPrev_addr L (hok h (by simp)), hr.prev_head,
      Option.bind_eq_bind, Option.bind_some]
    exact hL
  · have hr' : IsRing L h (xs ++ []) := by simpa using hr
    exact hr'.insert (by simpa using hnew) hi

theorem kListAdd_isRing (hr : IsRing L h xs) (hok : ∀ x ∈ h :: xs, ok x = true)
    (hn : ok n = true) (hnew : n ∉ h :: xs) :
    ∃ L', kListAdd ok L (.addr n) (.addr h) = some L' ∧ IsRing L' h (n :: xs) := by
  obtain ⟨L', hL, hi⟩ := listAdd_inserted (L := L) (p := h) (q := xs.headD h) hn
    (hok h (by simp)) (ok_headD hok) (fun e => hnew (by simp [e]))
    (fun e => hnew (e ▸ IsRing.headD_mem h xs))
  refine ⟨L', ?_, ?_⟩
  · simp only [kListAdd, Links.loadNext_addr L (hok h (by simp)), hr.next_head,
      Option.bind_eq_bind, Option.bind_some]
    exact hL
  · have hr' : IsRing L h ([] ++ xs) := hr
    exact hr'.insert hnew hi

omit [DecidableEq α] in
theorem ok_neighbours (hok : ∀ x ∈ h :: (us ++ n :: vs), ok x = true) :
    ok (us.getLastD h) = true ∧ ok (vs.headD h) = true := by
  refine ⟨ok_getLastD fun x hx => hok x ?_, ok_headD fun x hx => hok x ?_⟩
  · rw [← List.cons_append]
    exact List.mem_append_left _ hx
  · rcases List.mem_cons.mp hx with rfl | hx
    · simp
    · simp [hx]

theorem listDel_isRing (hr : IsRing L h (us ++ n :: vs))
    (hok : ∀ x ∈ h :: (us ++ n :: vs), ok x = true) :
    ∃ L', listDel ok L (.addr (us.getLastD h)) (.addr (vs.headD h)) = some L' ∧
      IsRing L' h (us ++ vs) := by
  obtain ⟨hp, hq⟩ := ok_neighbours hok
  obtain ⟨L', hL, hd⟩ := listDel_removed (L := L) n hp hq
  exact ⟨L', hL, hr.remove hd⟩

theorem kListDel_isRing (hr : IsRing L h (us ++ n :: vs))
    (hok : ∀ x ∈ h :: (us ++ n :: vs), ok x = true) :
    ∃ L', kListDel ok L (.addr n) = some L' ∧ IsRing L' h (us ++ vs) := by
  have hn : ok n = true := hok n (by simp)
  have hout : ∀ x ∈ h :: (us ++ vs), x ≠ n := by
    have hperm : (h :: (us ++ n :: vs)).Perm (n :: h :: (us ++ vs)) :=
      (List.perm_middle.cons h).trans (.swap n h _)
    rintro x hx rfl
    exact (List.nodup_cons.mp (hperm.nodup_iff.mp hr.nodup)).1 hx
  obtain ⟨L', hL, hring⟩ := listDel_isRing hr hok
  refine ⟨⟨Function.update L'.next n listPoison1, Function.update L'.prev n listPoison2⟩, ?_,
    hring.congr fun x hx => by simp [hout x hx]⟩
  simp only [kListDel, Links.loadPrev_addr _ hn, Links.loadNext_addr _ hn, hr.prev_mid,
    hr.next_mid, Option.bind_eq_bind, Option.bind_some, hL, Links.storeNext_addr _ hn,
    Links.storePrev_addr _ hn]

theorem kListEmpty_isRing (hr : IsRing L h xs) (hh : ok h = true) :
    kListEmpty ok L (.addr h) = some (decide (xs = [])) := by
  simp only [kListEmpty, Links.loadNext_addr L hh, hr.next_head, Option.bind_eq_bind,
    Option.bind_some]
  cases xs with
  | nil => simp
  | cons x xs =>
    have hne : x ≠ h := fun e => (List.nodup_cons.mp hr.nodup).1 (by simp [e])
    simp [hne]

theorem kListForEach_isRing (hr : IsRing L h xs) (hok : ∀ x ∈ h :: xs, ok x = true) {fuel : ℕ}
    (hf : xs.length < fuel) :
    kListForEach ok L fuel h = some xs ∧ kListForEachPrev ok L fuel h = some xs.reverse := by
  have hx : ∀ x ∈ xs, ok x = true := fun x hx => hok x (List.mem_cons_of_mem h hx)
  constructor
  · simp [kListForEach, Links.loadNext_addr L (hok h (by simp)), hr.walk_next hx hf]
  · simp [kListForEachPrev, Links.loadPrev_addr L (hok h (by simp)), hr.walk_prev hx hf]

end

section
variable {σ : Type} [DecidableEq α] {L : Links α} {h : α} {load : σ → Ptr α → Option (Ptr α)}
  {body : σ → α → Option σ} {xs us rest : List α}

theorem kListForEachEntrySafeLoop_ring (hr : IsRing L h (us ++ rest)) (I : σ → List α → Prop)
    (hload : ∀ s ys, I s ys → ∀ y ∈ h :: ys, load s (.addr y) = some (L.next y))
    (hbody : ∀ s x ys, I s (x :: ys) → ∃ s', body s x = some s' ∧ I s' ys)
    {s : σ} (hI : I s rest) {fuel : ℕ} (hf : rest.length < fuel) :
    ∃ s', kListForEachEntrySafeLoop load body h fuel (.addr (rest.headD h))
      (L.next (rest.headD h)) s = some s' ∧ I s' [] := by
  induction rest generalizing us s fuel with
  | nil =>
    obtain ⟨f, rfl⟩ : ∃ f, fuel = f + 1 := ⟨fuel - 1, by simp at hf; omega⟩
    exact ⟨s, by simp [kListForEachEntrySafeLoop], hI⟩
  | cons x rest ih =>
    obtain ⟨f, rfl⟩ : ∃ f, fuel = f + 1 := ⟨fuel - 1, by simp at hf; omega⟩
    have hxh : x ≠ h := by
      intro e
      exact (List.nodup_cons.mp hr.nodup).1 (by simp [e])
    obtain ⟨s₁, hs₁, hI₁⟩ := hbody s x rest hI
    have hr' : IsRing L h ((us ++ [x]) ++ rest) := by simpa using hr
    have hlt : rest.length < f := by
      simp at hf
      omega
    obtain ⟨s₂, hs₂, hI₂⟩ := ih hr' hI₁ hlt
    have hnext := hload s₁ rest hI₁ (rest.headD h) (IsRing.headD_mem h rest)
    refine ⟨s₂, ?_, hI₂⟩
    simp [kListForEachEntrySafeLoop, hxh, hs₁, hr.next_mid, hnext, hs₂,
      -List.headD_eq_head?_getD]

/-- The safe traversal of a ring. `I s ys` holds before the body runs on the first of
the entries `ys` that are still to come, whose links, like the head's, must be readable
as they were at the start; the body may spoil the entry it was given. -/
theorem kListForEachEntrySafe_ring (hr : IsRing L h xs) (I : σ → List α → Prop)
    (hload : ∀ s ys, I s ys → ∀ y ∈ h :: ys, load s (.addr y) = some (L.next y))
    (hbody : ∀ s x ys, I s (x :: ys) → ∃ s', body s x = some s' ∧ I s' ys)
    {s : σ} (hI : I s xs) {fuel : ℕ} (hf : xs.length < fuel) :
    ∃ s', kListForEachEntrySafe load body h fuel s = some s' ∧ I s' [] := by
  have hr' : IsRing L h ([] ++ xs) := hr
  obtain ⟨s', hs, hI'⟩ := kListForEachEntrySafeLoop_ring hr' I hload hbody hI hf
  refine ⟨s', ?_, hI'⟩
  have hhead := hload s xs hI h (by simp)
  have hfirst := hload s xs hI (xs.headD h) (IsRing.headD_mem h xs)
  simp [kListForEachEntrySafe, hhead, hr.next_head, hfirst, hs, -List.headD_eq_head?_getD]

end
end KList
end KernelHashtable
