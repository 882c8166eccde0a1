import KernelHashtable.KList
import KernelHashtable.Lib.Chain
import KernelHashtable.Lib.Run

/-!
# The hash list of list.h

A node of an hlist stores in `pprev` the address of the pointer that points to it.
A store through `*pprev` is a store to a `Cell`: the `first` field of a list head or
the `next` field of another node. The two traversal macros hand every entry to a body
that may ask for a `break`; the macro variant `_safe` reads the successor before the
body runs.
-/

namespace KernelHashtable.HList
open KList (listPoison1 listPoison2)

variable {β α : Type}

/-- Which cells can be reached: the heads in the table and the fields of the nodes. -/
def cellOk (okHead : β → Bool) (okNode : α → Bool) : Cell β α → Bool
  | .first b => okHead b
  | .next a => okNode a

section
variable [DecidableEq β] [DecidableEq α] (okHead : β → Bool) (okNode : α → Bool)
  (M : Buckets β α)

def loadFirst (h : β) : Option (Ptr α) := if okHead h then some (M.first h) else none

def loadNext (n : Ptr α) : Option (Ptr α) := (n.deref okNode).map M.next

def loadPprev (n : Ptr α) : Option (Ptr (Cell β α)) := (n.deref okNode).map M.pprev

def storeFirst (h : β) (v : Ptr α) : Option (Buckets β α) :=
  if okHead h then some (M.set (.first h) v) else none

def storeCell (c : Ptr (Cell β α)) (v : Ptr α) : Option (Buckets β α) :=
  (c.deref (cellOk okHead okNode)).map fun c => M.set c v

def storeNext (n v : Ptr α) : Option (Buckets β α) :=
  (n.deref okNode).map fun a => M.set (.next a) v

def storePprev (n : Ptr α) (v : Ptr (Cell β α)) : Option (Buckets β α) :=
  (n.deref okNode).map fun a => M.setPprev a v

def initHlistHead (h : β) : Option (Buckets β α) := storeFirst okHead M h .null

def initHlistNode (h : Ptr α) : Option (Buckets β α) := do
  let M ← storeNext okNode M h .null
  storePprev okNode M h .null

def hlistUnhashed (h : Ptr α) : Option Bool := do
  let pprev ← loadPprev okNode M h
  return decide (pprev = .null)

def hlistEmpty (h : β) : Option Bool := do
  let first ← loadFirst okHead M h
  return decide (first = .null)

/-- `__hlist_del`. -/
def hlistDelLinks (n : Ptr α) : Option (Buckets β α) := do
  let next ← loadNext okNode M n
  let pprev ← loadPprev okNode M n
  let M ← storeCell okHead okNode M pprev next
  if next = .null then return M else storePprev okNode M next pprev

def hlistDel (n : Ptr α) : Option (Buckets β α) := do
  let M ← hlistDelLinks okHead okNode M n
  let M ← storeNext okNode M n listPoison1
  storePprev okNode M n listPoison2

def hlistDelInit (n : Ptr α) : Option (Buckets β α) := do
  let unhashed ← hlistUnhashed okNode M n
  if unhashed then return M else do
    let M ← hlistDelLinks okHead okNode M n
    initHlistNode okNode M n

def hlistAddHead (n : α) (h : β) : Option (Buckets β α) := do
  let first ← loadFirst okHead M h
  let M ← storeNext okNode M (.addr n) first
  let M ← if first = .null then some M else storePprev okNode M first (.addr (.next n))
  let M ← storeFirst okHead M h (.addr n)
  storePprev okNode M (.addr n) (.addr (.first h))

end

section
variable {σ : Type} (next : σ → Ptr α → Option (Ptr α)) (body : σ → α → Option (σ × Bool))

/-- `hlist_for_each_entry` from `pos` on. The result is the cursor, which is the
entry at which the body asked for a `break` and null otherwise. -/
def hlistForEachEntry : ℕ → Ptr α → σ → Option (Option α × σ)
  | 0, _, _ => none
  | _ + 1, .null, s => some (none, s)
  | _ + 1, .poison _, _ => none
  | fuel + 1, .addr pos, s => do
    let (s, brk) ← body s pos
    if brk then return (some pos, s) else do
      let n ← next s (.addr pos)
      hlistForEachEntry fuel n s

def hlistForEachEntrySafe : ℕ → Ptr α → σ → Option (Option α × σ)
  | 0, _, _ => none
  | _ + 1, .null, s => some (none, s)
  | _ + 1, .poison _, _ => none
  | fuel + 1, .addr pos, s => do
    let n ← next s (.addr pos)
    let (s, brk) ← body s pos
    if brk then return (some pos, s) else hlistForEachEntrySafe fuel n s

end

section
variable [DecidableEq β] [DecidableEq α] {okHead : β → Bool} {okNode : α → Bool}
  {M : Buckets β α} {n : α} {b : β}

omit [DecidableEq β] [DecidableEq α] in
theorem loadNext_addr (hn : okNode n = true) : loadNext okNode M (.addr n) = some (M.next n) := by
  simp [loadNext, Ptr.deref_addr hn]

omit [DecidableEq β] [DecidableEq α] in
theorem loadPprev_addr (hn : okNode n = true) :
    loadPprev okNode M (.addr n) = some (M.pprev n) := by
  simp [loadPprev, Ptr.deref_addr hn]

theorem storeNext_addr (hn : okNode n = true) (v : Ptr α) :
    storeNext okNode M (.addr n) v = some (M.set (.next n) v) := by
  simp [storeNext, Ptr.deref_addr hn]

omit [DecidableEq β] in
theorem storePprev_addr (hn : okNode n = true) (v : Ptr (Cell β α)) :
    storePprev okNode M (.addr n) v = some (M.setPprev n v) := by
  simp [storePprev, Ptr.deref_addr hn]

theorem hlistAddHead_pushed (hb : okHead b = true) (hn : okNode n = true)
    (hf : ∀ x, M.first b = .addr x → okNode x = true ∧ x ≠ n)
    (hp : ∀ k, M.first b ≠ .poison k) :
    ∃ M', hlistAddHead okHead okNode M n b = some M' ∧ Pushed M M' (.first b) n := by
  cases hfirst : M.first b with
  | poison k => exact absurd hfirst (hp k)
  | null =>
    refine ⟨((M.set (.next n) .null).set (.first b) (.addr n)).setPprev n (.addr (.first b)),
      ?_, ?_⟩
    · simp [hlistAddHead, loadFirst, storeFirst, hb, hfirst, storeNext_addr hn,
        storePprev_addr hn]
    · constructor
      · simp
      · rw [← Buckets.get_next, Buckets.get_first, hfirst]
        simp [Buckets.get_set_of_ne]
      · simp
      · intro x hx
        simp [Buckets.get_first, hfirst] at hx
      · intro d hd hdn
        simp [Buckets.get_set_of_ne, hd, hdn]
      · intro x hx _
        simp [Buckets.pprev_setPprev_of_ne _ hx]
  | addr x =>
    obtain ⟨hx, hxn⟩ := hf x hfirst
    refine ⟨(((M.set (.next n) (.addr x)).setPprev x (.addr (.next n))).set (.first b)
      (.addr n)).setPprev n (.addr (.first b)), ?_, ?_⟩
    · simp [hlistAddHead, loadFirst, storeFirst, hb, hfirst, storeNext_addr hn,
        storePprev_addr hn, storePprev_addr hx]
    · constructor
      · simp
      · rw [← Buckets.get_next, Buckets.get_first, hfirst]
        simp [Buckets.get_set_of_ne]
      · simp
      · intro y hy
        have hyx : x = y := by simpa [Buckets.get_first, hfirst] using hy
        subst hyx
        simp [Buckets.pprev_setPprev_of_ne _ hxn]
      · intro d hd hdn
        simp [Buckets.get_set_of_ne, hd, hdn]
      · intro y hy hyf
        have hyx : y ≠ x := fun e => hyf (by simp [Buckets.get_first, hfirst, e])
        simp [Buckets.pprev_setPprev_of_ne _ hy, Buckets.pprev_setPprev_of_ne _ hyx]

theorem hlistDelLinks_pulled {d : Cell β α} (hn : okNode n = true)
    (hpp : M.pprev n = .addr d) (hd : cellOk okHead okNode d = true)
    (hy : ∀ y, M.next n = .addr y → okNode y = true ∧ y ≠ n)
    (hp : ∀ k, M.next n ≠ .poison k) :
    ∃ M', hlistDelLinks okHead okNode M (.addr n) = some M' ∧ Pulled M M' d n := by
  have hcell : storeCell okHead okNode M (.addr d) (M.next n) = some (M.set d (M.next n)) := by
    simp [storeCell, Ptr.deref_addr hd]
  cases hnext : M.next n with
  | poison k => exact absurd hnext (hp k)
  | null =>
    refine ⟨M.set d .null, ?_, ?_⟩
    · rw [hnext] at hcell
      simp [hlistDelLinks, loadNext_addr hn, loadPprev_addr hn, hpp, hnext, hcell]
    · constructor
      · simp [hnext]
      · simp [hnext]
      · intro e he _
        exact Buckets.get_set_of_ne M he _
      · simp
  | addr y =>
    obtain ⟨hoky, hyn⟩ := hy y hnext
    refine ⟨(M.set d (.addr y)).setPprev y (.addr d), ?_, ?_⟩
    · rw [hnext] at hcell
      simp [hlistDelLinks, loadNext_addr hn, loadPprev_addr hn, hpp, hnext, hcell,
        storePprev_addr hoky]
    · constructor
      · simp [hnext]
      · intro z hz
        have hyz : y = z := by simpa [hnext] using hz
        subst hyz
        simp
      · intro e he _
        simp [Buckets.get_set_of_ne M he]
      · intro z hz hzy
        have hzne : z ≠ y := fun e => hzy (by rw [hnext, e])
        simp [Buckets.pprev_setPprev_of_ne _ hzne]

theorem hlistDel_pulled {d : Cell β α} (hn : okNode n = true)
    (hpp : M.pprev n = .addr d) (hd : cellOk okHead okNode d = true) (hdn : d ≠ .next n)
    (hy : ∀ y, M.next n = .addr y → okNode y = true ∧ y ≠ n)
    (hp : ∀ k, M.next n ≠ .poison k) :
    ∃ M', hlistDel okHead okNode M (.addr n) = some M' ∧ Pulled M M' d n := by
  obtain ⟨M', hM, hpull⟩ := hlistDelLinks_pulled hn hpp hd hy hp
  refine ⟨_, ?_, hpull.overwrite hdn (fun e => (hy n e).2 rfl) listPoison1 listPoison2⟩
  simp [hlistDel, hM, storeNext_addr hn, storePprev_addr hn]

theorem hlistDelInit_pulled {d : Cell β α} (hn : okNode n = true)
    (hpp : M.pprev n = .addr d) (hd : cellOk okHead okNode d = true) (hdn : d ≠ .next n)
    (hy : ∀ y, M.next n = .addr y → okNode y = true ∧ y ≠ n)
    (hp : ∀ k, M.next n ≠ .poison k) :
    ∃ M', hlistDelInit okHead okNode M (.addr n) = some M' ∧ Pulled M M' d n ∧
      M'.pprev n = .null := by
  obtain ⟨M', hM, hpull⟩ := hlistDelLinks_pulled hn hpp hd hy hp
  refine ⟨_, ?_, hpull.overwrite hdn (fun e => (hy n e).2 rfl) .null .null, by simp⟩
  simp [hlistDelInit, hlistUnhashed, loadPprev_addr hn, hpp, hM, initHlistNode,
    storeNext_addr hn, storePprev_addr hn]

theorem hlistDelInit_unhashed (hn : okNode n = true) (hpp : M.pprev n = .null) :
    hlistDelInit okHead okNode M (.addr n) = some M := by
  simp [hlistDelInit, hlistUnhashed, loadPprev_addr hn, hpp]

end

section
variable [DecidableEq β] [DecidableEq α] {okHead : β → Bool} {okNode : α → Bool} {D : β → Prop}
  {M : Buckets β α} {bkt : β → List α} {n : α} {b : β} {us vs : List α}

theorem hlistAddHead_isTable (ht : IsTable D M bkt) (hD : ∀ b, D b → okHead b = true)
    (hb : D b) (hn : okNode n = true) (hok : ∀ x ∈ bkt b, okNode x = true)
    (hnew : ∀ b', n ∉ bkt b') :
    ∃ M', hlistAddHead okHead okNode M n b = some M' ∧
      (∀ y, y ≠ n → y ∉ bkt b → M'.pprev y = M.pprev y) ∧
      IsTable D M' (Function.update bkt b (n :: bkt b)) := by
  have hbt := ht.threads b hb
  obtain ⟨M', hM, hp⟩ := hlistAddHead_pushed (M := M) (n := n) (hD b hb) hn
    (fun x hx => ⟨hok x (hbt.mem_of_get hx), fun e => hnew b (e ▸ hbt.mem_of_get hx)⟩)
    hbt.get_ne_poison
  refine ⟨M', hM, fun y hy hyb => hp.pprev_other y hy fun e => ?_, ht.push hb hnew hp⟩
  exact hyb (hbt.mem_of_get e)

omit [DecidableEq β] [DecidableEq α] in
theorem linked_fields (ht : IsTable D M bkt) (hD : ∀ b, D b → okHead b = true) (hb : D b)
    (hok : ∀ x ∈ bkt b, okNode x = true) (hu : bkt b = us ++ n :: vs) :
    ∃ d, M.pprev n = .addr d ∧ cellOk okHead okNode d = true ∧ d ≠ .next n ∧
      (∀ y, M.next n = .addr y → okNode y = true ∧ y ≠ n) ∧ (∀ k, M.next n ≠ .poison k) := by
  have hbt : Threads M (.first b) (us ++ n :: vs) := hu ▸ ht.threads b hb
  have hnd : (us ++ n :: vs).Nodup := hu ▸ ht.nodup b
  obtain ⟨d, hd, -, hv, hw⟩ := hbt.mid
  have hnv : n ∉ vs := (List.nodup_cons.mp (List.nodup_append.mp hnd).2.1).1
  refine ⟨d, hd, ?_, ?_, ?_, ?_⟩
  · rcases hw with ⟨-, rfl⟩ | ⟨w, hw, rfl⟩
    · exact hD b hb
    · exact hok w (by simp [hu, hw])
  · rcases hw with ⟨-, rfl⟩ | ⟨w, hw, rfl⟩
    · simp
    · intro e
      exact (List.nodup_append.mp hnd).2.2 w hw n (by simp) (Cell.next.inj e)
  · intro y hy
    have hyv : y ∈ vs := hv.mem_of_get hy
    exact ⟨hok y (by simp [hu, hyv]), fun e => hnv (e ▸ hyv)⟩
  · exact hv.get_ne_poison

theorem hlistDel_isTable (ht : IsTable D M bkt) (hD : ∀ b, D b → okHead b = true) (hb : D b)
    (hok : ∀ x ∈ bkt b, okNode x = true) (hu : bkt b = us ++ n :: vs) :
    ∃ M', hlistDel okHead okNode M (.addr n) = some M' ∧
      IsTable D M' (Function.update bkt b (us ++ vs)) := by
  obtain ⟨d, hd, hdok, hdn, hy, hp⟩ := linked_fields ht hD hb hok hu
  obtain ⟨M', hM, hpull⟩ := hlistDel_pulled (hok n (by simp [hu])) hd hdok hdn hy hp
  exact ⟨M', hM, ht.pull hb hu hd hpull⟩

theorem hlistDelInit_isTable (ht : IsTable D M bkt) (hD : ∀ b, D b → okHead b = true) (hb : D b)
    (hok : ∀ x ∈ bkt b, okNode x = true) (hu : bkt b = us ++ n :: vs) :
    ∃ M', hlistDelInit okHead okNode M (.addr n) = some M' ∧ M'.pprev n = .null ∧
      (∀ y, y ∉ bkt b → M'.pprev y = M.pprev y) ∧
      IsTable D M' (Function.update bkt b (us ++ vs)) := by
  obtain ⟨d, hd, hdok, hdn, hy, hp⟩ := linked_fields ht hD hb hok hu
  obtain ⟨M', hM, hpull, hnull⟩ :=
    hlistDelInit_pulled (hok n (by simp [hu])) hd hdok hdn hy hp
  refine ⟨M', hM, hnull, fun y hyb => hpull.pprev_other y ?_ fun e => hyb ?_,
    ht.pull hb hu hd hpull⟩
  · intro e
    exact hyb (by simp [hu, e])
  · have hbt : Threads M (.first b) (us ++ n :: vs) := hu ▸ ht.threads b hb
    obtain ⟨-, -, -, hv, -⟩ := hbt.mid
    simp [hu, hv.mem_of_get e]

theorem hlistUnhashed_linked (ht : IsTable D M bkt) (hb : D b) (hn : n ∈ bkt b)
    (hok : okNode n = true) : hlistUnhashed okNode M (.addr n) = some false := by
  obtain ⟨us, vs, hu⟩ := List.append_of_mem hn
  have hbt : Threads M (.first b) (us ++ n :: vs) := hu ▸ ht.threads b hb
  obtain ⟨d, hd, -⟩ := hbt.mid
  simp [hlistUnhashed, loadPprev_addr hok, hd]

end

section
variable {σ : Type} {okNode : α → Bool} {M : Buckets β α} {c : Cell β α} {xs : List α}

theorem hlistForEachEntry_threads (body : σ → α → Option (σ × Bool)) (ht : Threads M c xs)
    (hok : ∀ x ∈ xs, okNode x = true) {fuel : ℕ} (hf : xs.length < fuel) (s : σ) :
    hlistForEachEntry (fun _ p => loadNext okNode M p) body fuel (M.get c) s =
      foldUntil body s xs := by
  induction xs generalizing c fuel s with
  | nil =>
    obtain ⟨f, rfl⟩ : ∃ f, fuel = f + 1 := ⟨fuel - 1, by simp at hf; omega⟩
    have hn : M.get c = .null := ht
    simp [hn, hlistForEachEntry, foldUntil]
  | cons x xs ih =>
    obtain ⟨f, rfl⟩ : ∃ f, fuel = f + 1 := ⟨fuel - 1, by simp at hf; omega⟩
    have hlt : xs.length < f := by
      simp at hf
      omega
    have hrec := ih ht.2.2 (fun y hy => hok y (by simp [hy])) hlt
    rw [Buckets.get_next] at hrec
    simp [ht.1, hlistForEachEntry, foldUntil, loadNext_addr (hok x (by simp)), hrec]

theorem hlistForEachEntrySafe_threads (body : σ → α → Option (σ × Bool)) (ht : Threads M c xs)
    (hok : ∀ x ∈ xs, okNode x = true) {fuel : ℕ} (hf : xs.length < fuel) (s : σ) :
    hlistForEachEntrySafe (fun _ p => loadNext okNode M p) body fuel (M.get c) s =
      foldUntil body s xs := by
  induction xs generalizing c fuel s with
  | nil =>
    obtain ⟨f, rfl⟩ : ∃ f, fuel = f + 1 := ⟨fuel - 1, by simp at hf; omega⟩
    have hn : M.get c = .null := ht
    simp [hn, hlistForEachEntrySafe, foldUntil]
  | cons x xs ih =>
    obtain ⟨f, rfl⟩ : ∃ f, fuel = f + 1 := ⟨fuel - 1, by simp at hf; omega⟩
    have hlt : xs.length < f := by
      simp at hf
      omega
    have hrec := ih ht.2.2 (fun y hy => hok y (by simp [hy])) hlt
    rw [Buckets.get_next] at hrec
    simp [ht.1, hlistForEachEntrySafe, foldUntil, loadNext_addr (hok x (by simp)), hrec]

end
end KernelHashtable.HList
