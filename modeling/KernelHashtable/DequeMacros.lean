import KernelHashtable.DequeRuns

/-!
# The macros of deque.h

They work on a deque in place; `macroClear` is `DEQ_CLEAR`, and so on. The member `node` that
the pushes assign is read as the data pointer of an entry, which has no other member.
`max_items` is any integer.
-/

namespace KernelHashtable.Deque
open KList

def freePtr (d : Deq) : Ptr (Loc ℕ) → Option Deq
  | .addr x => freeItem d x
  | _ => none

def makeRoom (d : Deq) (maxItems : ℤ) : Option Deq :=
  if maxItems ≠ 0 ∧ d.size.toInt = maxItems then do
    let item ← endItem d false
    let links ← kListDel d.ok d.links item
    freePtr { d with links := links } item
  else do
    let size ← intIncr d.size
    return { d with size := size }

/-- The rest of both pushes. The entry is used without a check of the allocation. -/
def allocAndLink (d : Deq) (pushTail : Bool) (entry : ℕ) : Option Deq :=
  match d.heap.malloc sizeofDeqEntry with
  | (none, _) => none
  | (some deqItem, h) => do
    let d := { d with heap := h, data := Function.update d.data deqItem entry }
    let links ← if pushTail then
        kListAddTail d.ok d.links (.addr (.node deqItem)) (.addr .head)
      else kListAdd d.ok d.links (.addr (.node deqItem)) (.addr .head)
    return { d with links := links }

def macroPushEnd (d : Deq) (pushTail : Bool) (maxItems : ℤ) (entry : ℕ) : Option Deq := do
  let d ← makeRoom d maxItems
  allocAndLink d pushTail entry

def macroPushTail (d : Deq) (maxItems : ℤ) (entry : ℕ) : Option Deq :=
  macroPushEnd d true maxItems entry
def macroPush (d : Deq) (maxItems : ℤ) (entry : ℕ) : Option Deq :=
  macroPushEnd d false maxItems entry

def macroPopEnd (d : Deq) (fromTail : Bool) : Option (Ptr (Loc ℕ) × Deq) := do
  let item ← endItem d fromTail
  let links ← kListDel d.ok d.links item
  let size ← intDecr d.size
  return (item, { d with links := links, size := size })

def macroPop (d : Deq) : Option (Ptr (Loc ℕ) × Deq) := macroPopEnd d false
def macroPopTail (d : Deq) : Option (Ptr (Loc ℕ) × Deq) := macroPopEnd d true

def macroClear (d : Deq) : Option Deq :=
  kListForEachEntrySafe loadNextIn freeItem .head (d.heap.fresh + 1) d

def macroIsempty (d : Deq) : Bool := d.size == 0

theorem deqPush_eq_allocAndLink (d : Deq) (pushTail : Bool) (data : ℕ) :
    deqPush d pushTail data = (intIncr d.size).bind fun size =>
      allocAndLink { d with size := size } pushTail data := by
  cases hsize : intIncr d.size with
  | none => simp [deqPush, hsize]
  | some size =>
    simp only [deqPush, hsize, Option.bind_eq_bind, Option.bind_some]
    rfl

theorem macroPopEnd_of_not_empty {d : Deq} (hd : deqIsempty d = false) (fromTail : Bool) :
    macroPopEnd d fromTail = deqPop d fromTail := by
  simp [deqPop, macroPopEnd, hd]

namespace Rep
variable {d : Deq} {e : ℕ} {es : List ℕ} {maxItems : ℤ}

theorem release (hr : Rep d es) (hlive : d.heap.live e = true) (hself : ∀ b ∈ d.self, b ≠ e)
    (he : e ∉ es) : Rep { d with heap := d.heap.release e } es := by
  refine ⟨hr.ring, fun x hx => ?_, ?_, hr.self_out, hr.balanced.release hlive, hr.count⟩
  · have hne : x ≠ e := fun h => he (h ▸ hx)
    simp [hr.live x hx, hne]
  · exact fun b hb => by simp [hr.self_live b hb, hself b hb]

theorem makeRoom_room (hr : Rep d es) (hroom : ¬ (maxItems ≠ 0 ∧ (es.length : ℤ) = maxItems)) :
    makeRoom d maxItems = (intIncr d.size).map fun size => { d with size := size } := by
  rw [makeRoom, if_neg (by rw [hr.count]; exact hroom)]
  exact (Option.map_eq_bind ..).symm

theorem makeRoom_full (hr : Rep d (e :: es)) (hfull : ((e :: es).length : ℤ) = maxItems) :
    ∃ L m, makeRoom d maxItems = some { d with links := L, heap := d.heap.release e } ∧
      Rep { d with links := L, heap := d.heap.release e, size := m } es := by
  have hr' : Rep d ([] ++ e :: es) := hr
  obtain ⟨L, m, hL, -, hrep⟩ := hr'.unlink
  have hlive : d.heap.live e = true := hr.live e (by simp)
  have hself : ∀ b ∈ d.self, b ≠ e := fun b hb h => hr.self_out b hb (by simp [h])
  have he : e ∉ es := (List.nodup_cons.mp hr.nodup).1
  refine ⟨L, m, ?_, hrep.release hlive hself he⟩
  have hbound : maxItems ≠ 0 ∧ d.size.toInt = maxItems := by
    rw [hr.count]
    exact ⟨by rw [← hfull]; simp; omega, hfull⟩
  rw [makeRoom, if_pos hbound, hr.endItem_eq]
  simp [hL, freePtr, freeItem, Heap.free_live hlive]

theorem allocAndLink {n : Int32} (hr : Rep { d with size := n } es) (tail : Bool) (x : ℕ)
    (hsize : d.size.toInt = (es.length + 1 : ℕ))
    (hg : d.heap.grants d.heap.calls sizeofDeqEntry = true) :
    ∃ d', allocAndLink d tail x = some d' ∧ d'.heap = d.heap.grant sizeofDeqEntry ∧
      d'.self = d.self ∧ d'.data = Function.update d.data d.heap.fresh x ∧
      Rep d' (if tail then es ++ [d.heap.fresh] else d.heap.fresh :: es) := by
  obtain ⟨L, hL, hrep⟩ := hr.link tail x hsize
  refine ⟨{ d.granted x d.size with links := L }, ?_, rfl, rfl, rfl, hrep⟩
  simp only [Deque.allocAndLink, Heap.malloc_grant hg]
  cases tail with
  | true => exact hL
  | false => exact hL

theorem macroPushEnd_room (hr : Rep d es) (hroom : ¬ (maxItems ≠ 0 ∧ (es.length : ℤ) = maxItems))
    (tail : Bool) (x : ℕ) : macroPushEnd d tail maxItems x = deqPush d tail x := by
  rw [deqPush_eq_allocAndLink, macroPushEnd, hr.makeRoom_room hroom]
  cases intIncr d.size <;> rfl

theorem macroPushEnd_full (hr : Rep d (e :: es)) (hfull : ((e :: es).length : ℤ) = maxItems)
    (tail : Bool) (x : ℕ) (hg : d.heap.grants d.heap.calls sizeofDeqEntry = true) :
    ∃ d', macroPushEnd d tail maxItems x = some d' ∧
      d'.heap = (d.heap.release e).grant sizeofDeqEntry ∧
      d'.data = Function.update d.data d.heap.fresh x ∧
      Rep d' (if tail then es ++ [d.heap.fresh] else d.heap.fresh :: es) := by
  obtain ⟨L, m, hmake, hr'⟩ := hr.makeRoom_full hfull
  have hrest : Rep { { d with links := L, heap := d.heap.release e } with size := m } es := hr'
  obtain ⟨d', hd, hheap, -, hdata, hrep⟩ := hrest.allocAndLink tail x
    (by simpa using hr.count) hg
  exact ⟨d', by rw [macroPushEnd, hmake]; exact hd, hheap, hdata, hrep⟩

end Rep
end KernelHashtable.Deque
