import KernelHashtable.KList
import KernelHashtable.Lib.Heap
import Mathlib.Algebra.Group.Nat.Defs
import Mathlib.Data.List.Perm.Subperm

/-!
# The deque of deque.c

A deque holds the ring head and the counter; it lies in the block `self`, or it is a variable
and has none. An entry is a block with a ring member and a data pointer. A pointer to a
`deq_entry_t` is the location of its ring member, so `k_list_entry` of the head is the location
`head`, which is no entry.
Functions return `none` where the C code has no defined meaning: an access through a
pointer that is not live, a store through the null pointer of a failed `malloc`, and
an overflow of the signed counter.
-/

namespace KernelHashtable.Deque
open KList

def sizeofDeq : ℕ := 24
def sizeofDeqEntry : ℕ := 24

structure Deq where
  heap : Heap
  self : Option ℕ
  links : Links (Loc ℕ)
  data : ℕ → ℕ
  size : Int32

structure Raw where
  links : Links (Loc ℕ)
  data : ℕ → ℕ
  size : Int32

def Deq.ok (d : Deq) : Loc ℕ → Bool
  | .head => d.self.all d.heap.live
  | .node e => d.heap.live e

def intIncr (n : Int32) : Option Int32 := if n = Int32.maxValue then none else some (n + 1)

def intDecr (n : Int32) : Option Int32 := if n = Int32.minValue then none else some (n - 1)

/-- `DEFINE_DEQ`, which declares a variable. -/
def defineDeq (h : Heap) (raw : Raw) : Option Deq := do
  let d : Deq := ⟨h, none, raw.links, raw.data, 0⟩
  let links ← kInitListHead d.ok d.links (.addr .head)
  return { d with links := links }

/-- A null result is `.error` with the heap that is left. -/
def dequeCreate (h : Heap) (raw : Raw) : Option (Except Heap Deq) :=
  match h.malloc sizeofDeq with
  | (none, h) => some (.error h)
  | (some deq, h) => do
    let d : Deq := ⟨h, some deq, raw.links, raw.data, raw.size⟩
    let links ← kInitListHead d.ok d.links (.addr .head)
    return .ok { d with links := links }

/-- `_deq_push`. The entry is used without a check of the allocation. -/
def deqPush (d : Deq) (pushTailFlag : Bool) (data : ℕ) : Option Deq := do
  let size ← intIncr d.size
  match d.heap.malloc sizeofDeqEntry with
  | (none, _) => none
  | (some deqItem, h) => do
    let d := { d with heap := h, data := Function.update d.data deqItem data, size := size }
    let links ← if pushTailFlag then
        kListAddTail d.ok d.links (.addr (.node deqItem)) (.addr .head)
      else kListAdd d.ok d.links (.addr (.node deqItem)) (.addr .head)
    return { d with links := links }

def deqPushTail (d : Deq) (data : ℕ) : Option Deq := deqPush d true data
def deqPushHead (d : Deq) (data : ℕ) : Option Deq := deqPush d false data

def deqIsempty (d : Deq) : Bool := d.size == 0

def endItem (d : Deq) (fromTail : Bool) : Option (Ptr (Loc ℕ)) :=
  if fromTail then d.links.loadPrev d.ok (.addr .head)
  else d.links.loadNext d.ok (.addr .head)

def deqPop (d : Deq) (popFromTail : Bool) : Option (Ptr (Loc ℕ) × Deq) :=
  if deqIsempty d then some (.null, d) else do
    let item ← endItem d popFromTail
    let links ← kListDel d.ok d.links item
    let size ← intDecr d.size
    return (item, { d with links := links, size := size })

def deqPopTail (d : Deq) : Option (Ptr (Loc ℕ) × Deq) := deqPop d true
def deqPopHead (d : Deq) : Option (Ptr (Loc ℕ) × Deq) := deqPop d false

def deqGet (d : Deq) (peekFromTail : Bool) : Option (Ptr (Loc ℕ)) :=
  if deqIsempty d then some .null else endItem d peekFromTail

def deqGetHead (d : Deq) : Option (Ptr (Loc ℕ)) := deqGet d false
def deqGetTail (d : Deq) : Option (Ptr (Loc ℕ)) := deqGet d true

def freeItem (d : Deq) : Loc ℕ → Option Deq
  | .head => none
  | .node e => do
    let h ← d.heap.free e
    return { d with heap := h }

def loadNextIn (d : Deq) (p : Ptr (Loc ℕ)) : Option (Ptr (Loc ℕ)) :=
  d.links.loadNext d.ok p

/-- The fuel of the loops exceeds the number of blocks ever handed out, which a loop
over distinct entries cannot reach. A variable may not be freed. -/
def deqFree (d : Deq) : Option Heap := do
  let d ← kListForEachEntrySafe loadNextIn freeItem .head (d.heap.fresh + 1) d
  let self ← d.self
  d.heap.free self

def ringForward (d : Deq) : Option (List (Loc ℕ)) :=
  kListForEach d.ok d.links (d.heap.fresh + 1) .head

def ringBackward (d : Deq) : Option (List (Loc ℕ)) :=
  kListForEachPrev d.ok d.links (d.heap.fresh + 1) .head

theorem intIncr_of_lt {n : Int32} {k : ℕ} (hn : n.toInt = k) (hk : k + 1 < 2 ^ 31) :
    ∃ m, intIncr n = some m ∧ m.toInt = (k + 1 : ℕ) := by
  have hne : n ≠ Int32.maxValue := by
    intro e
    rw [e, Int32.toInt_maxValue] at hn
    omega
  refine ⟨n + 1, by simp [intIncr, hne], ?_⟩
  rw [Int32.toInt_add, hn, Int32.toInt_one]
  refine (Int.bmod_eq_of_le ?_ ?_).trans (by simp) <;> omega

theorem intIncr_of_not_lt {n : Int32} {k : ℕ} (hn : n.toInt = k) (hk : ¬ k + 1 < 2 ^ 31) :
    intIncr n = none := by
  have hlt := n.toInt_lt
  have hmax : n = Int32.maxValue := by
    apply Int32.toInt_inj.mp
    rw [Int32.toInt_maxValue]
    omega
  rw [intIncr, if_pos hmax]

theorem intDecr_of_pos {n : Int32} {k : ℕ} (hn : n.toInt = (k + 1 : ℕ)) :
    ∃ m, intDecr n = some m ∧ m.toInt = k := by
  have hlt := n.toInt_lt
  have hne : n ≠ Int32.minValue := by
    intro e
    rw [e, Int32.toInt_minValue] at hn
    omega
  refine ⟨n - 1, by simp [intDecr, hne], ?_⟩
  rw [Int32.toInt_sub, hn, Int32.toInt_one]
  refine (Int.bmod_eq_of_le ?_ ?_).trans (by simp) <;> omega

structure Rep (d : Deq) (es : List ℕ) : Prop where
  ring : IsRing d.links .head (es.map .node)
  live : ∀ e ∈ es, d.heap.live e = true
  self_live : ∀ b ∈ d.self, d.heap.live b = true
  self_out : ∀ b ∈ d.self, b ∉ es
  balanced : d.heap.Balanced
  count : d.size.toInt = es.length

def Deq.granted (d : Deq) (x : ℕ) (size : Int32) : Deq :=
  ⟨d.heap.grant sizeofDeqEntry, d.self, d.links, Function.update d.data d.heap.fresh x, size⟩

theorem Deq.ok_head {d : Deq} : d.ok .head = true ↔ ∀ b ∈ d.self, d.heap.live b = true := by
  simp [Deq.ok, Option.all_eq_true]

namespace Rep
variable {d : Deq} {es us vs : List ℕ}

theorem ok_head (hr : Rep d es) : d.ok .head = true := Deq.ok_head.mpr hr.self_live

theorem count_lt (hr : Rep d es) : es.length < 2 ^ 31 := by
  have hlt := d.size.toInt_lt
  rw [hr.count] at hlt
  exact_mod_cast hlt

theorem nodup (hr : Rep d es) : es.Nodup :=
  (List.nodup_cons.mp hr.ring.nodup).2.of_map _

theorem ok (hr : Rep d es) : ∀ x ∈ Loc.head :: es.map Loc.node, d.ok x = true := by
  intro x hx
  rcases List.mem_cons.mp hx with rfl | hx
  · exact hr.ok_head
  · obtain ⟨e, he, rfl⟩ := List.mem_map.mp hx
    exact hr.live e he

theorem length_lt (hr : Rep d es) : es.length < d.heap.fresh + 1 := by
  have hsub : es ⊆ List.range d.heap.fresh := fun e he =>
    List.mem_range.mpr (hr.balanced.lt_fresh (hr.live e he))
  have hle := (List.subperm_of_subset hr.nodup hsub).length_le
  rw [List.length_range] at hle
  omega

theorem fresh_out (hr : Rep d es) : d.heap.fresh ∉ es := by
  intro he
  have hlt := hr.balanced.lt_fresh (hr.live _ he)
  omega

theorem ring_walks (hr : Rep d es) : ringForward d = some (es.map .node) ∧
    ringBackward d = some (es.map .node).reverse :=
  kListForEach_isRing hr.ring hr.ok (by simpa using hr.length_lt)

theorem isempty (hr : Rep d es) : deqIsempty d = es.isEmpty := by
  have hc := hr.count
  cases es with
  | nil =>
    have hz : d.size = 0 := Int32.toInt_inj.mp hc
    simp [deqIsempty, hz]
  | cons e es =>
    have hz : d.size ≠ 0 := by
      intro h0
      rw [h0] at hc
      simp at hc
      omega
    simp [deqIsempty, hz]

theorem linked (hr : Rep d es) {d' : Deq} {es' : List ℕ} {n : ℕ}
    (hheap : d'.heap = d.heap.grant n) (hself : d'.self = d.self)
    (hring : IsRing d'.links .head (es'.map .node)) (hperm : es'.Perm (d.heap.fresh :: es))
    (hcount : d'.size.toInt = (es.length + 1 : ℕ)) : Rep d' es' := by
  have hlive : ∀ b, d.heap.live b = true → d'.heap.live b = true := fun b hb => by
    simp [hheap, hb]
  refine ⟨hring, fun e he => ?_, ?_, ?_, ?_, ?_⟩
  · rcases List.mem_cons.mp (hperm.mem_iff.mp he) with rfl | he
    · simp [hheap]
    · exact hlive e (hr.live e he)
  · rw [hself]
    exact fun b hb => hlive b (hr.self_live b hb)
  · intro b hb
    rw [hself] at hb
    have hne : b ≠ d.heap.fresh := (hr.balanced.lt_fresh (hr.self_live b hb)).ne
    rw [hperm.mem_iff]
    simp [hne, hr.self_out b hb]
  · rw [hheap]
    exact hr.balanced.grant n
  · rw [hcount, hperm.length_eq, List.length_cons]

theorem link (hr : Rep d es) (tail : Bool) (x : ℕ) {size : Int32}
    (hsize : size.toInt = (es.length + 1 : ℕ)) : ∃ L,
      ((if tail then
          kListAddTail (d.granted x size).ok d.links (.addr (.node d.heap.fresh)) (.addr .head)
        else kListAdd (d.granted x size).ok d.links (.addr (.node d.heap.fresh)) (.addr .head)).bind
          fun links => some { d.granted x size with links := links }) =
        some { d.granted x size with links := L } ∧
      Rep { d.granted x size with links := L }
        (if tail then es ++ [d.heap.fresh] else d.heap.fresh :: es) := by
  have hok : ∀ y ∈ Loc.head :: es.map Loc.node, (d.granted x size).ok y = true := by
    intro y hy
    rcases List.mem_cons.mp hy with rfl | hy
    · exact Deq.ok_head.mpr fun b hb => by simp [Deq.granted, hr.self_live b hb]
    · obtain ⟨e, he, rfl⟩ := List.mem_map.mp hy
      simp [Deq.granted, Deq.ok, hr.live e he]
  have hnew : (d.granted x size).ok (.node d.heap.fresh) = true := by simp [Deq.granted, Deq.ok]
  have hout : Loc.node d.heap.fresh ∉ Loc.head :: es.map Loc.node := by
    simpa using hr.fresh_out
  cases tail with
  | true =>
    obtain ⟨L, hL, hring⟩ := kListAddTail_isRing hr.ring hok hnew hout
    refine ⟨L, ?_, hr.linked rfl rfl (by simpa using hring) (List.perm_append_singleton _ _) hsize⟩
    rw [if_pos rfl, hL, Option.bind_some]
  | false =>
    obtain ⟨L, hL, hring⟩ := kListAdd_isRing hr.ring hok hnew hout
    refine ⟨L, ?_, hr.linked rfl rfl (by simpa using hring) (List.Perm.refl _) hsize⟩
    rw [if_neg Bool.false_ne_true, hL, Option.bind_some]

theorem push (hr : Rep d es) (tail : Bool) (x : ℕ) (hlt : es.length + 1 < 2 ^ 31)
    (hg : d.heap.grants d.heap.calls sizeofDeqEntry = true) :
    ∃ d', deqPush d tail x = some d' ∧ d'.heap = d.heap.grant sizeofDeqEntry ∧
      d'.self = d.self ∧ d'.data = Function.update d.data d.heap.fresh x ∧
      Rep d' (if tail then es ++ [d.heap.fresh] else d.heap.fresh :: es) := by
  obtain ⟨m, hm, hmi⟩ := intIncr_of_lt hr.count hlt
  obtain ⟨L, hL, hrep⟩ := hr.link tail x hmi
  refine ⟨{ d.granted x m with links := L }, ?_, rfl, rfl, rfl, hrep⟩
  simp only [deqPush, hm, Heap.malloc_grant hg, Option.bind_eq_bind, Option.bind_some]
  cases tail with
  | true => exact hL
  | false => exact hL

theorem endItem_eq (hr : Rep d es) (tail : Bool) : endItem d tail =
    some (.addr (if tail then (es.map Loc.node).getLastD .head
      else (es.map Loc.node).headD .head)) := by
  have hself : d.ok .head = true := hr.ok_head
  cases tail with
  | true =>
    rw [endItem, if_pos rfl, if_pos rfl, Links.loadPrev_addr _ hself, hr.ring.prev_head]
  | false =>
    rw [endItem, if_neg (by simp), if_neg (by simp), Links.loadNext_addr _ hself,
      hr.ring.next_head]

theorem unlink (hr : Rep d (us ++ e :: vs)) : ∃ L m,
    kListDel d.ok d.links (.addr (.node e)) = some L ∧ intDecr d.size = some m ∧
      Rep { d with links := L, size := m } (us ++ vs) := by
  have hring : IsRing d.links .head (us.map Loc.node ++ Loc.node e :: vs.map Loc.node) := by
    simpa using hr.ring
  obtain ⟨L, hL, hring'⟩ := kListDel_isRing hring (by simpa using hr.ok)
  obtain ⟨m, hm, hmi⟩ := intDecr_of_pos (n := d.size) (k := (us ++ vs).length)
    (by simpa [Nat.add_assoc] using hr.count)
  refine ⟨L, m, hL, hm, by simpa using hring', ?_, hr.self_live, ?_, hr.balanced, hmi⟩
  · intro x hx
    apply hr.live x
    rcases List.mem_append.mp hx with hx | hx
    · exact List.mem_append_left _ hx
    · exact List.mem_append_right _ (List.mem_cons_of_mem e hx)
  · intro b hb hx
    apply hr.self_out b hb
    rcases List.mem_append.mp hx with hx | hx
    · exact List.mem_append_left _ hx
    · exact List.mem_append_right _ (List.mem_cons_of_mem e hx)

theorem pop_nil (hr : Rep d []) (tail : Bool) : deqPop d tail = some (.null, d) := by
  simp [deqPop, hr.isempty]

theorem get_nil (hr : Rep d []) (tail : Bool) : deqGet d tail = some .null := by
  simp [deqGet, hr.isempty]

theorem pop_head (hr : Rep d (e :: es)) : ∃ d', deqPop d false = some (.addr (.node e), d') ∧
    d'.heap = d.heap ∧ d'.self = d.self ∧ d'.data = d.data ∧ Rep d' es := by
  have hr' : Rep d ([] ++ e :: es) := hr
  obtain ⟨L, m, hL, hm, hrep⟩ := hr'.unlink
  refine ⟨{ d with links := L, size := m }, ?_, rfl, rfl, rfl, hrep⟩
  simp [deqPop, hr.isempty, hr.endItem_eq, hL, hm]

theorem pop_tail (hr : Rep d (es ++ [e])) :
    ∃ d', deqPop d true = some (.addr (.node e), d') ∧
      d'.heap = d.heap ∧ d'.self = d.self ∧ d'.data = d.data ∧ Rep d' es := by
  obtain ⟨L, m, hL, hm, hrep⟩ := hr.unlink
  refine ⟨{ d with links := L, size := m }, ?_, rfl, rfl, rfl, by simpa using hrep⟩
  simp [deqPop, hr.isempty, hr.endItem_eq, hL, hm]

theorem get_head (hr : Rep d (e :: es)) : deqGet d false = some (.addr (.node e)) := by
  simp [deqGet, hr.isempty, hr.endItem_eq]

theorem get_tail (hr : Rep d (es ++ [e])) : deqGet d true = some (.addr (.node e)) := by
  simp [deqGet, hr.isempty, hr.endItem_eq]

def Freeing (d : Deq) (es : List ℕ) (s : Deq) (ys : List (Loc ℕ)) : Prop :=
  ∃ vs rest, ys = rest.map Loc.node ∧ es = vs ++ rest ∧ s.links = d.links ∧ s.self = d.self ∧
    s.heap.freed = vs.reverse.map Block.own ++ d.heap.freed ∧
    (∀ b ∈ s.self, s.heap.live b = true) ∧ ∀ e ∈ rest, s.heap.live e = true

theorem Freeing.load {s : Deq} {ys : List (Loc ℕ)} (hf : Freeing d es s ys) :
    ∀ y ∈ Loc.head :: ys, loadNextIn s (.addr y) = some (d.links.next y) := by
  obtain ⟨vs, rest, rfl, -, hlinks, -, -, hself, hlive⟩ := hf
  intro y hy
  have hy' : s.ok y = true := by
    rcases List.mem_cons.mp hy with rfl | hy
    · exact Deq.ok_head.mpr hself
    · obtain ⟨e, he, rfl⟩ := List.mem_map.mp hy
      exact hlive e he
  rw [← hlinks]
  exact Links.loadNext_addr _ hy'

theorem Freeing.step (hr : Rep d es) {s : Deq} {x : Loc ℕ} {ys : List (Loc ℕ)}
    (hf : Freeing d es s (x :: ys)) : ∃ h, freeItem s x = some { s with heap := h } ∧
      Freeing d es { s with heap := h } ys := by
  obtain ⟨vs, rest, hys, hes, hlinks, hself, hfreed, hsl, hlive⟩ := hf
  cases rest with
  | nil => cases hys
  | cons e rest =>
    obtain ⟨rfl, rfl⟩ := List.cons.inj hys
    have hnd := hr.nodup
    rw [hes] at hnd
    have he : e ∉ rest := (List.nodup_cons.mp (List.nodup_append.mp hnd).2.1).1
    have hse : ∀ b ∈ s.self, b ≠ e := by
      rintro b hb rfl
      rw [hself] at hb
      exact hr.self_out b hb (by simp [hes])
    refine ⟨s.heap.release e, by simp [freeItem, Heap.free_live (hlive e (by simp))], vs ++ [e],
      rest, rfl, by simp [hes], hlinks, hself, by simp [hfreed], ?_, ?_⟩
    · exact fun b hb => by simp [hse b hb, hsl b hb]
    · intro y hy
      have hye : y ≠ e := fun h => he (h ▸ hy)
      simp [hye, hlive y (by simp [hy])]

theorem freeEntries (hr : Rep d es) : ∃ h,
    kListForEachEntrySafe loadNextIn freeItem .head (d.heap.fresh + 1) d =
      some { d with heap := h } ∧
    h.freed = es.reverse.map Block.own ++ d.heap.freed ∧ ∀ b ∈ d.self, h.live b = true := by
  have hlt : (es.map Loc.node).length < d.heap.fresh + 1 := by
    simpa using hr.length_lt
  have hstart : Freeing d es d (es.map Loc.node) :=
    ⟨[], es, rfl, rfl, rfl, rfl, by simp, hr.self_live, hr.live⟩
  obtain ⟨s, hs, ⟨h, rfl⟩, vs, rest, hnil, hes, -, -, hfreed, hsl, -⟩ :=
    kListForEachEntrySafe_ring hr.ring
      (fun s ys => (∃ h, s = { d with heap := h }) ∧ Freeing d es s ys)
      (fun s ys hI => hI.2.load) (fun s x ys hI => by
        obtain ⟨⟨h₀, rfl⟩, hf⟩ := hI
        obtain ⟨h, hfree, hf'⟩ := hf.step hr
        exact ⟨_, hfree, ⟨h, rfl⟩, hf'⟩) ⟨⟨d.heap, rfl⟩, hstart⟩ hlt
  have hrest : rest = [] := List.map_eq_nil_iff.mp hnil.symm
  rw [hrest, List.append_nil] at hes
  exact ⟨h, hs, hes ▸ hfreed, hsl⟩

theorem free (hr : Rep d es) {self : ℕ} (hself : self ∈ d.self) : ∃ h, deqFree d = some h ∧
    h.freed = .own self :: es.reverse.map Block.own ++ d.heap.freed := by
  obtain ⟨h, hloop, hfreed, hlive⟩ := hr.freeEntries
  refine ⟨h.release self, ?_, by simp [hfreed]⟩
  have hblock : d.self = some self := hself
  simp [deqFree, hloop, hblock, Heap.free_live (hlive self hself)]

theorem free_variable (hr : Rep d es) (hself : d.self = none) : deqFree d = none := by
  obtain ⟨h, hloop, -⟩ := hr.freeEntries
  simp [deqFree, hloop, hself]

end Rep
end KernelHashtable.Deque
