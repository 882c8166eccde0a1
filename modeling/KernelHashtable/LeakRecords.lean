import KernelHashtable.LeakDetector
import KernelHashtable.Lib.Traverse

/-!
# The records of the leak detector

`Records` is what every call keeps, whatever its requests are answered: the records `nodes`
form a ring through the head once there has been one, and every live block is a record or is
`held` by the rest of the program. What the records say is left open.
-/

namespace KernelHashtable.Leak
open KList

structure Records (d : Detector) (nodes : List ℕ) (held : ℕ → Bool) : Prop where
  ring : if d.memleakFlag then IsRing d.links .head (nodes.map .node)
    else nodes = []
  live_iff : ∀ a, d.heap.live a = true ↔ a ∈ nodes ∨ held a = true
  apart : ∀ a ∈ nodes, held a = false
  null : d.heap.live 0 = false
  bound : nodes.length ≤ d.heap.granted

def Detector.about (d : Detector) (p a : ℕ) : Bool := decide ((d.info a).address = p)

def searchRecord (d : Detector) (p fuel : ℕ) : Loc ℕ → Walk (Option (Loc ℕ)) :=
  Links.search d.ok d.links.next .head
    (fun x => decide ((d.memInfo x).address = p)) fuel

/-- What `strcpy` finds in the local array and behind it. -/
def Site.copied (site : Site) : List UInt8 :=
  strncpy site.buffer site.file fileNameLength ++ site.beyond

def Site.record (site : Site) (old : MemInfo) (memRef : ℕ) (size : UInt32) : MemInfo :=
  ⟨memRef, size, strcpy old.fileName site.copied, site.line⟩

/-- The name leaves room for its zero, or the byte that `strncpy` leaves alone is one. -/
def Site.Ends (site : Site) : Prop :=
  site.file.length < fileNameLength ∨ site.buffer[fileNameLength]? = some 0

instance (site : Site) : Decidable site.Ends := by
  unfold Site.Ends
  infer_instance

theorem Site.zero_mem_iff (site : Site) :
    0 ∈ strncpy site.buffer site.file fileNameLength ↔ site.Ends :=
  zero_mem_strncpy_iff site.string site.array

theorem Site.extent_le_iff (site : Site) :
    strcpyExtent site.copied ≤ fileNameLength + 1 ↔ site.Ends := by
  have hlen : (strncpy site.buffer site.file fileNameLength).length = fileNameLength + 1 := by
    rw [strncpy_length (by rw [site.array]; omega), site.array]
  rw [← site.zero_mem_iff, ← hlen]
  exact strcpyExtent_le_iff _ _

theorem Site.copied_string {site : Site} (hends : site.Ends) :
    cString site.copied = site.file.take fileNameLength := by
  have hzero := site.zero_mem_iff.mpr hends
  rw [Site.copied, cString_append hzero, strncpy_string site.string site.array hzero]

def removeFound (d : Detector) : Option (Loc ℕ) → Option Detector
  | none => some d
  | some .head => none
  | some (.node a) => delMemleakList d a

theorem removeLoop_eq_search (d : Detector) (p fuel : ℕ) (x : Loc ℕ) :
    removeLoop d p fuel (.addr x) = (searchRecord d p fuel x).result.bind (removeFound d) := by
  induction fuel generalizing x with
  | zero => rfl
  | succ fuel ih =>
    cases hx : d.ok x with
    | false =>
      have hload : d.links.loadNext d.ok (.addr x) = none := by
        simp [Links.loadNext, Ptr.deref, hx]
      simp [removeLoop, searchRecord, Links.search, hload, hx, Walk.result]
    | true =>
      have hload : d.links.loadNext d.ok (.addr x) = some (d.links.next x) :=
        d.links.loadNext_addr hx
      cases hn : d.links.next x with
      | null => simp [removeLoop, searchRecord, Links.search, hload, hx, hn, Walk.result]
      | poison n => simp [removeLoop, searchRecord, Links.search, hload, hx, hn, Walk.result]
      | addr y =>
        cases y with
        | head =>
          simp [removeLoop, searchRecord, Links.search, hload, hx, hn, Walk.result, removeFound]
        | node a =>
          have hrec := ih (.node a)
          rw [searchRecord] at hrec
          cases ha : d.heap.live a with
          | false => simp [removeLoop, searchRecord, Links.search, hload, hx, hn, Walk.result, ha]
          | true =>
            by_cases hp : (d.info a).address = p
            · simp [removeLoop, searchRecord, Links.search, hload, hx, hn, Walk.result, ha, hp,
                removeFound]
            · simp [removeLoop, searchRecord, Links.search, hload, hx, hn, ha, hp, hrec]

section
variable {d : Detector}

theorem setUpHead_isRing {xs : List (Loc ℕ)}
    (hready : if d.memleakFlag then IsRing d.links .head xs else xs = []) :
    ∃ links, setUpHead d = some { d with links := links, memleakFlag := true } ∧
      IsRing links .head xs := by
  cases hflag : d.memleakFlag with
  | true =>
    rw [hflag, if_pos rfl] at hready
    exact ⟨d.links, by rw [setUpHead, hflag, if_pos rfl, ← hflag], hready⟩
  | false =>
    rw [hflag, if_neg (by simp)] at hready
    have hhead : d.ok .head = true := rfl
    refine ⟨⟨Function.update d.links.next .head (.addr .head),
      Function.update d.links.prev .head (.addr .head)⟩, ?_, ?_⟩
    · simp [setUpHead, hflag, Links.storePrev_addr _ hhead, Links.storeNext_addr _ hhead]
    · rw [hready]
      exact IsRing.nil_iff.mpr (by simp)

theorem memleakAddListTail_links (d : Detector) (new head : Ptr (Loc ℕ)) :
    memleakAddListTail d new head =
      (kListAddTail d.ok d.links new head).map fun links => { d with links := links } := by
  cases hprev : d.links.loadPrev d.ok head with
  | none => simp [memleakAddListTail, kListAddTail, hprev]
  | some prev =>
    cases hadd : listAdd d.ok d.links new prev head with
    | none => simp [memleakAddListTail, kListAddTail, addMemleakList, hprev, hadd]
    | some links => simp [memleakAddListTail, kListAddTail, addMemleakList, hprev, hadd]

theorem setUp_addTail {xs : List (Loc ℕ)} {x : Loc ℕ}
    (hready : if d.memleakFlag then IsRing d.links .head xs else xs = [])
    (hok : ∀ y ∈ Loc.head :: xs, d.ok y = true) (hx : d.ok x = true)
    (hout : x ∉ Loc.head :: xs) : ∃ links,
    (setUpHead d).bind (fun d => memleakAddListTail d (.addr x) (.addr .head)) =
        some { d with links := links, memleakFlag := true } ∧
      IsRing links .head (xs ++ [x]) := by
  obtain ⟨links, hset, hring⟩ := setUpHead_isRing hready
  obtain ⟨links', hadd, hring'⟩ := kListAddTail_isRing hring hok hx hout
  refine ⟨links', ?_, hring'⟩
  rw [hset, Option.bind_some, memleakAddListTail_links]
  exact congrArg (Option.map _) hadd

theorem addMemInfo_denied (d : Detector) (memRef : ℕ) (size : UInt32) (site : Site) :
    addMemInfo d 0 memRef size site = none := by
  simp [addMemInfo, add, Arena.malloc, guard]

theorem setUpHead_some {d' : Detector} (hs : setUpHead d = some d') :
    ∃ links, d' = { d with links := links, memleakFlag := true } := by
  cases hflag : d.memleakFlag with
  | true =>
    obtain rfl : d = d' := by simpa [setUpHead, hflag] using hs
    exact ⟨d.links, by rw [← hflag]⟩
  | false =>
    have hhead : d.ok .head = true := rfl
    simp only [setUpHead, hflag, Links.storePrev_addr _ hhead, Links.storeNext_addr _ hhead] at hs
    exact ⟨_, (Option.some.inj hs).symm⟩

theorem addMemInfo_some {d' : Detector} {new memRef : ℕ} {size : UInt32} {site : Site}
    (ha : addMemInfo d new memRef size site = some d') : d.heap.live new = false ∧ site.Ends ∧
      d'.heap = d.heap.hold new sizeofMemleak ∧
      d'.info = Function.update d.info new (site.record (d.info new) memRef size) := by
  obtain ⟨heap, hm, hrest⟩ := Option.bind_eq_some_iff.mp ha
  obtain ⟨_, hne, hrest⟩ := Option.bind_eq_some_iff.mp hrest
  obtain ⟨_, hfit, hrest⟩ := Option.bind_eq_some_iff.mp hrest
  obtain ⟨d₁, hset, hadd⟩ := Option.bind_eq_some_iff.mp hrest
  obtain ⟨links, rfl⟩ := setUpHead_some hset
  rw [memleakAddListTail_links] at hadd
  obtain ⟨links', -, rfl⟩ := Option.map_eq_some_iff.mp hadd
  have hends : site.Ends := site.extent_le_iff.mp ((Option.guard_eq_some' _).mp hfit)
  rcases Arena.malloc_cases hm with ⟨hzero, -⟩ | ⟨-, hlive, rfl⟩
  · exact absurd hzero ((Option.guard_eq_some' _).mp hne)
  · exact ⟨hlive, hends, rfl, rfl⟩

end

def request (d : Detector) (ptr new n : ℕ) (size : UInt32) (site : Site) :
    Option (ℕ × Detector) := do
  let heap ← d.heap.malloc ptr n
  let d := { d with heap := heap }
  let d ← if ptr ≠ 0 then addMemInfo d new ptr size site else some d
  return (ptr, d)

theorem xmalloc_eq_request (d : Detector) (ptr new : ℕ) (size : UInt32) (site : Site) :
    xmalloc d ptr new size site = request d ptr new size.toNat size site := rfl

theorem xcalloc_eq_request (d : Detector) (ptr new : ℕ) (elements size : UInt32) (site : Site) :
    xcalloc d ptr new elements size site =
      request d ptr new (elements.toNat * size.toNat) (elements * size) site := rfl

theorem request_cases {d d' : Detector} {ptr new n r : ℕ} {size : UInt32} {site : Site}
    (hs : request d ptr new n size site = some (r, d')) : r = ptr ∧ ∃ h,
      d.heap.malloc ptr n = some h ∧ (ptr = 0 ∧ d' = { d with heap := h } ∨
        ptr ≠ 0 ∧ addMemInfo { d with heap := h } new ptr size site = some d') := by
  obtain ⟨h, hm, hrest⟩ := Option.bind_eq_some_iff.mp hs
  by_cases hptr : ptr = 0
  · simp only [hptr, ne_eq, not_true_eq_false, if_false, Option.bind_eq_bind, Option.bind_some,
      Option.pure_def] at hrest
    obtain ⟨rfl, rfl⟩ := Prod.mk.inj (Option.some.inj hrest)
    exact ⟨hptr.symm, h, hm, Or.inl ⟨hptr, rfl⟩⟩
  · simp only [hptr, ne_eq, not_false_eq_true, if_true, Option.bind_eq_bind] at hrest
    obtain ⟨d₁, hadd, hret⟩ := Option.bind_eq_some_iff.mp hrest
    obtain ⟨rfl, rfl⟩ := Prod.mk.inj (Option.some.inj hret)
    exact ⟨rfl, h, hm, Or.inr ⟨hptr, hadd⟩⟩

namespace Records
variable {d : Detector} {nodes : List ℕ} {held : ℕ → Bool} {a new n : ℕ}

theorem isRing (hr : Records d nodes held) (hflag : d.memleakFlag = true) :
    IsRing d.links .head (nodes.map .node) := by
  have hring := hr.ring
  rwa [if_pos hflag] at hring

theorem live (hr : Records d nodes held) (ha : a ∈ nodes) : d.heap.live a = true :=
  (hr.live_iff a).mpr (Or.inl ha)

theorem ne_zero (hr : Records d nodes held) (hl : d.heap.live a = true) : a ≠ 0 := by
  rintro rfl
  rw [hr.null] at hl
  cases hl

theorem ok (hr : Records d nodes held) : ∀ x ∈ Loc.head :: nodes.map .node, d.ok x = true := by
  intro x hx
  rcases List.mem_cons.mp hx with rfl | hx
  · rfl
  · obtain ⟨a, ha, rfl⟩ := List.mem_map.mp hx
    exact hr.live ha

theorem nodup (hr : Records d nodes held) : nodes.Nodup := by
  have hring := hr.ring
  split_ifs at hring with hflag
  · exact (List.nodup_cons.mp hring.nodup).2.of_map _
  · rw [hring]
    exact List.nodup_nil

theorem search_ended (hr : Records d nodes held) (hflag : d.memleakFlag = true) (p : ℕ)
    {fuel : ℕ} (hf : nodes.length < fuel) :
    searchRecord d p fuel .head = .ended ((nodes.find? (d.about p)).map .node) := by
  have hring := hr.isRing hflag
  have hlen : (nodes.map Loc.node).length < fuel := by simpa using hf
  have hwalk := Links.search_chain (fun x => decide ((d.memInfo x).address = p))
    (hring.chain.imp fun _ _ hab => hab.1) (List.nodup_cons.mp hring.nodup).1 hr.ok hlen
  rw [searchRecord, hwalk, List.find?_map]
  rfl

theorem delMemleakList {A B : List ℕ} (hr : Records d (A ++ a :: B) held)
    (hflag : d.memleakFlag = true) : ∃ d', Leak.delMemleakList d a = some d' ∧
      Records d' (A ++ B) held ∧ d'.info = d.info ∧ d'.memleakFlag = true := by
  have hring := hr.isRing hflag
  have hok := hr.ok
  rw [List.map_append, List.map_cons] at hring hok
  have ha : d.heap.live a = true := hr.live (by simp)
  have hentry : d.ok (.node a) = true := ha
  obtain ⟨links, hdel, hring'⟩ := listDel_isRing hring hok
  have hnd : (a :: (A ++ B)).Nodup := List.perm_middle.nodup_iff.mp hr.nodup
  have hfree := Arena.free_ok (hr.ne_zero ha) ha
  refine ⟨{ d with links := links, heap := d.heap.drop a }, ?_, ?_, rfl, hflag⟩
  · simp [Leak.delMemleakList, Links.loadPrev_addr _ hentry, Links.loadNext_addr _ hentry,
      hring.prev_mid, hring.next_mid, hdel, hfree, -List.headD_eq_head?_getD,
      -List.getLastD_eq_getLast?]
  · refine ⟨?_, fun c => ?_, fun c hc => hr.apart c ?_, by simp [hr.null], ?_⟩
    · rw [if_pos hflag, List.map_append]
      exact hring'
    · have hapart := hr.apart a (by simp)
      rw [Arena.drop_live, Bool.and_eq_true, hr.live_iff, decide_eq_true_eq]
      by_cases hca : c = a
      · subst hca
        simpa [hapart] using (List.nodup_cons.mp hnd).1
      · simp [hca]
    · rcases List.mem_append.mp hc with hc | hc
      · exact List.mem_append_left _ hc
      · exact List.mem_append_right _ (List.mem_cons_of_mem a hc)
    · have hbound := hr.bound
      simp only [List.length_append, List.length_cons] at hbound ⊢
      exact le_trans (by omega) hbound

theorem removeMemInfo (hr : Records d nodes held) (hflag : d.memleakFlag = true) (p : ℕ) :
    ∃ d', Leak.removeMemInfo d p = some d' ∧ Records d' (nodes.eraseP (d.about p)) held ∧
      d'.info = d.info ∧ d'.memleakFlag = true := by
  have hloop := removeLoop_eq_search d p (d.heap.granted + 1) .head
  rw [hr.search_ended hflag p (Nat.lt_succ_of_le hr.bound)] at hloop
  cases hf : nodes.find? (d.about p) with
  | none =>
    have hnone : nodes.eraseP (d.about p) = nodes :=
      List.eraseP_of_forall_not fun a ha => List.find?_eq_none.mp hf a ha
    rw [hf] at hloop
    exact ⟨d, hloop, by rwa [hnone], rfl, hflag⟩
  | some a =>
    obtain ⟨ha, A, B, hab, hA⟩ := List.find?_eq_some_iff_append.mp hf
    have herase : nodes.eraseP (d.about p) = A ++ B := by
      rw [hab, List.eraseP_append_right _ (fun c hc => by simpa using hA c hc),
        List.eraseP_cons_of_pos ha]
    rw [hf] at hloop
    rw [hab] at hr
    obtain ⟨d', hdel, hr', hinfo, hflag'⟩ := hr.delMemleakList hflag
    exact ⟨d', hloop.trans hdel, by rwa [herase], hinfo, hflag'⟩

theorem addMemInfo (hr : Records d nodes held) (hnew0 : new ≠ 0)
    (hnew : d.heap.live new = false) (memRef : ℕ) (size : UInt32) {site : Site}
    (hends : site.Ends) : ∃ links,
      Leak.addMemInfo d new memRef size site = some ⟨d.heap.hold new sizeofMemleak, links,
        Function.update d.info new (site.record (d.info new) memRef size), true⟩ ∧
      Records ⟨d.heap.hold new sizeofMemleak, links,
        Function.update d.info new (site.record (d.info new) memRef size), true⟩
        (nodes ++ [new]) held := by
  let d₁ : Detector := { d with
    heap := d.heap.hold new sizeofMemleak
    info := Function.update d.info new (site.record (d.info new) memRef size) }
  have hready : if d.memleakFlag then IsRing d.links .head (nodes.map .node)
      else nodes.map Loc.node = [] := by
    have hring := hr.ring
    split_ifs at hring ⊢
    · exact hring
    · rw [hring]
      rfl
  have hout : ¬ (new ∈ nodes ∨ held new = true) := fun h => by
    rw [(hr.live_iff new).mpr h] at hnew
    cases hnew
  have hok : ∀ x ∈ Loc.head :: nodes.map .node, d₁.ok x = true := by
    intro x hx
    have hx' := hr.ok x hx
    cases x with
    | head => rfl
    | node a => simpa [d₁] using Or.inl hx'
  obtain ⟨links, hadd, hring⟩ := setUp_addTail (d := d₁) (x := .node new) hready hok
    (by simp [d₁]) (by simpa using fun h => hout (Or.inl h))
  refine ⟨links, ?_, ?_, fun c => ?_, fun c hc => ?_, ?_, ?_⟩
  · have hfit : strcpyExtent (strncpy site.buffer site.file fileNameLength ++ site.beyond) ≤
        fileNameLength + 1 := site.extent_le_iff.mpr hends
    simp only [Leak.addMemInfo, add, Arena.malloc_ok hnew0 hnew, guard, Option.bind_eq_bind,
      Option.bind_some, ne_eq, hnew0, not_false_eq_true, if_true, if_pos hfit, Option.pure_def]
    exact hadd
  · rw [if_pos rfl, List.map_append]
    exact hring
  · rw [Arena.hold_live, Bool.or_eq_true, hr.live_iff, decide_eq_true_eq]
    simp only [List.mem_append, List.mem_singleton]
    tauto
  · rcases List.mem_append.mp hc with hc | hc
    · exact hr.apart c hc
    · rw [List.mem_singleton.mp hc]
      exact Bool.eq_false_iff.mpr fun h => hout (Or.inr h)
  · simpa [hr.null] using hnew0.symm
  · simpa using hr.bound

theorem hold (hr : Records d nodes held) (ha : a ≠ 0) (hl : d.heap.live a = false) (n : ℕ) :
    Records { d with heap := d.heap.hold a n } nodes (Function.update held a true) := by
  have hout : a ∉ nodes := fun h => by
    rw [hr.live h] at hl
    cases hl
  refine ⟨hr.ring, fun c => ?_, fun c hc => ?_, ?_, Nat.le_succ_of_le hr.bound⟩
  · rw [Arena.hold_live, Bool.or_eq_true, hr.live_iff, decide_eq_true_eq]
    by_cases hc : c = a
    · simp [hc]
    · simp [hc]
  · have hca : c ≠ a := fun h => hout (h ▸ hc)
    simpa [hca] using hr.apart c hc
  · simpa [hr.null] using ha.symm

theorem free (hr : Records d nodes held) (ha : held a = true) :
    d.heap.free a = some (d.heap.drop a) ∧
      Records { d with heap := d.heap.drop a } nodes (Function.update held a false) := by
  have hl : d.heap.live a = true := (hr.live_iff a).mpr (Or.inr ha)
  have hout : a ∉ nodes := fun h => by
    rw [hr.apart a h] at ha
    cases ha
  refine ⟨Arena.free_ok (hr.ne_zero hl) hl, hr.ring, fun c => ?_, fun c hc => ?_, ?_, hr.bound⟩
  · rw [Arena.drop_live, Bool.and_eq_true, hr.live_iff, decide_eq_true_eq]
    by_cases hc : c = a
    · simpa [hc] using hout
    · simp [hc]
  · have hca : c ≠ a := fun h => hout (h ▸ hc)
    simpa [hca] using hr.apart c hc
  · simp [hr.null]

end Records
end KernelHashtable.Leak
