import KernelHashtable.KList
import KernelHashtable.Lib.Circles
import Mathlib.Data.List.Rotate

/-!
# The lists of a memory

The functions of list.h that take several lists at once, or that work on an entry without
being told its list. They are stated for nodes of one type: a `struct k_list_head` that names a
list and one that sits in an entry are alike, and any of them may change its part. Every
function does to the links what a few exchanges do.
-/

namespace KernelHashtable.KList
variable {γ : Type} [DecidableEq γ]

section
variable (ok : γ → Bool) (L : Links γ)

def listDelEntry (entry : Ptr γ) : Option (Links γ) := do
  let prev ← L.loadPrev ok entry
  let next ← L.loadNext ok entry
  listDel ok L prev next

def kListReplace (old new : Ptr γ) : Option (Links γ) := do
  let L ← L.storeNext ok new (← L.loadNext ok old)
  let L ← L.storePrev ok (← L.loadNext ok new) new
  let L ← L.storePrev ok new (← L.loadPrev ok old)
  L.storeNext ok (← L.loadPrev ok new) new

def kListReplaceInit (old new : Ptr γ) : Option (Links γ) := do
  let L ← kListReplace ok L old new
  kInitListHead ok L old

def kListDelInit (entry : Ptr γ) : Option (Links γ) := do
  let L ← listDelEntry ok L entry
  kInitListHead ok L entry

def kListMove (list head : Ptr γ) : Option (Links γ) := do
  let L ← listDelEntry ok L list
  kListAdd ok L list head

def kListMoveTail (list head : Ptr γ) : Option (Links γ) := do
  let L ← listDelEntry ok L list
  kListAddTail ok L list head

def kListIsLast (list head : Ptr γ) : Option Bool := do
  let next ← L.loadNext ok list
  return decide (next = head)

def kListEmptyCareful (head : Ptr γ) : Option Bool := do
  let next ← L.loadNext ok head
  if next = head then
    let prev ← L.loadPrev ok head
    return decide (next = prev)
  else return false

def kListRotateLeft (head : Ptr γ) : Option (Links γ) := do
  if !(← kListEmpty ok L head) then
    let first ← L.loadNext ok head
    kListMoveTail ok L first head
  else return L

def kListIsSingular (head : Ptr γ) : Option Bool := do
  if !(← kListEmpty ok L head) then
    let next ← L.loadNext ok head
    let prev ← L.loadPrev ok head
    return decide (next = prev)
  else return false

def listCutPosition (list head entry : Ptr γ) : Option (Links γ) := do
  let newFirst ← L.loadNext ok entry
  let L ← L.storeNext ok list (← L.loadNext ok head)
  let L ← L.storePrev ok (← L.loadNext ok list) list
  let L ← L.storePrev ok list entry
  let L ← L.storeNext ok entry list
  let L ← L.storeNext ok head newFirst
  L.storePrev ok newFirst head

def kListCutPosition (list head entry : Ptr γ) : Option (Links γ) := do
  if ← kListEmpty ok L head then return L
  if ← kListIsSingular ok L head then
    if decide ((← L.loadNext ok head) ≠ entry) && decide (head ≠ entry) then return L
  if entry = head then kInitListHead ok L list else listCutPosition ok L list head entry

def listSplice (list prev next : Ptr γ) : Option (Links γ) := do
  let first ← L.loadNext ok list
  let last ← L.loadPrev ok list
  let L ← L.storePrev ok first prev
  let L ← L.storeNext ok prev first
  let L ← L.storeNext ok last next
  L.storePrev ok next last

def kListSplice (list head : Ptr γ) : Option (Links γ) := do
  if !(← kListEmpty ok L list) then listSplice ok L list head (← L.loadNext ok head)
  else return L

def kListSpliceTail (list head : Ptr γ) : Option (Links γ) := do
  if !(← kListEmpty ok L list) then listSplice ok L list (← L.loadPrev ok head) head
  else return L

def kListSpliceInit (list head : Ptr γ) : Option (Links γ) := do
  if !(← kListEmpty ok L list) then
    let L ← listSplice ok L list head (← L.loadNext ok head)
    kInitListHead ok L list
  else return L

def kListSpliceTailInit (list head : Ptr γ) : Option (Links γ) := do
  if !(← kListEmpty ok L list) then
    let L ← listSplice ok L list (← L.loadPrev ok head) head
    kInitListHead ok L list
  else return L

def kListFirstEntryOrNull (ptr : Ptr γ) : Option (Ptr γ) := do
  if !(← kListEmpty ok L ptr) then L.loadNext ok ptr else return .null

def kListLastEntryOrNull (ptr : Ptr γ) : Option (Ptr γ) := do
  if !(← kListEmpty ok L ptr) then L.loadPrev ok ptr else return .null

/-- `begin->prev->next = end->next; end->next->prev = begin->prev;` -/
def listDelRange (first last : Ptr γ) : Option (Links γ) := do
  let L ← L.storeNext ok (← L.loadPrev ok first) (← L.loadNext ok last)
  L.storePrev ok (← L.loadNext ok last) (← L.loadPrev ok first)

end

def cutAt (s : Circles γ) (x h e : γ) : Circles γ :=
  match s h with
  | none => s
  | some xs =>
    if xs = [] ∨ xs.length = 1 ∧ e ∉ h :: xs then s
    else if e = h then Function.update s x (some [])
    else Function.update (Function.update s x (some (xs.take (xs.idxOf e + 1)))) h
      (some (xs.drop (xs.idxOf e + 1)))

section
variable {ok : γ → Bool} {L : Links γ} {s : Circles γ} {e h n p q x : γ} {us vs xs : List γ}

theorem kInitListHead_eq (hh : ok h = true) : kInitListHead ok L (.addr h) = some (L.solo h) := by
  simp [kInitListHead, Links.storeNext_addr _ hh, Links.storePrev_addr _ hh, Links.solo]

theorem listAdd_eq (hn : ok n = true) (hp : ok p = true) (hq : ok q = true) (hnp : n ≠ p)
    (hnq : n ≠ q) :
    listAdd ok L (.addr n) (.addr p) (.addr q) = some ((L.solo n).exchange p q n n) := by
  have hnext : Function.update (Function.update L.next n (.addr q)) p (.addr n) =
      ((L.solo n).exchange p q n n).next := by
    funext x
    simp only [Links.exchange_next_apply, Links.solo_next_apply, Function.update_apply]
    grind
  have hprev : Function.update (Function.update L.prev q (.addr n)) n (.addr p) =
      ((L.solo n).exchange p q n n).prev := by
    funext x
    simp only [Links.exchange_prev_apply, Links.solo_prev_apply, Function.update_apply]
    grind
  simp only [listAdd, Links.storeNext_addr, Links.storePrev_addr, hn, hp, hq,
    Option.bind_eq_bind, Option.bind_some, hnext, hprev]

theorem kListAdd_circles (hs : IsCircles ok L s) (hx : s.Owns x) (hn : ¬ s.Owns n)
    (hok : ok n = true) :
    ∃ L', kListAdd ok L (.addr n) (.addr x) = some L' ∧ IsCircles ok L' (s.behind x [n]) := by
  obtain ⟨h, xs, hh, hm⟩ := hx
  obtain ⟨us, vs, rfl, rfl⟩ := IsCircles.exists_left hm
  have hq : s.Owns (vs.headD h) := ⟨h, _, hh, IsRing.mem_right us vs h⟩
  have hp : s.Owns (us.getLastD h) := ⟨h, _, hh, IsRing.mem_left us vs h⟩
  refine ⟨_, ?_, hs.behind_eq hh [n] ▸ hs.insert hh hok hn⟩
  rw [← listAdd_eq hok (hs.live _ hp) (hs.live _ hq) (fun e => hn (e ▸ hp)) fun e => hn (e ▸ hq)]
  simp only [kListAdd, Links.loadNext_addr L (hs.live _ hp),
    ((hs.ring h _ hh).linked_cut us vs).1, Option.bind_eq_bind, Option.bind_some]

theorem kListAddTail_circles (hs : IsCircles ok L s) (hx : s.Owns x) (hn : ¬ s.Owns n)
    (hok : ok n = true) :
    ∃ L', kListAddTail ok L (.addr n) (.addr x) = some L' ∧
      IsCircles ok L' (s.before x [n]) := by
  obtain ⟨h, xs, hh, hm⟩ := hx
  obtain ⟨us, vs, rfl, rfl⟩ := IsCircles.exists_right hm
  have hq : s.Owns (vs.headD h) := ⟨h, _, hh, IsRing.mem_right us vs h⟩
  have hp : s.Owns (us.getLastD h) := ⟨h, _, hh, IsRing.mem_left us vs h⟩
  refine ⟨_, ?_, hs.before_eq hh [n] ▸ hs.insert hh hok hn⟩
  rw [← listAdd_eq hok (hs.live _ hp) (hs.live _ hq) (fun e => hn (e ▸ hp)) fun e => hn (e ▸ hq)]
  simp only [kListAddTail, Links.loadPrev_addr L (hs.live _ hq),
    ((hs.ring h _ hh).linked_cut us vs).2, Option.bind_eq_bind, Option.bind_some]

theorem listDelEntry_circles (hs : IsCircles ok L s) (he : s.Owns e) :
    ∃ L', listDelEntry ok L (.addr e) = some L' ∧ IsCircles ok L' (s.without e) := by
  obtain ⟨p, q, hp, hq, hop, hoq, hs'⟩ := hs.takeOut he
  refine ⟨⟨Function.update L.next p (.addr q), Function.update L.prev q (.addr p)⟩, ?_,
    hs'.congr fun x hx => ?_⟩
  · simp only [listDelEntry, listDel, Links.loadPrev_addr L (hs.live e he), hp, hq,
      Links.loadNext_addr L (hs.live e he), Links.storePrev_addr _ (hs.live q hoq),
      Links.storeNext_addr _ (hs.live p hop), Option.bind_eq_bind, Option.bind_some]
  · have hxe : x ≠ e := fun e' => hs.not_owns_without (e' ▸ hx)
    simp [Links.exchange, Function.update_of_ne hxe]

theorem kListDel_circles (hs : IsCircles ok L s) (he : s.Owns e) :
    ∃ L', kListDel ok L (.addr e) = some L' ∧ IsCircles ok L' (s.without e) ∧
      L'.next e = listPoison1 := by
  obtain ⟨L₁, h₁, hs₁⟩ := listDelEntry_circles hs he
  refine ⟨⟨Function.update L₁.next e listPoison1, Function.update L₁.prev e listPoison2⟩, ?_,
    hs₁.congr fun x hx => ?_, Function.update_self ..⟩
  · have hok := hs.live e he
    simp only [listDelEntry, Links.loadPrev_addr L hok, Links.loadNext_addr L hok,
      Option.bind_eq_bind, Option.bind_some] at h₁
    simp only [kListDel, Links.loadPrev_addr L hok, Links.loadNext_addr L hok, h₁,
      Links.storeNext_addr _ hok, Links.storePrev_addr _ hok, Option.bind_eq_bind,
      Option.bind_some]
  · have hxe : x ≠ e := fun e' => hs.not_owns_without (e' ▸ hx)
    exact ⟨Function.update_of_ne hxe _ _, Function.update_of_ne hxe _ _⟩

theorem kListDelInit_circles (hs : IsCircles ok L s) (he : s.Owns e) :
    ∃ L', kListDelInit ok L (.addr e) = some L' ∧
      IsCircles ok L' (Function.update (s.without e) e (some [])) := by
  obtain ⟨L₁, h₁, hs₁⟩ := listDelEntry_circles hs he
  refine ⟨L₁.solo e, ?_, hs₁.solo (hs.live e he) (hs.not_owns_without)⟩
  simp only [kListDelInit, h₁, Option.bind_eq_bind, Option.bind_some,
    kInitListHead_eq (hs.live e he)]

theorem kListMove_circles (hs : IsCircles ok L s) (he : s.Owns e) (hx : (s.without e).Owns x) :
    ∃ L', kListMove ok L (.addr e) (.addr x) = some L' ∧
      IsCircles ok L' ((s.without e).behind x [e]) := by
  obtain ⟨L₁, h₁, hs₁⟩ := listDelEntry_circles hs he
  obtain ⟨L₂, h₂, hs₂⟩ := kListAdd_circles hs₁ hx (hs.not_owns_without) (hs.live e he)
  exact ⟨L₂, by simp [kListMove, h₁, h₂], hs₂⟩

theorem kListMoveTail_circles (hs : IsCircles ok L s) (he : s.Owns e)
    (hx : (s.without e).Owns x) :
    ∃ L', kListMoveTail ok L (.addr e) (.addr x) = some L' ∧
      IsCircles ok L' ((s.without e).before x [e]) := by
  obtain ⟨L₁, h₁, hs₁⟩ := listDelEntry_circles hs he
  obtain ⟨L₂, h₂, hs₂⟩ := kListAddTail_circles hs₁ hx (hs.not_owns_without) (hs.live e he)
  exact ⟨L₂, by simp [kListMoveTail, h₁, h₂], hs₂⟩

theorem kListReplace_circles (hs : IsCircles ok L s) (hx : s.Owns x) (hn : ¬ s.Owns n)
    (hok : ok n = true) :
    ∃ L', kListReplace ok L (.addr x) (.addr n) = some L' ∧ IsCircles ok L' (s.rename x n) := by
  obtain ⟨p, q, hp, hq, hop, hoq, hpq, hs'⟩ := hs.substitute hx hok hn
  have hxn : x ≠ n := fun e => hn (e ▸ hx)
  have hqn : q ≠ n := fun e => hn (e ▸ hoq)
  -- when the list is empty, the old node's own links are what the stores change
  set r := if p = x then n else p with hr
  have hrok : ok r = true := by
    rw [hr]
    split_ifs
    · exact hok
    · exact hs.live p hop
  refine ⟨⟨Function.update (Function.update L.next n (.addr q)) r (.addr n),
    Function.update (Function.update L.prev q (.addr n)) n (.addr r)⟩, ?_,
    hs'.congr fun z hz => ?_⟩
  · have hprev : Function.update L.prev q (.addr n) x = .addr r := by
      rw [Function.update_apply, hp, hr]
      by_cases h : x = q
      · rw [if_pos h, if_pos (hpq.mpr h.symm)]
      · rw [if_neg h, if_neg fun e => h (hpq.mp e).symm]
    simp only [kListReplace, Links.loadNext_addr _ (hs.live x hx), hq, Option.bind_eq_bind,
      Option.bind_some, Links.storeNext_addr _ hok, Links.loadNext_addr _ hok,
      Function.update_self, Links.storePrev_addr _ (hs.live q hoq),
      Links.loadPrev_addr _ (hs.live x hx), hprev, Links.storePrev_addr _ hok,
      Links.loadPrev_addr _ hok, Links.storeNext_addr _ hrok]
  · have hzx : z ≠ x := fun e => hs.not_owns_rename hx hn (e ▸ hz)
    simp only [Links.exchange_next_apply, Links.exchange_prev_apply, Links.solo_next_apply,
      Links.solo_prev_apply, Function.update_apply]
    grind

theorem kListReplaceInit_circles (hs : IsCircles ok L s) (hx : s.Owns x) (hn : ¬ s.Owns n)
    (hok : ok n = true) :
    ∃ L', kListReplaceInit ok L (.addr x) (.addr n) = some L' ∧
      IsCircles ok L' (Function.update (s.rename x n) x (some [])) := by
  obtain ⟨L₁, h₁, hs₁⟩ := kListReplace_circles hs hx hn hok
  refine ⟨L₁.solo x, ?_, hs₁.solo (hs.live x hx) (hs.not_owns_rename hx hn)⟩
  simp only [kListReplaceInit, h₁, Option.bind_eq_bind, Option.bind_some,
    kInitListHead_eq (hs.live x hx)]

theorem kListEmpty_circles (hs : IsCircles ok L s) (hx : s.Owns x) :
    kListEmpty ok L (.addr x) = some (decide (s x = some [])) := by
  have hok := hs.live x hx
  obtain ⟨h, xs, hh, hm⟩ := hx
  rcases List.mem_cons.mp hm with rfl | hm
  · rw [kListEmpty_isRing (hs.ring x xs hh) hok]
    simp [hh]
  · obtain ⟨us, vs, rfl⟩ := List.append_of_mem hm
    rw [kListEmpty_isRing (hs.ring h _ hh).turn hok]
    simp [hs.name_eq_none hh]

theorem kListEmptyCareful_circles (hs : IsCircles ok L s) (hx : s.Owns x) :
    kListEmptyCareful ok L (.addr x) = some (decide (s x = some [])) := by
  have hok := hs.live x hx
  have hempty := kListEmpty_circles hs hx
  simp only [kListEmpty, Links.loadNext_addr L hok, Option.bind_eq_bind, Option.bind_some,
    Option.pure_def, Option.some.injEq, decide_eq_decide] at hempty
  simp only [kListEmptyCareful, Links.loadNext_addr L hok, Links.loadPrev_addr L hok,
    Option.bind_eq_bind, Option.bind_some, Option.pure_def]
  by_cases hsx : s x = some []
  · have hsolo := IsRing.nil_iff.mp (hs.ring x [] hsx)
    simp [hsolo, hsx]
  · rw [if_neg (hempty.not.mpr hsx)]
    simp [hsx]

theorem kListIsLast_circles (hs : IsCircles ok L s) (hh : s h = some xs) (hx : s.Owns x) :
    kListIsLast ok L (.addr x) (.addr h) = some (decide (x = xs.getLastD h)) := by
  have hr := hs.ring h xs hh
  have hok := hs.live x hx
  obtain ⟨g, zs, hg, hm⟩ := hx
  obtain ⟨us, vs, rfl, rfl⟩ := IsCircles.exists_left hm
  have hlink := (hs.ring g _ hg).linked_cut us vs
  have hiff : L.next (us.getLastD g) = .addr h ↔ us.getLastD g = xs.getLastD h := by
    constructor
    · intro e
      obtain rfl : vs.headD g = h := Ptr.addr.inj (hlink.1.symm.trans e)
      exact Ptr.addr.inj (hlink.2.symm.trans hr.prev_head)
    · intro e
      have hlast := (show IsRing L h (xs ++ []) by simpa using hr).linked_cut xs []
      exact e ▸ hlast.1
  simp only [kListIsLast, Links.loadNext_addr L hok, Option.bind_eq_bind, Option.bind_some,
    Option.pure_def, hiff]

theorem kListIsSingular_circles (hs : IsCircles ok L s) (hh : s h = some xs) :
    kListIsSingular ok L (.addr h) = some (decide (xs.length = 1)) := by
  have hown : s.Owns h := ⟨h, xs, hh, by simp⟩
  have hok := hs.live h hown
  have hr := hs.ring h xs hh
  simp only [kListIsSingular, kListEmpty_isRing hr hok, Links.loadNext_addr L hok,
    Links.loadPrev_addr L hok, hr.next_head, hr.prev_head, Option.bind_eq_bind,
    Option.bind_some, Option.pure_def]
  match xs, hr with
  | [], _ => rfl
  | [x], _ => simp
  | x :: y :: zs, hr =>
    have hnd := (List.nodup_cons.mp hr.nodup).2
    have hne : x ≠ (x :: y :: zs).getLastD h := by
      rw [List.getLastD_cons, List.getLastD_cons]
      exact fun e => (List.nodup_cons.mp hnd).1 (e ▸ List.getLastD_mem_cons)
    simp only [List.headD_cons, Ptr.addr.injEq, hne]
    rfl

theorem kListFirstEntryOrNull_circles (hs : IsCircles ok L s) (hh : s h = some xs) :
    kListFirstEntryOrNull ok L (.addr h) = some (xs.head?.elim .null .addr) := by
  have hok := hs.live h ⟨h, xs, hh, by simp⟩
  have hr := hs.ring h xs hh
  simp only [kListFirstEntryOrNull, kListEmpty_isRing hr hok, Links.loadNext_addr L hok,
    hr.next_head, Option.bind_eq_bind, Option.bind_some, Option.pure_def]
  cases xs <;> rfl

theorem kListLastEntryOrNull_circles (hs : IsCircles ok L s) (hh : s h = some xs) :
    kListLastEntryOrNull ok L (.addr h) = some (xs.getLast?.elim .null .addr) := by
  have hok := hs.live h ⟨h, xs, hh, by simp⟩
  have hr := hs.ring h xs hh
  simp only [kListLastEntryOrNull, kListEmpty_isRing hr hok, Links.loadPrev_addr L hok,
    hr.prev_head, Option.bind_eq_bind, Option.bind_some, Option.pure_def]
  cases xs with
  | nil => rfl
  | cons x xs => simp [List.getLast?_cons]

theorem kListRotateLeft_circles (hs : IsCircles ok L s) (hh : s h = some xs) :
    ∃ L', kListRotateLeft ok L (.addr h) = some L' ∧
      IsCircles ok L' (Function.update s h (some (xs.rotate 1))) := by
  have hown : s.Owns h := ⟨h, xs, hh, by simp⟩
  have hok := hs.live h hown
  have hr := hs.ring h xs hh
  cases xs with
  | nil =>
    refine ⟨L, ?_, ?_⟩
    · simp [kListRotateLeft, kListEmpty_isRing hr hok]
    · have hsame : Function.update s h (some []) = s := by rw [← hh, Function.update_eq_self]
      simpa [hsame] using hs
  | cons x xs =>
    have hx : s.without x = Function.update s h (some xs) :=
      hs.without_eq_of_mem (show s h = some ([] ++ x :: xs) from hh)
    have hxown : s.Owns x := ⟨h, _, hh, by simp⟩
    have hown' : (s.without x).Owns h := ⟨h, xs, by simp [hx], by simp⟩
    obtain ⟨L₁, h₁, hs₁⟩ := listDelEntry_circles hs hxown
    obtain ⟨L₂, h₂, hs₂⟩ := kListMoveTail_circles hs hxown hown'
    refine ⟨L₂, ?_, ?_⟩
    · simp [kListRotateLeft, kListEmpty_isRing hr hok, Links.loadNext_addr L hok, hr.next_head, h₂]
    · have hbefore := hs₁.before_eq (show s.without x h = some (xs ++ []) by simp [hx]) [x]
      rw [List.headD_nil, hx, Function.update_idem] at hbefore
      rw [hx, hbefore] at hs₂
      simpa using hs₂

theorem listCutPosition_eq {f : γ} (hx : ok x = true) (hh : ok h = true) (he : ok e = true)
    (hf : ok f = true) (hq : ok q = true) (hnext : L.next h = .addr f) (hnext' : L.next e = .addr q)
    (hhe : h ≠ e) (hxq : x ≠ q) :
    listCutPosition ok L (.addr x) (.addr h) (.addr e) =
      some (((L.solo x).exchange h f x x).exchange h x e q) := by
  have hnexts : Function.update (Function.update (Function.update L.next x (.addr f)) e (.addr x))
      h (.addr q) = (((L.solo x).exchange h f x x).exchange h x e q).next := by
    funext z
    simp only [Links.exchange_next_apply, Links.solo_next_apply, Function.update_apply]
    grind
  have hprevs : Function.update (Function.update (Function.update L.prev f (.addr x)) x (.addr e))
      q (.addr h) = (((L.solo x).exchange h f x x).exchange h x e q).prev := by
    funext z
    simp only [Links.exchange_prev_apply, Links.solo_prev_apply, Function.update_apply]
    grind
  simp only [listCutPosition, Links.loadNext_addr _ he, hnext, hnext', Links.loadNext_addr _ hh,
    Links.storeNext_addr _ hx, Links.loadNext_addr _ hx, Function.update_self,
    Links.storePrev_addr _ hx, Links.storePrev_addr _ hf, Links.storeNext_addr _ he,
    Links.storeNext_addr _ hh, Links.storePrev_addr _ hq, Option.bind_eq_bind, Option.bind_some,
    hnexts, hprevs]

theorem listCutPosition_circles {ys : List γ} (hs : IsCircles ok L s)
    (hh : s h = some (ys ++ e :: vs)) (hx : s.Free x) (hok : ok x = true) (hxh : x ≠ h) :
    ∃ L', listCutPosition ok L (.addr x) (.addr h) (.addr e) = some L' ∧
      IsCircles ok L' (Function.update (Function.update s x (some (ys ++ [e]))) h (some vs)) := by
  have hs₀ := hs.forget x
  have hh₀ : Function.update s x none h = some ((ys ++ [e]) ++ vs) := by
    rw [Function.update_of_ne hxh.symm, hh]
    simp
  have hxo := IsCircles.not_owns_of_free hx
  have hr := hs₀.ring h _ hh₀
  have hown : ∀ z ∈ h :: ((ys ++ [e]) ++ vs), (s.forget x).Owns z :=
    fun z hz => ⟨h, _, hh₀, hz⟩
  have hlive : ∀ z ∈ h :: ((ys ++ [e]) ++ vs), ok z = true := fun z hz => hs₀.live z (hown z hz)
  have hne : ∀ z ∈ h :: ((ys ++ [e]) ++ vs), x ≠ z := fun z hz e => hxo (e ▸ hown z hz)
  have hfirst := IsRing.mem_right [] ((ys ++ [e]) ++ vs) h
  have hlast : vs.headD h ∈ h :: ((ys ++ [e]) ++ vs) := IsRing.mem_right _ vs h
  have he : e ∈ h :: ((ys ++ [e]) ++ vs) := by simp
  have hhe : h ≠ e := fun e' => (List.nodup_cons.mp hr.nodup).1 (by simp [e'])
  have hend : (ys ++ [e]).getLastD h = e ∧ (ys ++ [e]).getLastD x = e := by simp
  have hnext := (hr.linked_cut (ys ++ [e]) vs).1
  rw [hend.1] at hnext
  have hins := hs₀.insert (show s.forget x h = some ([] ++ ((ys ++ [e]) ++ vs)) from hh₀) hok hxo
  have hcut := hins.cut (h := h)
    (show _ = some ([] ++ x :: ((ys ++ [e]) ++ vs)) from Function.update_self ..)
  rw [hend.2, Function.update_idem, Function.update_comm hxh.symm, Function.update_idem] at hcut
  exact ⟨_, listCutPosition_eq hok (hlive h (by simp)) (hlive e he) (hlive _ hfirst)
    (hlive _ hlast) hr.next_head hnext hhe (hne _ hlast), hcut⟩

theorem take_idxOf (vs : List γ) {ys : List γ} (he : e ∉ ys) :
    (ys ++ e :: vs).take ((ys ++ e :: vs).idxOf e + 1) = ys ++ [e] ∧
      (ys ++ e :: vs).drop ((ys ++ e :: vs).idxOf e + 1) = vs := by
  have hidx : (ys ++ e :: vs).idxOf e = ys.length := by simp [List.idxOf_append, he]
  rw [hidx]
  exact ⟨List.take_length_add_append 1, List.drop_length_add_append 1⟩

theorem kListCutPosition_eq {f : γ} {b : Bool} (hempty : kListEmpty ok L (.addr h) = some false)
    (hsing : kListIsSingular ok L (.addr h) = some b) (hh : ok h = true)
    (hnext : L.next h = .addr f) :
    kListCutPosition ok L (.addr x) (.addr h) (.addr e) =
      if b = true ∧ f ≠ e ∧ h ≠ e then some L
      else if e = h then kInitListHead ok L (.addr x)
      else listCutPosition ok L (.addr x) (.addr h) (.addr e) := by
  simp only [kListCutPosition, hempty, hsing, Links.loadNext_addr L hh, hnext,
    Option.bind_eq_bind, Option.bind_some]
  cases b
  · simp
  · by_cases hfe : f = e <;> by_cases hhe : h = e <;> simp [hfe, hhe]

theorem kListCutPosition_circles (hs : IsCircles ok L s) (hh : s h = some xs) (hx : s.Free x)
    (hok : ok x = true) (hxh : x ≠ h) (he : xs.length ≤ 1 ∨ e ∈ h :: xs) :
    ∃ L', kListCutPosition ok L (.addr x) (.addr h) (.addr e) = some L' ∧
      IsCircles ok L' (cutAt s x h e) := by
  have hhok := hs.live h ⟨h, xs, hh, by simp⟩
  have hr := hs.ring h xs hh
  by_cases hnil : xs = []
  · refine ⟨L, ?_, by simpa [cutAt, hh, hnil] using hs⟩
    simp [kListCutPosition, kListEmpty_isRing hr hhok, hnil]
  have hempty : kListEmpty ok L (.addr h) = some false := by
    rw [kListEmpty_isRing hr hhok, decide_eq_false hnil]
  have hcode := fun x e => kListCutPosition_eq (x := x) (e := e) hempty
    (kListIsSingular_circles hs hh) hhok hr.next_head
  by_cases hout : xs.length = 1 ∧ e ∉ h :: xs
  · obtain ⟨y, rfl⟩ := List.length_eq_one_iff.mp hout.1
    obtain ⟨heh, hey⟩ := not_or.mp (List.mem_cons.not.mp hout.2)
    refine ⟨L, ?_, by simpa [cutAt, hh, hout] using hs⟩
    rw [hcode, if_pos ⟨by simp, fun e' => hey (by simp [← e']), fun e' => heh e'.symm⟩]
  · have hmem : e ∈ h :: xs := by
      by_contra hnot
      have hlen := he.resolve_right hnot
      have hpos := List.length_pos_of_ne_nil hnil
      exact hout ⟨by omega, hnot⟩
    have hpass : ¬ (decide (xs.length = 1) = true ∧ xs.headD h ≠ e ∧ h ≠ e) := by
      rintro ⟨hone, hfe, hhe⟩
      obtain ⟨y, rfl⟩ := List.length_eq_one_iff.mp (of_decide_eq_true hone)
      rcases List.mem_cons.mp hmem with rfl | hey
      · exact hhe rfl
      · exact hfe (List.mem_singleton.mp hey).symm
    rw [hcode, if_neg hpass]
    have hcut : cutAt s x h e = if e = h then Function.update s x (some [])
        else Function.update (Function.update s x (some (xs.take (xs.idxOf e + 1)))) h
          (some (xs.drop (xs.idxOf e + 1))) := by
      simp only [cutAt, hh, if_neg (not_or.mpr ⟨hnil, hout⟩)]
    rw [hcut]
    by_cases heh : e = h
    · rw [if_pos heh, if_pos heh]
      refine ⟨L.solo x, kInitListHead_eq hok, ?_⟩
      have hsolo := (hs.forget x).solo hok (IsCircles.not_owns_of_free hx)
      rwa [Function.update_idem] at hsolo
    · rw [if_neg heh, if_neg heh]
      obtain ⟨ys, vs, rfl⟩ := List.append_of_mem (List.mem_of_ne_of_mem heh hmem)
      have hey : e ∉ ys := by
        have hnd := (List.nodup_cons.mp hr.nodup).2
        exact fun hm => (List.nodup_append.mp hnd).2.2 e hm e (by simp) rfl
      obtain ⟨htake, hdrop⟩ := take_idxOf vs hey
      rw [htake, hdrop]
      exact listCutPosition_circles hs hh hx hok hxh

theorem listSplice_eq {f l : γ} (hx : ok x = true) (hf : ok f = true) (hl : ok l = true)
    (hp : ok p = true) (hq : ok q = true) (hnext : L.next x = .addr f) (hprev : L.prev x = .addr l)
    (hpl : p ≠ l) (hqf : q ≠ f) :
    ∃ L', listSplice ok L (.addr x) (.addr p) (.addr q) = some L' ∧ ∀ z, z ≠ x →
      L'.next z = ((L.exchange p q l x).exchange p x x f).next z ∧
      L'.prev z = ((L.exchange p q l x).exchange p x x f).prev z := by
  refine ⟨⟨Function.update (Function.update L.next p (.addr f)) l (.addr q),
    Function.update (Function.update L.prev f (.addr p)) q (.addr l)⟩, ?_, fun z hz => ?_⟩
  · simp only [listSplice, Links.loadNext_addr _ hx, Links.loadPrev_addr _ hx, hnext, hprev,
      Links.storePrev_addr _ hf, Links.storeNext_addr _ hp, Links.storeNext_addr _ hl,
      Links.storePrev_addr _ hq, Option.bind_eq_bind, Option.bind_some]
  · simp only [Links.exchange_next_apply, Links.exchange_prev_apply, Function.update_apply]
    grind

theorem listSplice_circles {y : γ} {ys : List γ} (hs : IsCircles ok L s)
    (hh : s h = some (us ++ vs)) (hx : s x = some (y :: ys)) (hhx : h ≠ x) :
    ∃ L', listSplice ok L (.addr x) (.addr (us.getLastD h)) (.addr (vs.headD h)) = some L' ∧
      IsCircles ok L' (Function.update (s.forget x) h (some (us ++ (y :: ys ++ vs)))) ∧
      ¬ Circles.Owns (Function.update (s.forget x) h (some (us ++ (y :: ys ++ vs)))) x := by
  have hin : ∀ z ∈ h :: (us ++ vs), ok z = true ∧ z ∉ x :: y :: ys := fun z hz =>
    ⟨hs.live z ⟨h, _, hh, hz⟩, fun hz' => hhx (hs.apart h x _ _ z hh hx hz hz')⟩
  have hlive : ∀ z ∈ x :: y :: ys, ok z = true := fun z hz => hs.live z ⟨x, _, hx, hz⟩
  have hleft := hin _ (IsRing.mem_left us vs h)
  have hright := hin _ (IsRing.mem_right us vs h)
  have hfirst : y ∈ x :: y :: ys := by simp
  have hlast : ys.getLastD y ∈ x :: y :: ys := List.mem_cons_of_mem x List.getLastD_mem_cons
  have hprev : L.prev x = .addr (ys.getLastD y) := by
    rw [(hs.ring x _ hx).prev_head, List.getLastD_cons]
  obtain ⟨L', h', hz⟩ := listSplice_eq (hlive x (by simp)) (hlive y hfirst) (hlive _ hlast)
    hleft.1 hright.1 (hs.ring x _ hx).next_head hprev (fun e => hleft.2 (e ▸ hlast))
    fun e => hright.2 (e ▸ hfirst)
  obtain ⟨hs', hnot⟩ := hs.splice hh hx hhx
  exact ⟨L', h', hs'.congr fun z hzo => hz z fun e => hnot (e ▸ hzo), hnot⟩

theorem kListSplice_circles (hs : IsCircles ok L s) (hx : s x = some xs)
    (hp : xs ≠ [] → (s.forget x).Owns p) :
    ∃ L', kListSplice ok L (.addr x) (.addr p) = some L' ∧
      IsCircles ok L' (if xs = [] then s else (s.forget x).behind p xs) ∧
      kListSpliceInit ok L (.addr x) (.addr p) = some (if xs = [] then L' else L'.solo x) ∧
      (xs ≠ [] → ¬ ((s.forget x).behind p xs).Owns x) := by
  have hok := hs.live x ⟨x, xs, hx, by simp⟩
  have hempty := kListEmpty_isRing (hs.ring x xs hx) hok
  cases xs with
  | nil => exact ⟨L, by simp [kListSplice, hempty], hs, by simp [kListSpliceInit, hempty], by simp⟩
  | cons y ys =>
    obtain ⟨h, zs, hh, hm⟩ := hp (by simp)
    have hhx : h ≠ x := fun e => by simp [e] at hh
    obtain ⟨us, vs, rfl, rfl⟩ := IsCircles.exists_left hm
    have hh' : s h = some (us ++ vs) := by rwa [Circles.forget_of_ne hhx] at hh
    obtain ⟨L', h', hs', hnot⟩ := listSplice_circles hs hh' hx hhx
    have hplace := hs.live _ ⟨h, _, hh', IsRing.mem_left us vs h⟩
    have hnext := ((hs.ring h _ hh').linked_cut us vs).1
    have hbehind := (hs.forget x).behind_eq hh (y :: ys)
    rw [← hbehind] at hs' hnot
    refine ⟨L', ?_, hs', ?_, fun _ => hnot⟩
    · simp only [kListSplice, hempty, Links.loadNext_addr L hplace, hnext, h',
        Option.bind_eq_bind, Option.bind_some]
      rfl
    · simp only [kListSpliceInit, hempty, Links.loadNext_addr L hplace, hnext, h',
        Option.bind_eq_bind, Option.bind_some, kInitListHead_eq hok]
      rfl

theorem kListSpliceTail_circles (hs : IsCircles ok L s) (hx : s x = some xs)
    (hq : xs ≠ [] → (s.forget x).Owns q) :
    ∃ L', kListSpliceTail ok L (.addr x) (.addr q) = some L' ∧
      IsCircles ok L' (if xs = [] then s else (s.forget x).before q xs) ∧
      kListSpliceTailInit ok L (.addr x) (.addr q) = some (if xs = [] then L' else L'.solo x) ∧
      (xs ≠ [] → ¬ ((s.forget x).before q xs).Owns x) := by
  have hok := hs.live x ⟨x, xs, hx, by simp⟩
  have hempty := kListEmpty_isRing (hs.ring x xs hx) hok
  cases xs with
  | nil =>
    exact ⟨L, by simp [kListSpliceTail, hempty], hs, by simp [kListSpliceTailInit, hempty],
      by simp⟩
  | cons y ys =>
    obtain ⟨h, zs, hh, hm⟩ := hq (by simp)
    have hhx : h ≠ x := fun e => by simp [e] at hh
    obtain ⟨us, vs, rfl, rfl⟩ := IsCircles.exists_right hm
    have hh' : s h = some (us ++ vs) := by rwa [Circles.forget_of_ne hhx] at hh
    obtain ⟨L', h', hs', hnot⟩ := listSplice_circles hs hh' hx hhx
    have hplace := hs.live _ ⟨h, _, hh', IsRing.mem_right us vs h⟩
    have hprev := ((hs.ring h _ hh').linked_cut us vs).2
    have hbefore := (hs.forget x).before_eq hh (y :: ys)
    rw [← hbefore] at hs' hnot
    refine ⟨L', ?_, hs', ?_, fun _ => hnot⟩
    · simp only [kListSpliceTail, hempty, Links.loadPrev_addr L hplace, hprev, h',
        Option.bind_eq_bind, Option.bind_some]
      rfl
    · simp only [kListSpliceTailInit, hempty, Links.loadPrev_addr L hplace, hprev, h',
        Option.bind_eq_bind, Option.bind_some, kInitListHead_eq hok]
      rfl

theorem listDelRange_circles {y : γ} {ys : List γ} (hs : IsCircles ok L s)
    (hh : s h = some (us ++ y :: (ys ++ vs))) :
    ∃ L', listDelRange ok L (.addr y) (.addr (ys.getLastD y)) = some L' ∧
      IsCircles ok L' (Function.update s h (some (us ++ vs))) := by
  have hlive : ∀ z ∈ h :: (us ++ y :: (ys ++ vs)), ok z = true :=
    fun z hz => hs.live z ⟨h, _, hh, hz⟩
  have hsplit : us ++ y :: (ys ++ vs) = (us ++ y :: ys) ++ vs := by simp
  have hr := hs.ring h _ hh
  have hr' : IsRing L h ((us ++ y :: ys) ++ vs) := hsplit ▸ hr
  have hp := hlive _ (IsRing.mem_left us _ h)
  have hq := hlive _ (hsplit ▸ IsRing.mem_right (us ++ y :: ys) vs h)
  have hy := hlive y (by simp)
  have hmem : ys.getLastD y ∈ y :: ys := List.getLastD_mem_cons
  have hl : ok (ys.getLastD y) = true := by
    refine hlive _ (List.mem_cons_of_mem h (List.mem_append_right us ?_))
    rw [← List.cons_append]
    exact List.mem_append_left vs hmem
  have hlast : (us ++ y :: ys).getLastD h = ys.getLastD y := by simp [List.getLast?_cons]
  have hnext := (hr'.linked_cut (us ++ y :: ys) vs).1
  rw [hlast] at hnext
  have hpl : us.getLastD h ≠ ys.getLastD y := by
    have hnd : (h :: us ++ (y :: ys ++ vs)).Nodup := by simpa using hr.nodup
    exact (List.nodup_append.mp hnd).2.2 _ List.getLastD_mem_cons _ (List.mem_append_left vs hmem)
  have hcut := hs.cut hh
  have hsy : Function.update s h (some (us ++ vs)) y = none := by
    have hhy : y ≠ h := fun e => (List.nodup_cons.mp hr.nodup).1 (by simp [e])
    rw [Function.update_of_ne hhy, hs.name_eq_none hh]
  have hforget := hcut.forget y
  have hout := fun z hz => hcut.not_owns_forget (x := z) (Function.update_self ..) hz
  rw [Circles.forget, Function.update_idem, ← hsy, Function.update_eq_self] at hforget
  rw [Circles.forget, Function.update_idem, ← hsy, Function.update_eq_self] at hout
  refine ⟨⟨Function.update L.next (us.getLastD h) (.addr (vs.headD h)),
    Function.update L.prev (vs.headD h) (.addr (us.getLastD h))⟩, ?_,
    hforget.congr fun z hz => ?_⟩
  · simp only [listDelRange, Links.loadPrev_addr _ hy, hr.prev_mid, Links.loadNext_addr _ hl,
      hnext, Links.storeNext_addr _ hp, Function.update_of_ne hpl.symm,
      Links.storePrev_addr _ hq, Option.bind_eq_bind, Option.bind_some]
  · have hzy : z ≠ y := fun e => hout y (by simp) (e ▸ hz)
    have hzl : z ≠ ys.getLastD y := fun e => hout _ hmem (e ▸ hz)
    simp only [Links.exchange_next_apply, Links.exchange_prev_apply, Function.update_apply,
      if_neg hzy, if_neg hzl, and_self]

end
end KernelHashtable.KList
