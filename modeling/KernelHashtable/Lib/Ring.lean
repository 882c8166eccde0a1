import KernelHashtable.Lib.Pointer
import Mathlib.Data.List.Chain
import Mathlib.Data.List.Nodup
import Mathlib.Data.List.Infix

/-!
# Circular doubly linked lists

`Links` is the memory of the two link fields of every node. `IsRing L h xs`
says that the nodes `h :: xs` are distinct and form one circle through the
sentinel `h`, with both directions in agreement. The rules for inserting a node
between two neighbours and for taking a node out are stated for any memory that
differs from the old one in the touched fields only, so that they apply to
every order in which a program may write those fields.
-/

namespace KernelHashtable

structure Links (α : Type*) where
  next : α → Ptr α
  prev : α → Ptr α

namespace Links
variable {α : Type*}

def loadNext (ok : α → Bool) (L : Links α) (p : Ptr α) : Option (Ptr α) :=
  (p.deref ok).map L.next

def loadPrev (ok : α → Bool) (L : Links α) (p : Ptr α) : Option (Ptr α) :=
  (p.deref ok).map L.prev

def storeNext [DecidableEq α] (ok : α → Bool) (L : Links α) (p v : Ptr α) :
    Option (Links α) :=
  (p.deref ok).map fun a => { L with next := Function.update L.next a v }

def storePrev [DecidableEq α] (ok : α → Bool) (L : Links α) (p v : Ptr α) :
    Option (Links α) :=
  (p.deref ok).map fun a => { L with prev := Function.update L.prev a v }

section
variable {ok : α → Bool} (L : Links α) {a : α} (h : ok a = true) (v : Ptr α)
include h

theorem loadNext_addr : L.loadNext ok (.addr a) = some (L.next a) := by
  simp [loadNext, Ptr.deref_addr h]

theorem loadPrev_addr : L.loadPrev ok (.addr a) = some (L.prev a) := by
  simp [loadPrev, Ptr.deref_addr h]

theorem storeNext_addr [DecidableEq α] :
    L.storeNext ok (.addr a) v = some { L with next := Function.update L.next a v } := by
  simp [storeNext, Ptr.deref_addr h]

theorem storePrev_addr [DecidableEq α] :
    L.storePrev ok (.addr a) v = some { L with prev := Function.update L.prev a v } := by
  simp [storePrev, Ptr.deref_addr h]

end

def Linked (L : Links α) (a b : α) : Prop := L.next a = .addr b ∧ L.prev b = .addr a

def swap (L : Links α) : Links α := ⟨L.prev, L.next⟩

/-- The walk along one link field: the nodes met before the sentinel `h` is
reached again. It fails on a pointer that cannot be followed and when the fuel
runs out. -/
def walk [DecidableEq α] (ok : α → Bool) (step : α → Ptr α) (h : α) :
    ℕ → Ptr α → Option (List α)
  | 0, _ => none
  | fuel + 1, .addr a =>
    if a = h then some [] else
      if ok a then (walk ok step h fuel (step a)).map (a :: ·) else none
  | _ + 1, _ => none

end Links

structure IsRing {α : Type*} (L : Links α) (h : α) (xs : List α) : Prop where
  chain : List.IsChain L.Linked (h :: xs ++ [h])
  nodup : (h :: xs).Nodup

structure Inserted {α : Type*} (L L' : Links α) (p n q : α) : Prop where
  next_left : L'.next p = .addr n
  next_new : L'.next n = .addr q
  prev_new : L'.prev n = .addr p
  prev_right : L'.prev q = .addr n
  next_other : ∀ x, x ≠ p → x ≠ n → L'.next x = L.next x
  prev_other : ∀ x, x ≠ q → x ≠ n → L'.prev x = L.prev x

structure Removed {α : Type*} (L L' : Links α) (p n q : α) : Prop where
  next_left : L'.next p = .addr q
  prev_right : L'.prev q = .addr p
  next_other : ∀ x, x ≠ p → x ≠ n → L'.next x = L.next x
  prev_other : ∀ x, x ≠ q → x ≠ n → L'.prev x = L.prev x

namespace IsRing
variable {α : Type*} {L L' : Links α} {h n : α} {xs us vs : List α}

theorem isChain_imp_ends {R S : α → α → Prop} {l : List α}
    (H : ∀ a ∈ l.dropLast, ∀ b ∈ l.tail, R a b → S a b) (hl : List.IsChain R l) :
    List.IsChain S l := by
  induction hl with
  | nil => exact .nil
  | singleton a => exact .singleton a
  | @cons_cons a b l hab _ ih =>
    refine .cons_cons (H a (by simp) b (by simp) hab) (ih fun x hx y hy hxy => ?_)
    refine H x ?_ y ?_ hxy
    · rw [List.dropLast_cons_of_ne_nil (by simp)]
      exact List.mem_cons_of_mem _ hx
    · exact List.mem_of_mem_tail hy

theorem cons_eq_concat_getLastD (a : α) (l : List α) : ∃ A, a :: l = A ++ [l.getLastD a] := by
  refine ⟨(a :: l).dropLast, ?_⟩
  conv_lhs => rw [← List.dropLast_append_getLast (List.cons_ne_nil a l)]
  rw [List.getLast_eq_getLastD]

theorem concat_eq_cons_headD (a : α) (l : List α) : ∃ B, l ++ [a] = l.headD a :: B := by
  cases l with
  | nil => exact ⟨[], rfl⟩
  | cons b l => exact ⟨l ++ [a], rfl⟩

theorem headD_mem (a : α) (l : List α) : l.headD a ∈ a :: l := by
  cases l with
  | nil => simp
  | cons b l => simp

theorem nil_iff : IsRing L h [] ↔ L.next h = .addr h ∧ L.prev h = .addr h := by
  constructor
  · intro hr
    simpa [Links.Linked] using hr.chain
  · intro hl
    exact ⟨by simpa [Links.Linked] using hl, by simp⟩

theorem swap (hr : IsRing L h xs) : IsRing L.swap h xs.reverse := by
  constructor
  · have hc : List.IsChain (fun a b => L.Linked b a) (h :: xs ++ [h]).reverse :=
      List.isChain_reverse.mpr hr.chain
    have he : (h :: xs ++ [h]).reverse = h :: xs.reverse ++ [h] := by simp
    rw [he] at hc
    exact hc.imp fun a b hab => ⟨hab.2, hab.1⟩
  · have hn := hr.nodup
    simp only [List.nodup_cons, List.mem_reverse, List.nodup_reverse] at hn ⊢
    exact hn

theorem arc_cut_iff (us vs : List α) (a b : α) : List.IsChain L.Linked (a :: (us ++ vs) ++ [b]) ↔
    List.IsChain L.Linked (a :: us) ∧ L.Linked (us.getLastD a) (vs.headD b) ∧
      List.IsChain L.Linked (vs ++ [b]) := by
  obtain ⟨A, hA⟩ := cons_eq_concat_getLastD a us
  obtain ⟨B, hB⟩ := concat_eq_cons_headD b vs
  rw [← List.cons_append, List.append_assoc, hA, hB, List.append_assoc]
  exact List.isChain_append_cons_cons

theorem chain_cut_iff (us vs : List α) (h : α) : List.IsChain L.Linked (h :: (us ++ vs) ++ [h]) ↔
    List.IsChain L.Linked (h :: us) ∧ L.Linked (us.getLastD h) (vs.headD h) ∧
      List.IsChain L.Linked (vs ++ [h]) :=
  arc_cut_iff us vs h h

theorem linked_cut (us vs : List α) (hr : IsRing L h (us ++ vs)) :
    L.Linked (us.getLastD h) (vs.headD h) :=
  ((chain_cut_iff us vs h).mp hr.chain).2.1

theorem next_head (hr : IsRing L h xs) : L.next h = .addr (xs.headD h) :=
  (linked_cut [] xs hr).1

theorem prev_head (hr : IsRing L h xs) : L.prev h = .addr (xs.getLastD h) :=
  (linked_cut xs [] (by simpa using hr)).2

theorem prev_mid (hr : IsRing L h (us ++ n :: vs)) : L.prev n = .addr (us.getLastD h) :=
  (linked_cut us (n :: vs) hr).2

theorem next_mid (hr : IsRing L h (us ++ n :: vs)) : L.next n = .addr (vs.headD h) := by
  have hr' : IsRing L h ((us ++ [n]) ++ vs) := by simpa using hr
  simpa using (linked_cut (us ++ [n]) vs hr').1

theorem chain_left {p q : α} (hn : (h :: (us ++ vs)).Nodup) (hp : p = us.getLastD h)
    (hq : q = vs.headD h) (hnus : n ∉ h :: us)
    (hnext : ∀ x, x ≠ p → x ≠ n → L'.next x = L.next x)
    (hprev : ∀ x, x ≠ q → x ≠ n → L'.prev x = L.prev x)
    (hc : List.IsChain L.Linked (h :: us)) : List.IsChain L'.Linked (h :: us) := by
  refine isChain_imp_ends (fun a ha b hb hab => ?_) hc
  have hau : a ∈ h :: us := List.mem_of_mem_dropLast ha
  have hbu : b ∈ us := hb
  have hap : a ≠ p := by
    obtain ⟨A, hA⟩ := cons_eq_concat_getLastD h us
    have hnd : (A ++ [us.getLastD h]).Nodup := by
      rw [← hA]
      exact hn.sublist (List.sublist_append_left (h :: us) vs)
    rw [hA, List.dropLast_concat] at ha
    rintro rfl
    rw [hp] at ha
    exact (List.nodup_append.mp hnd).2.2 _ ha _ (by simp) rfl
  have hbq : b ≠ q := by
    rintro rfl
    rcases List.mem_cons.mp (hq ▸ headD_mem h vs) with hbh | hbv
    · exact (List.nodup_cons.mp hn).1 (hbh ▸ List.mem_append_left vs hbu)
    · exact (List.nodup_append.mp (List.nodup_cons.mp hn).2).2.2 _ hbu _ hbv rfl
  have han : a ≠ n := fun e => hnus (e ▸ hau)
  have hbn : b ≠ n := fun e => hnus (e ▸ List.mem_cons_of_mem h hbu)
  exact ⟨(hnext a hap han).trans hab.1, (hprev b hbq hbn).trans hab.2⟩

theorem chain_right {p q : α} (hn : (h :: (us ++ vs)).Nodup) (hp : p = us.getLastD h)
    (hq : q = vs.headD h) (hnvs : n ∉ h :: vs)
    (hnext : ∀ x, x ≠ p → x ≠ n → L'.next x = L.next x)
    (hprev : ∀ x, x ≠ q → x ≠ n → L'.prev x = L.prev x)
    (hc : List.IsChain L.Linked (vs ++ [h])) : List.IsChain L'.Linked (vs ++ [h]) := by
  have hn' : (h :: (vs.reverse ++ us.reverse)).Nodup := by
    rw [← List.reverse_append, List.nodup_cons, List.mem_reverse, List.nodup_reverse]
    exact List.nodup_cons.mp hn
  have hc' : List.IsChain L.swap.Linked (h :: vs.reverse) := by
    rw [show h :: vs.reverse = (vs ++ [h]).reverse by simp, List.isChain_reverse]
    exact hc.imp fun a b hab => ⟨hab.2, hab.1⟩
  have hl : List.IsChain L'.swap.Linked (h :: vs.reverse) :=
    chain_left hn' (p := q) (q := p) (by simp [hq]) (by simp [hp]) (by simpa using hnvs)
      hprev hnext hc'
  rw [show h :: vs.reverse = (vs ++ [h]).reverse by simp, List.isChain_reverse] at hl
  exact hl.imp fun a b hab => ⟨hab.2, hab.1⟩

theorem insert (hr : IsRing L h (us ++ vs)) (hn : n ∉ h :: (us ++ vs))
    (hi : Inserted L L' (us.getLastD h) n (vs.headD h)) : IsRing L' h (us ++ n :: vs) := by
  have hsub : n ∉ h :: us ∧ n ∉ h :: vs := by
    simp only [List.mem_cons, List.mem_append, not_or] at hn ⊢
    exact ⟨⟨hn.1, hn.2.1⟩, hn.1, hn.2.2⟩
  obtain ⟨hcl, -, hcr⟩ := (chain_cut_iff us vs h).mp hr.chain
  constructor
  · refine (chain_cut_iff us (n :: vs) h).mpr ⟨?_, ⟨hi.next_left, hi.prev_new⟩, ?_⟩
    · exact chain_left hr.nodup rfl rfl hsub.1 hi.next_other hi.prev_other hcl
    · obtain ⟨B, hB⟩ := concat_eq_cons_headD h vs
      have hv := chain_right hr.nodup rfl rfl hsub.2 hi.next_other hi.prev_other hcr
      rw [List.cons_append]
      rw [hB] at hv ⊢
      exact .cons_cons ⟨hi.next_new, hi.prev_right⟩ hv
  · have he : (h :: (us ++ n :: vs)).Perm (n :: h :: (us ++ vs)) :=
      (List.perm_middle.cons h).trans (.swap n h _)
    exact he.nodup_iff.mpr (List.nodup_cons.mpr ⟨hn, hr.nodup⟩)

theorem remove (hr : IsRing L h (us ++ n :: vs))
    (hd : Removed L L' (us.getLastD h) n (vs.headD h)) : IsRing L' h (us ++ vs) := by
  have he : (h :: (us ++ n :: vs)).Perm (n :: h :: (us ++ vs)) :=
    (List.perm_middle.cons h).trans (.swap n h _)
  obtain ⟨hn, hnd⟩ := List.nodup_cons.mp (he.nodup_iff.mp hr.nodup)
  have hsub : n ∉ h :: us ∧ n ∉ h :: vs := by
    simp only [List.mem_cons, List.mem_append, not_or] at hn ⊢
    exact ⟨⟨hn.1, hn.2.1⟩, hn.1, hn.2.2⟩
  obtain ⟨hcl, -, hcr⟩ := (chain_cut_iff us (n :: vs) h).mp hr.chain
  refine ⟨(chain_cut_iff us vs h).mpr ⟨?_, ⟨hd.next_left, hd.prev_right⟩, ?_⟩, hnd⟩
  · exact chain_left hnd rfl rfl hsub.1 hd.next_other hd.prev_other hcl
  · rw [List.cons_append] at hcr
    exact chain_right hnd rfl rfl hsub.2 hd.next_other hd.prev_other hcr.tail

theorem congr (hr : IsRing L h xs) (hl : ∀ x ∈ h :: xs, L'.next x = L.next x ∧
    L'.prev x = L.prev x) : IsRing L' h xs := by
  refine ⟨hr.chain.imp_of_mem_imp fun a b ha hb hab => ?_, hr.nodup⟩
  have hmem : ∀ x, x ∈ h :: xs ++ [h] → x ∈ h :: xs := by
    intro x hx
    simpa [or_comm, or_assoc] using hx
  exact ⟨(hl a (hmem a ha)).1.trans hab.1, (hl b (hmem b hb)).2.trans hab.2⟩

section walk
variable [DecidableEq α] {ok : α → Bool}

theorem walk_chain {step : α → Ptr α} (a : α) (l : List α)
    (hc : List.IsChain (fun x y => step x = .addr y) (a :: l ++ [h])) (hh : h ∉ l)
    (hok : ∀ x ∈ l, ok x = true) {fuel : ℕ} (hf : l.length < fuel) :
    Links.walk ok step h fuel (step a) = some l := by
  induction l generalizing a fuel with
  | nil =>
    obtain ⟨f, rfl⟩ : ∃ f, fuel = f + 1 := ⟨fuel - 1, by simp at hf; omega⟩
    have hs : step a = .addr h := by simpa using hc
    simp [Links.walk, hs]
  | cons b l ih =>
    obtain ⟨f, rfl⟩ : ∃ f, fuel = f + 1 := ⟨fuel - 1, by simp at hf; omega⟩
    simp only [List.cons_append, List.isChain_cons_cons] at hc
    simp only [List.mem_cons, not_or] at hh
    have hb : b ≠ h := fun e => hh.1 e.symm
    have hlf : l.length < f := by simp at hf; omega
    have hrec := ih b hc.2 hh.2 (fun x hx => hok x (by simp [hx])) hlf
    simp [Links.walk, hc.1, hb, hok b (by simp), hrec]

theorem walk_next (hr : IsRing L h xs) (hok : ∀ x ∈ xs, ok x = true) {fuel : ℕ}
    (hf : xs.length < fuel) : Links.walk ok L.next h fuel (L.next h) = some xs :=
  walk_chain h xs (hr.chain.imp fun _ _ hab => hab.1) (List.nodup_cons.mp hr.nodup).1 hok hf

theorem walk_prev (hr : IsRing L h xs) (hok : ∀ x ∈ xs, ok x = true) {fuel : ℕ}
    (hf : xs.length < fuel) : Links.walk ok L.prev h fuel (L.prev h) = some xs.reverse :=
  walk_next hr.swap (by simpa using hok) (by simpa using hf)

end walk
end IsRing
end KernelHashtable
