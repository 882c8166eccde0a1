import KernelHashtable.Lib.Pointer
import Mathlib.Data.List.Nodup

/-!
# Null-terminated chains whose nodes point back at the cell that points to them

A forest of singly linked chains hangs off the head cells `first b`. Every node
stores, besides its `next` field, the address of the cell that holds its own
address: a head cell or the `next` field of its predecessor. `Threads M c xs`
says that the chain starting in cell `c` visits `xs` and that all back pointers
agree; `IsTable` says so of every head at once, with no node in two places. The
rules push a node at a head and pull a node out knowing only the node.
-/

namespace KernelHashtable

inductive Cell (β α : Type*) where
  | first (b : β)
  | next (a : α)
  deriving DecidableEq

structure Buckets (β α : Type*) where
  first : β → Ptr α
  next : α → Ptr α
  pprev : α → Ptr (Cell β α)

namespace Buckets
variable {β α : Type*}

def get (M : Buckets β α) : Cell β α → Ptr α
  | .first b => M.first b
  | .next a => M.next a

theorem get_first (M : Buckets β α) (b : β) : M.get (.first b) = M.first b := rfl

theorem get_next (M : Buckets β α) (a : α) : M.get (.next a) = M.next a := rfl

def set [DecidableEq β] [DecidableEq α] (M : Buckets β α) (c : Cell β α) (v : Ptr α) :
    Buckets β α :=
  match c with
  | .first b => { M with first := Function.update M.first b v }
  | .next a => { M with next := Function.update M.next a v }

def setPprev [DecidableEq α] (M : Buckets β α) (a : α) (v : Ptr (Cell β α)) : Buckets β α :=
  { M with pprev := Function.update M.pprev a v }

section
variable [DecidableEq β] [DecidableEq α] (M : Buckets β α)

@[simp] theorem get_set_self (c : Cell β α) (v : Ptr α) : (M.set c v).get c = v := by
  cases c <;> simp [set, get]

theorem get_set_of_ne {c d : Cell β α} (h : d ≠ c) (v : Ptr α) :
    (M.set c v).get d = M.get d := by
  cases c <;> cases d <;> simp_all [set, get]

@[simp] theorem pprev_set (c : Cell β α) (v : Ptr α) : (M.set c v).pprev = M.pprev := by
  cases c <;> rfl

omit [DecidableEq β] in
@[simp] theorem get_setPprev (a : α) (v : Ptr (Cell β α)) (c : Cell β α) :
    (M.setPprev a v).get c = M.get c := by
  cases c <;> rfl

omit [DecidableEq β] in
@[simp] theorem pprev_setPprev_self (a : α) (v : Ptr (Cell β α)) :
    (M.setPprev a v).pprev a = v := by
  simp [setPprev]

omit [DecidableEq β] in
theorem pprev_setPprev_of_ne {a b : α} (h : b ≠ a) (v : Ptr (Cell β α)) :
    (M.setPprev a v).pprev b = M.pprev b := by
  simp [setPprev, h]

end
end Buckets

def Threads {β α : Type*} (M : Buckets β α) : Cell β α → List α → Prop
  | c, [] => M.get c = .null
  | c, x :: xs => M.get c = .addr x ∧ M.pprev x = .addr c ∧ Threads M (.next x) xs

def headPtr {α : Type*} : List α → Ptr α
  | [] => .null
  | x :: _ => .addr x

structure Pushed {β α : Type*} (M M' : Buckets β α) (c : Cell β α) (n : α) : Prop where
  get_cell : M'.get c = .addr n
  next_new : M'.next n = M.get c
  pprev_new : M'.pprev n = .addr c
  pprev_old : ∀ x, M.get c = .addr x → M'.pprev x = .addr (.next n)
  get_other : ∀ d, d ≠ c → d ≠ .next n → M'.get d = M.get d
  pprev_other : ∀ x, x ≠ n → M.get c ≠ .addr x → M'.pprev x = M.pprev x

structure Pulled {β α : Type*} (M M' : Buckets β α) (c : Cell β α) (n : α) : Prop where
  get_cell : M'.get c = M.next n
  pprev_next : ∀ y, M.next n = .addr y → M'.pprev y = .addr c
  get_other : ∀ d, d ≠ c → d ≠ .next n → M'.get d = M.get d
  pprev_other : ∀ y, y ≠ n → M.next n ≠ .addr y → M'.pprev y = M.pprev y

theorem Pulled.overwrite {β α : Type*} [DecidableEq β] [DecidableEq α] {M M' : Buckets β α}
    {c : Cell β α} {n : α} (hp : Pulled M M' c n) (hcn : c ≠ .next n)
    (hyn : M.next n ≠ .addr n) (v : Ptr α) (w : Ptr (Cell β α)) :
    Pulled M ((M'.set (.next n) v).setPprev n w) c n := by
  constructor
  · simp [Buckets.get_set_of_ne _ hcn, hp.get_cell]
  · intro y hy
    have hne : y ≠ n := fun e => hyn (e ▸ hy)
    simp [Buckets.pprev_setPprev_of_ne _ hne, hp.pprev_next y hy]
  · intro e he hen
    simp [Buckets.get_set_of_ne _ hen, hp.get_other e he hen]
  · intro y hy hyf
    simp [Buckets.pprev_setPprev_of_ne _ hy, hp.pprev_other y hy hyf]

namespace Threads
variable {β α : Type*} {M M' : Buckets β α} {c : Cell β α} {n : α} {xs us vs : List α}

theorem congr (ht : Threads M c xs) (hc : M'.get c = M.get c)
    (hx : ∀ x ∈ xs, M'.next x = M.next x ∧ M'.pprev x = M.pprev x) : Threads M' c xs := by
  induction xs generalizing c with
  | nil => exact hc.trans ht
  | cons x xs ih =>
    refine ⟨hc.trans ht.1, (hx x (by simp)).2.trans ht.2.1, ih ht.2.2 (hx x (by simp)).1 ?_⟩
    intro y hy
    exact hx y (List.mem_cons_of_mem x hy)

theorem get_ne_poison (ht : Threads M c xs) (k : ℕ) : M.get c ≠ .poison k := by
  cases xs with
  | nil =>
    have hn : M.get c = .null := ht
    simp [hn]
  | cons x xs => simp [ht.1]

theorem mem_of_get (ht : Threads M c xs) {y : α} (hy : M.get c = .addr y) : y ∈ xs := by
  cases xs with
  | nil =>
    have hn : M.get c = .null := ht
    rw [hy] at hn
    cases hn
  | cons x xs =>
    have he := ht.1
    rw [hy] at he
    cases he
    simp

theorem get_eq (ht : Threads M c xs) : M.get c = headPtr xs := by
  cases xs with
  | nil => exact ht
  | cons x xs => exact ht.1

theorem unique {ys : List α} (hx : Threads M c xs) (hy : Threads M c ys) : xs = ys := by
  induction xs generalizing c ys with
  | nil =>
    have hnull : M.get c = .null := hx
    cases ys with
    | nil => rfl
    | cons y ys =>
      have hy₁ := hy.1
      rw [hnull] at hy₁
      cases hy₁
  | cons x xs ih =>
    cases ys with
    | nil =>
      have hnull : M.get c = .null := hy
      have hx₁ := hx.1
      rw [hnull] at hx₁
      cases hx₁
    | cons y ys =>
      obtain rfl : x = y := Ptr.addr.inj (hx.1.symm.trans hy.1)
      rw [ih hx.2.2 hy.2.2]

theorem push (ht : Threads M c xs) (hn : n ∉ xs) (hnd : xs.Nodup)
    (hc : ∀ x ∈ n :: xs, c ≠ .next x) (hp : Pushed M M' c n) : Threads M' c (n :: xs) := by
  refine ⟨hp.get_cell, hp.pprev_new, ?_⟩
  cases xs with
  | nil => exact hp.next_new.trans ht
  | cons x xs =>
    refine ⟨hp.next_new.trans ht.1, hp.pprev_old x ht.1, ?_⟩
    have hne : ∀ y ∈ x :: xs, y ≠ n := fun y hy e => hn (e ▸ hy)
    have hcell : ∀ y ∈ x :: xs, M'.next y = M.next y := fun y hy =>
      hp.get_other (.next y) (fun e => hc y (List.mem_cons_of_mem n hy) e.symm)
        (fun e => hne y hy (Cell.next.inj e))
    apply ht.2.2.congr (hcell x (by simp))
    intro y hy
    refine ⟨hcell y (List.mem_cons_of_mem x hy), ?_⟩
    apply hp.pprev_other y (hne y (List.mem_cons_of_mem x hy))
    intro e
    have hxy : x = y := Ptr.addr.inj (ht.1.symm.trans e)
    exact (List.nodup_cons.mp hnd).1 (hxy ▸ hy)

theorem mid (ht : Threads M c (us ++ n :: vs)) :
    ∃ d, M.pprev n = .addr d ∧ M.get d = .addr n ∧ Threads M (.next n) vs ∧
      (us = [] ∧ d = c ∨ ∃ u ∈ us, d = .next u) := by
  induction us generalizing c with
  | nil => exact ⟨c, ht.2.1, ht.1, ht.2.2, Or.inl ⟨rfl, rfl⟩⟩
  | cons u us ih =>
    obtain ⟨d, hp, hg, hv, hd⟩ := ih ht.2.2
    refine ⟨d, hp, hg, hv, Or.inr ?_⟩
    rcases hd with ⟨-, rfl⟩ | ⟨w, hw, rfl⟩
    · exact ⟨u, by simp, rfl⟩
    · exact ⟨w, List.mem_cons_of_mem u hw, rfl⟩

theorem pull {d : Cell β α} (ht : Threads M c (us ++ n :: vs)) (hnd : (us ++ n :: vs).Nodup)
    (hc : ∀ x ∈ us ++ n :: vs, c ≠ .next x) (hd : M.pprev n = .addr d)
    (hp : Pulled M M' d n) : Threads M' c (us ++ vs) := by
  induction us generalizing c with
  | nil =>
    have hdc : d = c := Ptr.addr.inj (hd.symm.trans ht.2.1)
    subst hdc
    cases vs with
    | nil => exact hp.get_cell.trans ht.2.2
    | cons y vs =>
      have hn : M.next n = .addr y := ht.2.2.1
      refine ⟨hp.get_cell.trans hn, hp.pprev_next y hn, ?_⟩
      have hne : ∀ z ∈ y :: vs, z ≠ n := fun z hz e =>
        (List.nodup_cons.mp hnd).1 (e ▸ hz)
      have hcell : ∀ z ∈ y :: vs, M'.next z = M.next z := fun z hz =>
        hp.get_other (.next z) (fun e => hc z (List.mem_cons_of_mem n hz) e.symm)
          (fun e => hne z hz (Cell.next.inj e))
      apply ht.2.2.2.2.congr (hcell y (by simp))
      intro z hz
      refine ⟨hcell z (List.mem_cons_of_mem y hz), ?_⟩
      apply hp.pprev_other z (hne z (List.mem_cons_of_mem y hz))
      intro e
      have hyz : y = z := Ptr.addr.inj (hn.symm.trans e)
      have hnd' := (List.nodup_cons.mp hnd).2
      exact (List.nodup_cons.mp hnd').1 (hyz ▸ hz)
  | cons u us ih =>
    obtain ⟨e, he, -, hv, hw⟩ := mid ht
    have hde : d = e := Ptr.addr.inj (hd.symm.trans he)
    subst hde
    have hmem : ∃ w ∈ u :: us, d = .next w := by
      rcases hw with ⟨h, -⟩ | hw
      · cases h
      · exact hw
    obtain ⟨w, hwu, rfl⟩ := hmem
    obtain ⟨hu, hnd'⟩ := List.nodup_cons.mp hnd
    have hun : u ≠ n := fun e => hu (by simp [e])
    have hkeep : M'.get c = M.get c := by
      refine hp.get_other c (hc w ?_) (hc n (by simp))
      rw [List.cons_append]
      exact List.mem_append_left _ hwu
    refine ⟨hkeep.trans ht.1, ?_, ih ht.2.2 hnd' ?_ ⟩
    · refine (hp.pprev_other u hun fun e => hu ?_).trans ht.2.1
      exact List.mem_append_right us (List.mem_cons_of_mem n (hv.mem_of_get e))
    · intro x hx e
      exact hu (Cell.next.inj e ▸ hx)

end Threads

def lastCell {β α : Type*} (c : Cell β α) (us : List α) : Cell β α := us.getLast?.elim c .next

theorem lastCell_cases {β α : Type*} (c : Cell β α) (us : List α) :
    lastCell c us = c ∨ ∃ w ∈ us, lastCell c us = .next w := by
  rcases List.eq_nil_or_concat' us with rfl | ⟨vs, w, rfl⟩
  · exact Or.inl rfl
  · exact Or.inr ⟨w, by simp, by simp [lastCell]⟩

theorem lastCell_cons {β α : Type*} (c : Cell β α) (u : α) (us : List α) :
    lastCell c (u :: us) = lastCell (.next u) us := by
  rcases List.eq_nil_or_concat' us with rfl | ⟨vs, w, rfl⟩
  · rfl
  · simp [lastCell, List.getLast?_cons]

theorem mem_of_headPtr {α : Type*} {vs : List α} {x : α} (h : headPtr vs = .addr x) : x ∈ vs := by
  cases vs with
  | nil => cases h
  | cons v vs =>
    obtain rfl := Ptr.addr.inj h
    simp

namespace Threads
variable {β α : Type*} {M M' : Buckets β α} {c : Cell β α} {n : α} {us vs : List α}

theorem get_last (ht : Threads M c (us ++ vs)) : M.get (lastCell c us) = headPtr vs := by
  induction us generalizing c with
  | nil => exact ht.get_eq
  | cons u us ih =>
    rw [lastCell_cons]
    exact ih ht.2.2

theorem pprev_last (ht : Threads M c (us ++ n :: vs)) : M.pprev n = .addr (lastCell c us) := by
  induction us generalizing c with
  | nil => exact ht.2.1
  | cons u us ih =>
    rw [lastCell_cons]
    exact ih ht.2.2

theorem insert (ht : Threads M c (us ++ vs)) (hn : n ∉ us ++ vs) (hnd : (us ++ vs).Nodup)
    (hc : ∀ x ∈ n :: (us ++ vs), c ≠ .next x) (hp : Pushed M M' (lastCell c us) n) :
    Threads M' c (us ++ n :: vs) := by
  induction us generalizing c with
  | nil => exact ht.push hn hnd hc hp
  | cons u us ih =>
    obtain ⟨hu, hnd'⟩ := List.nodup_cons.mp hnd
    have hun : u ≠ n := fun e => hn (by simp [e])
    have hnr : n ∉ us ++ vs := fun h => hn (List.mem_cons_of_mem u h)
    have hlast : c ≠ lastCell c (u :: us) := by
      rw [lastCell_cons]
      rcases lastCell_cases (.next u) us with he | ⟨w, hw, he⟩
      · rw [he]
        exact hc u (by simp)
      · rw [he]
        exact hc w (by simp [hw])
    refine ⟨(hp.get_other c hlast (hc n (by simp))).trans ht.1,
      (hp.pprev_other u hun fun e => hu ?_).trans ht.2.1, ih ht.2.2 hnr hnd' ?_ ?_⟩
    · rw [ht.get_last] at e
      exact List.mem_append_right us (mem_of_headPtr e)
    · intro x hx e
      obtain rfl : u = x := Cell.next.inj e
      rcases List.mem_cons.mp hx with rfl | hx
      · exact hun rfl
      · exact hu hx
    · rwa [← lastCell_cons c u us]

end Threads

structure IsTable {β α : Type*} (D : β → Prop) (M : Buckets β α) (bkt : β → List α) :
    Prop where
  threads : ∀ b, D b → Threads M (.first b) (bkt b)
  nodup : ∀ b, (bkt b).Nodup
  disjoint : ∀ b b' x, x ∈ bkt b → x ∈ bkt b' → b = b'

namespace IsTable
variable {β α : Type*} {D : β → Prop} {M M' : Buckets β α} {bkt : β → List α} {b : β} {n : α}

theorem nodup_flatMap (ht : IsTable D M bkt) {bs : List β} (hbs : bs.Nodup) :
    (bs.flatMap bkt).Nodup := by
  refine List.nodup_flatMap.mpr ⟨fun b _ => ht.nodup b, hbs.imp fun {b c} hbc x hxb hxc => ?_⟩
  exact hbc (ht.disjoint b c x hxb hxc)

theorem congr (ht : IsTable D M bkt) (hfirst : M'.first = M.first)
    (hx : ∀ b, ∀ x ∈ bkt b, M'.next x = M.next x ∧ M'.pprev x = M.pprev x) :
    IsTable D M' bkt := by
  refine ⟨fun b hb => (ht.threads b hb).congr ?_ (hx b), ht.nodup, ht.disjoint⟩
  exact congrFun hfirst b

theorem mem_update_iff [DecidableEq β] {us vs : List α} (ht : IsTable D M bkt)
    (hu : bkt b = us ++ n :: vs) {c : β} {x : α} :
    x ∈ Function.update bkt b (us ++ vs) c ↔ x ∈ bkt c ∧ x ≠ n := by
  have hnb : n ∈ bkt b := by simp [hu]
  by_cases hc : c = b
  · subst hc
    have hnd : (n :: (us ++ vs)).Nodup := List.perm_middle.nodup_iff.mp (hu ▸ ht.nodup c)
    rw [Function.update_self, hu, List.perm_middle.mem_iff, List.mem_cons]
    constructor
    · intro hx
      exact ⟨Or.inr hx, fun e => (List.nodup_cons.mp hnd).1 (e ▸ hx)⟩
    · intro hx
      exact hx.1.resolve_left hx.2
  · rw [Function.update_of_ne hc]
    constructor
    · intro hx
      exact ⟨hx, fun e => hc (ht.disjoint c b x hx (e ▸ hnb))⟩
    · intro hx
      exact hx.1

theorem push [DecidableEq β] (ht : IsTable D M bkt) (hb : D b) (hn : ∀ b', n ∉ bkt b')
    (hp : Pushed M M' (.first b) n) : IsTable D M' (Function.update bkt b (n :: bkt b)) := by
  constructor
  · intro b' hb'
    by_cases h : b' = b
    · subst h
      rw [Function.update_self]
      exact (ht.threads b' hb).push (hn b') (ht.nodup b') (by simp) hp
    · rw [Function.update_of_ne h]
      apply (ht.threads b' hb').congr (hp.get_other _ (by simpa using h) (by simp))
      intro x hx
      have hxn : x ≠ n := fun e => hn b' (e ▸ hx)
      refine ⟨hp.get_other (.next x) (by simp) (by simpa using hxn), hp.pprev_other x hxn ?_⟩
      intro e
      exact h (ht.disjoint b' b x hx ((ht.threads b hb).mem_of_get e))
  · intro b'
    by_cases h : b' = b
    · subst h
      rw [Function.update_self]
      exact List.nodup_cons.mpr ⟨hn b', ht.nodup b'⟩
    · rw [Function.update_of_ne h]
      exact ht.nodup b'
  · intro b₁ b₂ x h₁ h₂
    have hback : ∀ b', x ∈ Function.update bkt b (n :: bkt b) b' →
        (x = n ∧ b' = b) ∨ (x ≠ n ∧ x ∈ bkt b') := by
      intro b' hx
      by_cases h : b' = b
      · subst h
        rw [Function.update_self] at hx
        rcases List.mem_cons.mp hx with e | hx
        · exact Or.inl ⟨e, rfl⟩
        · exact Or.inr ⟨fun e => hn b' (e ▸ hx), hx⟩
      · rw [Function.update_of_ne h] at hx
        exact Or.inr ⟨fun e => hn b' (e ▸ hx), hx⟩
    rcases hback b₁ h₁ with ⟨e₁, k₁⟩ | ⟨e₁, k₁⟩ <;> rcases hback b₂ h₂ with ⟨e₂, k₂⟩ | ⟨e₂, k₂⟩
    · exact k₁.trans k₂.symm
    · exact absurd e₁ e₂
    · exact absurd e₂ e₁
    · exact ht.disjoint b₁ b₂ x k₁ k₂

theorem pull [DecidableEq β] {us vs : List α} {d : Cell β α} (ht : IsTable D M bkt)
    (hb : D b) (hu : bkt b = us ++ n :: vs) (hd : M.pprev n = .addr d)
    (hp : Pulled M M' d n) : IsTable D M' (Function.update bkt b (us ++ vs)) := by
  have hbt : Threads M (.first b) (us ++ n :: vs) := hu ▸ ht.threads b hb
  have hsub : (us ++ vs).Sublist (bkt b) := by
    rw [hu]
    exact List.Sublist.append_left (List.sublist_cons_self n vs) us
  have hback : ∀ b' x, x ∈ Function.update bkt b (us ++ vs) b' → x ∈ bkt b' := fun b' x hx =>
    ((ht.mem_update_iff hu).mp hx).1
  constructor
  · intro b' hb'
    by_cases h : b' = b
    · subst h
      rw [Function.update_self]
      exact hbt.pull (hu ▸ ht.nodup b') (by simp) hd hp
    · rw [Function.update_of_ne h]
      have hout : ∀ x ∈ bkt b', x ∉ us ++ n :: vs := fun x hx hx' =>
        h (ht.disjoint b' b x hx (hu ▸ hx'))
      obtain ⟨e, he, -, hv, hw⟩ := Threads.mid hbt
      have hde : d = e := Ptr.addr.inj (hd.symm.trans he)
      subst hde
      have hdb : (.first b' : Cell β α) ≠ d ∧ ∀ x ∈ bkt b', (.next x : Cell β α) ≠ d := by
        rcases hw with ⟨-, rfl⟩ | ⟨w, hw, rfl⟩
        · exact ⟨by simpa using h, by simp⟩
        · refine ⟨by simp, fun x hx e => hout x hx ?_⟩
          exact List.mem_append_left _ (Cell.next.inj e ▸ hw)
      apply (ht.threads b' hb').congr (hp.get_other _ hdb.1 (by simp))
      intro x hx
      have hxn : x ≠ n := fun e => hout x hx (by simp [e])
      refine ⟨hp.get_other (.next x) (hdb.2 x hx) (by simpa using hxn),
        hp.pprev_other x hxn fun e => ?_⟩
      exact hout x hx (List.mem_append_right us (List.mem_cons_of_mem n (hv.mem_of_get e)))
  · intro b'
    by_cases h : b' = b
    · subst h
      rw [Function.update_self]
      exact (ht.nodup b').sublist hsub
    · rw [Function.update_of_ne h]
      exact ht.nodup b'
  · intro b₁ b₂ x h₁ h₂
    exact ht.disjoint b₁ b₂ x (hback b₁ x h₁) (hback b₂ x h₂)

theorem replace [DecidableEq β] {D' : β → Prop} {ys : List α} (ht : IsTable D M bkt)
    (hys : Threads M' (.first b) ys) (hnd : ys.Nodup)
    (hout : ∀ b', b' ≠ b → ∀ x ∈ ys, x ∉ bkt b')
    (hfirst : ∀ b', b' ≠ b → D' b' → D b' ∧ M'.first b' = M.first b')
    (hx : ∀ b', b' ≠ b → ∀ x ∈ bkt b', M'.next x = M.next x ∧ M'.pprev x = M.pprev x) :
    IsTable D' M' (Function.update bkt b ys) := by
  constructor
  · intro b' hb'
    obtain rfl | hne := eq_or_ne b' b
    · rwa [Function.update_self]
    · rw [Function.update_of_ne hne]
      obtain ⟨hD, hsame⟩ := hfirst b' hne hb'
      exact (ht.threads b' hD).congr hsame (hx b' hne)
  · intro b'
    obtain rfl | hne := eq_or_ne b' b
    · rwa [Function.update_self]
    · rw [Function.update_of_ne hne]
      exact ht.nodup b'
  · intro b₁ b₂ x h₁ h₂
    obtain rfl | hne₁ := eq_or_ne b₁ b <;> obtain rfl | hne₂ := eq_or_ne b₂ b₁
    · rfl
    · rw [Function.update_self] at h₁
      rw [Function.update_of_ne hne₂] at h₂
      exact absurd h₂ (hout b₂ hne₂ x h₁)
    · rfl
    · rw [Function.update_of_ne hne₁] at h₁
      obtain rfl | hne₃ := eq_or_ne b₂ b
      · rw [Function.update_self] at h₂
        exact absurd h₁ (hout b₁ hne₁ x h₂)
      · rw [Function.update_of_ne hne₃] at h₂
        exact ht.disjoint b₁ b₂ x h₁ h₂

theorem insert [DecidableEq β] {us vs : List α} (ht : IsTable D M bkt) (hb : D b)
    (hu : bkt b = us ++ vs) (hn : ∀ b', n ∉ bkt b')
    (hp : Pushed M M' (lastCell (.first b) us) n) :
    IsTable D M' (Function.update bkt b (us ++ n :: vs)) := by
  have hbt : Threads M (.first b) (us ++ vs) := hu ▸ ht.threads b hb
  have hnd : (us ++ vs).Nodup := hu ▸ ht.nodup b
  have hnb : n ∉ us ++ vs := hu ▸ hn b
  have hout : ∀ b', b' ≠ b → ∀ x ∈ bkt b', x ∉ us ++ vs := fun b' hne x hx hx' =>
    hne (ht.disjoint b' b x hx (hu ▸ hx'))
  refine ht.replace (hbt.insert hnb hnd (by simp) hp)
    (List.perm_middle.nodup_iff.mpr (List.nodup_cons.mpr ⟨hnb, hnd⟩)) (fun b' hne x hx hx' => ?_)
    (fun b' hne hD => ⟨hD, hp.get_other (.first b') ?_ (by simp)⟩) fun b' hne x hx => ⟨?_, ?_⟩
  · rcases List.mem_cons.mp (List.perm_middle.mem_iff.mp hx) with rfl | hx
    · exact hn b' hx'
    · exact hout b' hne x hx' hx
  · rcases lastCell_cases (.first b) us with he | ⟨w, -, he⟩
    · simpa [he] using hne
    · simp [he]
  · refine hp.get_other (.next x) ?_ (by simpa using fun e : x = n => hn b' (e ▸ hx))
    rcases lastCell_cases (.first b) us with he | ⟨w, hw, he⟩
    · simp [he]
    · intro e
      obtain rfl : x = w := Cell.next.inj (e.trans he)
      exact hout b' hne x hx (List.mem_append_left vs hw)
  · refine hp.pprev_other x (fun e => hn b' (e ▸ hx)) fun e => hout b' hne x hx ?_
    rw [hbt.get_last] at e
    exact List.mem_append_right us (mem_of_headPtr e)

end IsTable
end KernelHashtable
