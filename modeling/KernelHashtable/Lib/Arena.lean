import Mathlib.Logic.Function.Basic
import Mathlib.Tactic.Common

/-!
# An allocator that hands out addresses again

A request comes with the address that it is answered with, 0 for a request that fails,
so that a run can say at which addresses its blocks lie. It is defined when that address
is 0 or not in use. Null may be freed; any other address must be live. A `realloc` that fails
keeps the old block; one to the size 0 that is answered with null has freed it, as in glibc.
-/

namespace KernelHashtable

structure Arena where
  live : ℕ → Bool
  size : ℕ → ℕ
  granted : ℕ

namespace Arena

def hold (h : Arena) (a n : ℕ) : Arena :=
  ⟨Function.update h.live a true, Function.update h.size a n, h.granted + 1⟩

def drop (h : Arena) (a : ℕ) : Arena := { h with live := Function.update h.live a false }

def malloc (h : Arena) (a n : ℕ) : Option Arena :=
  if a = 0 then some h else if h.live a then none else some (h.hold a n)

def free (h : Arena) (a : ℕ) : Option Arena :=
  if a = 0 then some h else if h.live a then some (h.drop a) else none

def realloc (h : Arena) (old a n : ℕ) : Option Arena :=
  if a = 0 ∧ n ≠ 0 then if old = 0 ∨ h.live old = true then some h else none
  else do
    let h ← h.free old
    h.malloc a n

variable {h : Arena} {a b n : ℕ}

theorem malloc_ok (ha : a ≠ 0) (hl : h.live a = false) : h.malloc a n = some (h.hold a n) := by
  simp [malloc, ha, hl]

theorem malloc_cases {h' : Arena} (hm : h.malloc a n = some h') :
    a = 0 ∧ h' = h ∨ a ≠ 0 ∧ h.live a = false ∧ h' = h.hold a n := by
  rw [malloc] at hm
  split_ifs at hm with ha hl
  · exact Or.inl ⟨ha, (Option.some.inj hm).symm⟩
  · exact Or.inr ⟨ha, by simpa using hl, (Option.some.inj hm).symm⟩

theorem free_ok (ha : a ≠ 0) (hl : h.live a = true) : h.free a = some (h.drop a) := by
  simp [free, ha, hl]

theorem realloc_ok {h' : Arena} (ha : a ≠ 0) (hf : h.free b = some h')
    (hl : h'.live a = false) : h.realloc b a n = some (h'.hold a n) := by
  simp [realloc, ha, hf, malloc_ok ha hl]

@[simp] theorem hold_granted (h : Arena) (a n : ℕ) : (h.hold a n).granted = h.granted + 1 := rfl

@[simp] theorem drop_granted (h : Arena) (a : ℕ) : (h.drop a).granted = h.granted := rfl

@[simp] theorem hold_live (h : Arena) (a n c : ℕ) :
    (h.hold a n).live c = (h.live c || decide (c = a)) := by
  by_cases hc : c = a
  · simp [hold, hc]
  · simp [hold, hc]

@[simp] theorem drop_live (h : Arena) (a c : ℕ) :
    (h.drop a).live c = (h.live c && decide (c ≠ a)) := by
  by_cases hc : c = a
  · simp [drop, hc]
  · simp [drop, hc]

end Arena
end KernelHashtable
