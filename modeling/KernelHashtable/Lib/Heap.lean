import KernelHashtable.Lib.Pointer
import Mathlib.Data.List.Count

/-!
# An allocator with an arbitrary failure pattern and a ledger of frees

Blocks are numbered in the order in which they are handed out and a number is
never handed out twice, so a number stands for one allocation rather than for an
address. `grants i n` decides whether the `i`-th request, for `n` bytes, succeeds.
Every free is recorded. Blocks that belong to someone else are only recorded when
they are freed; their liveness is not tracked.
-/

namespace KernelHashtable

inductive Block where
  | own (b : ℕ)
  | foreign (d : ℕ)
  deriving DecidableEq

structure Heap where
  grants : ℕ → ℕ → Bool
  calls : ℕ
  fresh : ℕ
  live : ℕ → Bool
  size : ℕ → ℕ
  bytes : ℕ → List UInt8
  freed : List Block

namespace Heap

def start (grants : ℕ → ℕ → Bool) : Heap :=
  ⟨grants, 0, 0, fun _ => false, fun _ => 0, fun _ => [], []⟩

def deny (h : Heap) : Heap := { h with calls := h.calls + 1 }

def grant (h : Heap) (n : ℕ) : Heap :=
  { h with
    calls := h.calls + 1
    fresh := h.fresh + 1
    live := Function.update h.live h.fresh true
    size := Function.update h.size h.fresh n }

def malloc (h : Heap) (n : ℕ) : Option ℕ × Heap :=
  if h.grants h.calls n then (some h.fresh, h.grant n) else (none, h.deny)

def release (h : Heap) (b : ℕ) : Heap :=
  { h with live := Function.update h.live b false, freed := .own b :: h.freed }

/-- A free of a block that is not live has no meaning. -/
def free (h : Heap) (b : ℕ) : Option Heap := if h.live b then some (h.release b) else none

/-- The free of a block handed in from outside; freeing null does nothing. -/
def freeForeign (h : Heap) (d : ℕ) : Heap :=
  if d = 0 then h else { h with freed := .foreign d :: h.freed }

def setBytes (h : Heap) (b : ℕ) (bs : List UInt8) : Heap :=
  { h with bytes := Function.update h.bytes b bs }

section
variable {h h' : Heap} {b n d : ℕ}

theorem malloc_grant (hg : h.grants h.calls n = true) :
    h.malloc n = (some h.fresh, h.grant n) := by
  simp [malloc, hg]

theorem malloc_deny (hg : h.grants h.calls n = false) : h.malloc n = (none, h.deny) := by
  simp [malloc, hg]

theorem free_live (hb : h.live b = true) : h.free b = some (h.release b) := by
  simp [free, hb]

@[simp] theorem release_freed (h : Heap) (b : ℕ) :
    (h.release b).freed = .own b :: h.freed := rfl

@[simp] theorem release_fresh (h : Heap) (b : ℕ) : (h.release b).fresh = h.fresh := rfl

@[simp] theorem release_live (h : Heap) (b c : ℕ) :
    (h.release b).live c = (h.live c && decide (c ≠ b)) := by
  by_cases hc : c = b
  · simp [release, hc]
  · simp [release, hc]

@[simp] theorem grant_fresh (h : Heap) (n : ℕ) : (h.grant n).fresh = h.fresh + 1 := rfl

@[simp] theorem grant_grants (h : Heap) (n : ℕ) : (h.grant n).grants = h.grants := rfl

@[simp] theorem grant_calls (h : Heap) (n : ℕ) : (h.grant n).calls = h.calls + 1 := rfl

@[simp] theorem grant_freed (h : Heap) (n : ℕ) : (h.grant n).freed = h.freed := rfl

@[simp] theorem grant_live (h : Heap) (n c : ℕ) :
    (h.grant n).live c = (h.live c || decide (c = h.fresh)) := by
  by_cases hc : c = h.fresh
  · simp [grant, hc]
  · simp [grant, hc]

@[simp] theorem freeForeign_live (h : Heap) (d : ℕ) : (h.freeForeign d).live = h.live := by
  unfold freeForeign
  split_ifs <;> rfl

@[simp] theorem freeForeign_fresh (h : Heap) (d : ℕ) : (h.freeForeign d).fresh = h.fresh := by
  unfold freeForeign
  split_ifs <;> rfl

@[simp] theorem freeForeign_bytes (h : Heap) (d : ℕ) : (h.freeForeign d).bytes = h.bytes := by
  unfold freeForeign
  split_ifs <;> rfl

@[simp] theorem freeForeign_size (h : Heap) (d : ℕ) : (h.freeForeign d).size = h.size := by
  unfold freeForeign
  split_ifs <;> rfl

@[simp] theorem freeForeign_grants (h : Heap) (d : ℕ) :
    (h.freeForeign d).grants = h.grants := by
  unfold freeForeign
  split_ifs <;> rfl

@[simp] theorem freeForeign_calls (h : Heap) (d : ℕ) : (h.freeForeign d).calls = h.calls := by
  unfold freeForeign
  split_ifs <;> rfl

end

/-- The ledger of own blocks: nothing beyond the frontier is live, and a block has
been freed once if it was handed out and is no longer live, and never otherwise. -/
structure Balanced (h : Heap) : Prop where
  beyond : ∀ b, h.fresh ≤ b → h.live b = false
  freed_count : ∀ b, h.freed.count (.own b) = if b < h.fresh ∧ h.live b = false then 1 else 0

namespace Balanced
variable {h h' : Heap}

theorem start (grants : ℕ → ℕ → Bool) : Balanced (Heap.start grants) :=
  ⟨fun _ _ => rfl, fun _ => by simp [Heap.start]⟩

theorem lt_fresh (hb : Balanced h) {b : ℕ} (hl : h.live b = true) : b < h.fresh := by
  by_contra hn
  rw [hb.beyond b (by omega)] at hl
  cases hl

theorem deny (hb : Balanced h) : Balanced h.deny := ⟨hb.beyond, hb.freed_count⟩

theorem grant (hb : Balanced h) (n : ℕ) : Balanced (h.grant n) := by
  constructor
  · intro b hf
    have hf' : h.fresh + 1 ≤ b := hf
    have hne : b ≠ h.fresh := by omega
    simpa [Heap.grant, hne] using hb.beyond b (by omega)
  · intro b
    have hc := hb.freed_count b
    by_cases he : b = h.fresh
    · subst he
      simpa [Heap.grant] using hc
    · have hlt : b < h.fresh + 1 ↔ b < h.fresh := by omega
      simpa [Heap.grant, he, hlt] using hc

theorem release (hb : Balanced h) {b : ℕ} (hl : h.live b = true) :
    Balanced (h.release b) := by
  constructor
  · intro c hc
    simp [hb.beyond c hc]
  · intro c
    have hc := hb.freed_count c
    by_cases he : c = b
    · subst he
      have hlt := hb.lt_fresh hl
      simp only [hl, Bool.true_eq_false, and_false, if_false] at hc
      simp [hlt, hc]
    · have he' : ¬ b = c := fun e => he e.symm
      simpa [he, he', List.count_cons] using hc

theorem freeForeign (hb : Balanced h) (d : ℕ) : Balanced (h.freeForeign d) := by
  unfold Heap.freeForeign
  split_ifs
  · exact hb
  · exact ⟨hb.beyond, fun b => by simpa [List.count_cons] using hb.freed_count b⟩

theorem setBytes (hb : Balanced h) (b : ℕ) (bs : List UInt8) : Balanced (h.setBytes b bs) :=
  ⟨hb.beyond, hb.freed_count⟩

theorem release_grant (hb : Balanced h) (n : ℕ) (hl : h'.live = (h.grant n).live) :
    (h'.release h.fresh).live = h.live := by
  funext b
  by_cases hbf : b = h.fresh
  · rw [hbf, hb.beyond _ (Nat.le_refl _)]
    simp
  · simp [hl, hbf]

theorem freed_once (hb : Balanced h) (hl : ∀ b, h.live b = false) {b : ℕ} (hf : b < h.fresh) :
    h.freed.count (.own b) = 1 := by
  rw [hb.freed_count b, if_pos ⟨hf, hl b⟩]

end Balanced
end Heap
end KernelHashtable
