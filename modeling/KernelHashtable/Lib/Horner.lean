import Mathlib.Algebra.Ring.Basic
import Mathlib.Tactic.Ring

/-!
# Horner's rule

The accumulator of a loop that multiplies by `a` and adds the next entry.
-/

namespace KernelHashtable

section
variable {R : Type*} [CommRing R]

def horner (a x : R) (l : List R) : R := l.foldl (fun h c => a * h + c) x

@[simp] theorem horner_nil (a x : R) : horner a x [] = x := rfl

@[simp] theorem horner_cons (a x c : R) (l : List R) :
    horner a x (c :: l) = horner a (a * x + c) l := rfl

theorem horner_append (a x : R) (l m : List R) :
    horner a x (l ++ m) = horner a (horner a x l) m := List.foldl_append

theorem horner_start (a x y : R) (l : List R) :
    horner a y l = a ^ l.length * (y - x) + horner a x l := by
  induction l generalizing x y with
  | nil => simp
  | cons c l ih =>
    rw [horner_cons, horner_cons, ih (a * x + c), List.length_cons]
    ring

theorem horner_append_same (a x : R) (l m : List R) : horner a x (l ++ m) =
    a ^ m.length * horner a x l + (horner a x m - x * a ^ m.length) := by
  rw [horner_append, horner_start a x]
  ring

end

theorem horner_map {R S α : Type*} [CommRing R] {step : S → α → S} {f : R → S} {g : α → R} {a : R}
    (hstep : ∀ x c, step (f x) c = f (a * x + g c)) (x : R) (l : List α) :
    l.foldl step (f x) = f (horner a x (l.map g)) := by
  induction l generalizing x with
  | nil => rfl
  | cons c l ih => rw [List.foldl_cons, hstep, ih, List.map_cons, horner_cons]

end KernelHashtable
