import Mathlib.Data.List.Basic
import Mathlib.Data.Option.Basic
import Mathlib.Logic.Function.Basic
import Mathlib.Tactic.Common

/-!
# Pointer values and guarded dereferencing

A pointer is null, a non-null value that names no object, or the address of an
object of an arbitrary type. Every load and store goes through `deref`, which
fails unless the pointer is the address of an object that is accessible at that
moment; a failed dereference is undefined behaviour of the embedded program.
-/

namespace KernelHashtable

inductive Ptr (α : Type*) where
  | null
  | poison (n : ℕ)
  | addr (a : α)
  deriving DecidableEq

namespace Ptr
variable {α : Type*}

def deref (ok : α → Bool) : Ptr α → Option α
  | .addr a => if ok a then some a else none
  | _ => none

@[simp] theorem deref_null (ok : α → Bool) : (null : Ptr α).deref ok = none := rfl

@[simp] theorem deref_poison (ok : α → Bool) (n : ℕ) :
    (poison n : Ptr α).deref ok = none := rfl

theorem deref_addr {ok : α → Bool} {a : α} (h : ok a = true) :
    (addr a).deref ok = some a := by
  simp [deref, h]

end Ptr
end KernelHashtable
