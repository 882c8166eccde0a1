import Mathlib.Data.List.TakeWhile
import Mathlib.Tactic.Common

/-!
# Strings in arrays of bytes

A string is what stands before the first zero. A source that is given to `strncpy` is a string
without its zero; one that is given to `strcpy` is whatever lies in memory from an address on.
-/

namespace KernelHashtable

def cString (bytes : List UInt8) : List UInt8 := bytes.takeWhile fun c => c != 0

def strncpy (dst src : List UInt8) (n : ℕ) : List UInt8 :=
  src.take n ++ List.replicate (n - src.length) 0 ++ dst.drop n

def strcpy (dst src : List UInt8) : List UInt8 :=
  let s := cString src
  s ++ 0 :: dst.drop (s.length + 1)

/-- The bytes that `strcpy` reads, and writes: those before the first zero, and the zero. -/
def strcpyExtent (src : List UInt8) : ℕ := (cString src).length + 1

variable {dst src s t : List UInt8} {n : ℕ}

theorem cString_append_zero (hs : 0 ∉ s) : cString (s ++ 0 :: t) = s := by
  rw [cString, List.takeWhile_append_of_pos]
  · simp
  · intro c hc
    have hne : c ≠ 0 := fun h => hs (h ▸ hc)
    simpa using hne

theorem cString_of_not_mem (hs : 0 ∉ s) : cString s = s := by
  rw [cString, List.takeWhile_eq_self_iff]
  intro c hc
  have hne : c ≠ 0 := fun h => hs (h ▸ hc)
  simpa using hne

theorem zero_not_mem_cString (bytes : List UInt8) : 0 ∉ cString bytes := by
  intro h
  simpa using List.mem_takeWhile_imp h

theorem cString_append (hzero : 0 ∈ src) (t : List UInt8) : cString (src ++ t) = cString src := by
  obtain ⟨a, b, rfl, ha⟩ := List.eq_append_cons_of_mem hzero
  rw [List.append_assoc, List.cons_append, cString_append_zero ha, cString_append_zero ha]

theorem strcpy_eq (dst src : List UInt8) :
    strcpy dst src = cString src ++ 0 :: dst.drop (strcpyExtent src) := rfl

theorem cString_strcpy (dst src : List UInt8) : cString (strcpy dst src) = cString src :=
  cString_append_zero (zero_not_mem_cString src)

theorem strcpy_drop (hn : strcpyExtent src ≤ n) : (strcpy dst src).drop n = dst.drop n := by
  have hlen : (cString src ++ [0]).length = strcpyExtent src := by simp [strcpyExtent]
  have hsplit : strcpy dst src = (cString src ++ [0]) ++ dst.drop (strcpyExtent src) := by
    simp [strcpy_eq]
  rw [hsplit, List.drop_append, hlen, List.drop_eq_nil_of_le (by omega), List.nil_append,
    List.drop_drop, Nat.add_sub_cancel' hn]

theorem strcpy_ends (hn : strcpyExtent src ≤ n) : 0 ∈ (strcpy dst src).take n := by
  obtain ⟨k, rfl⟩ : ∃ k, n = (cString src).length + (k + 1) :=
    ⟨n - strcpyExtent src, by rw [strcpyExtent] at *; omega⟩
  rw [strcpy_eq, List.take_length_add_append, List.take_succ_cons]
  simp

theorem strcpyExtent_le_iff (src beyond : List UInt8) :
    strcpyExtent (src ++ beyond) ≤ src.length ↔ 0 ∈ src := by
  induction src with
  | nil => simp [strcpyExtent]
  | cons c src ih =>
    by_cases hc : c = 0
    · simp [strcpyExtent, cString, hc]
    · have hextent : strcpyExtent (c :: src ++ beyond) = strcpyExtent (src ++ beyond) + 1 := by
        simp [strcpyExtent, cString, hc]
      have hne : ¬ 0 = c := fun h => hc h.symm
      rw [hextent, List.length_cons, Nat.add_le_add_iff_right, ih, List.mem_cons]
      simp [hne]

theorem strncpy_length (hdst : n ≤ dst.length) : (strncpy dst src n).length = dst.length := by
  simp [strncpy]
  omega

theorem strncpy_room (dst : List UInt8) (hlt : src.length < n) :
    ∃ t, strncpy dst src n = src ++ 0 :: t := by
  obtain ⟨k, hk⟩ : ∃ k, n - src.length = k + 1 := ⟨n - src.length - 1, by omega⟩
  refine ⟨List.replicate k 0 ++ dst.drop n, ?_⟩
  rw [strncpy, hk, List.take_of_length_le hlt.le, List.replicate_succ]
  simp

theorem zero_mem_drop_last {last : ℕ} (hlen : src.length = last + 1) :
    0 ∈ src.drop last ↔ src[last]? = some 0 := by
  have hlt : last < src.length := by omega
  rw [List.drop_eq_getElem_cons hlt, List.drop_eq_nil_of_le (by omega), List.mem_singleton,
    List.getElem?_eq_getElem hlt, Option.some.injEq, eq_comm]

theorem zero_mem_strncpy_iff (hsrc : 0 ∉ src) (hdst : dst.length = n + 1) :
    0 ∈ strncpy dst src n ↔ src.length < n ∨ dst[n]? = some 0 := by
  have htake : 0 ∉ src.take n := fun h => hsrc (List.mem_of_mem_take h)
  have hpad : 0 ∈ List.replicate (n - src.length) (0 : UInt8) ↔ src.length < n := by
    rw [List.mem_replicate, ne_eq, Nat.sub_eq_zero_iff_le]
    exact ⟨fun h => Nat.lt_of_not_ge h.1, fun h => ⟨Nat.not_le_of_lt h, rfl⟩⟩
  rw [strncpy, List.mem_append, List.mem_append, hpad, zero_mem_drop_last hdst]
  simp [htake]

theorem strncpy_string (hsrc : 0 ∉ src) (hdst : dst.length = n + 1)
    (hzero : 0 ∈ strncpy dst src n) : cString (strncpy dst src n) = src.take n := by
  have htake : 0 ∉ src.take n := fun h => hsrc (List.mem_of_mem_take h)
  rcases Nat.lt_or_ge src.length n with hlt | hge
  · obtain ⟨t, ht⟩ := strncpy_room dst hlt
    rw [ht, cString_append_zero hsrc, List.take_of_length_le hlt.le]
  · have hlast : dst[n]? = some 0 :=
      ((zero_mem_strncpy_iff hsrc hdst).mp hzero).resolve_left (by omega)
    obtain ⟨hn, hzero⟩ := List.getElem?_eq_some_iff.mp hlast
    rw [strncpy, Nat.sub_eq_zero_of_le hge, List.drop_eq_getElem_cons hn, hzero]
    simpa using cString_append_zero htake

end KernelHashtable
