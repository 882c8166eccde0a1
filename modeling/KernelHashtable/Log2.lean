import Mathlib.Algebra.Group.Nat.Defs
import Mathlib.Data.Nat.Bitwise
import Mathlib.Data.Nat.Log

/-!
# The integer logarithm of log2.h

`ilog2` is a chain of bit tests where its argument is a constant, and counts leading zeros
otherwise, through a `fls` that takes an `int` whatever the width of the argument.
-/

namespace KernelHashtable.Log2

/-- `__builtin_clz`, for an argument that is not 0. -/
def builtinClz (x : Int32) : ℕ := x.toBitVec.clz.toNat

def fls (x : Int32) : ℤ := if x ≠ 0 then 4 * 8 - builtinClz x else 0

def ilog2U32 (n : Int32) : ℤ := fls n - 1

/-- `__ilog2_u64`, with the conversion of its argument to the `int` of `fls`. -/
def ilog2U64 (n : UInt64) : ℤ := fls n.toUInt32.toInt32 - 1

/-- The tests of the bits below `k`, the highest first. `____ilog2_NaN` is never defined. -/
def ilog2Chain (n : UInt64) : ℕ → Option ℤ
  | 0 => none
  | k + 1 => if n &&& ((1 : UInt64) <<< UInt64.ofNat k) ≠ 0 then some k else ilog2Chain n k

def ilog2Const (n : UInt64) : Option ℤ := if n < 1 then none else ilog2Chain n 64

inductive Arg where
  | u32 (n : UInt32)
  | u64 (n : UInt64)

def Arg.toNat : Arg → ℕ
  | .u32 n => n.toNat
  | .u64 n => n.toNat

/-- The macro, by what `__builtin_constant_p` answers. -/
def ilog2 (constantP : Bool) : Arg → Option ℤ
  | .u32 n => if constantP then ilog2Const n.toUInt64 else some (ilog2U32 n.toInt32)
  | .u64 n => if constantP then ilog2Const n else some (ilog2U64 n)

theorem fls_eq {x : Int32} (hx : x ≠ 0) : fls x = x.toBitVec.toNat.log2 + 1 := by
  have hne : x.toBitVec ≠ 0#32 := fun h => hx (Int32.toBitVec.inj h)
  have hnat : x.toBitVec.toNat ≠ 0 := fun h => hne (BitVec.eq_of_toNat_eq (by simpa using h))
  have hlo := BitVec.two_pow_sub_clz_le_toNat_of_ne_zero (by decide) hne
  have hhi := BitVec.toNat_lt_two_pow_sub_clz (x := x.toBitVec)
  have hclz : x.toBitVec.clz.toNat < 32 := by
    simpa [BitVec.lt_def] using BitVec.clz_lt_iff_ne_zero.mpr hne
  have hlog : x.toBitVec.toNat.log2 = 32 - 1 - x.toBitVec.clz.toNat := by
    apply (Nat.log2_eq_iff hnat).mpr ⟨hlo, ?_⟩
    rwa [show 32 - 1 - x.toBitVec.clz.toNat + 1 = 32 - x.toBitVec.clz.toNat by omega]
  rw [fls, if_pos hx, hlog, builtinClz]
  omega

theorem oneShl_toNat {k : ℕ} (hk : k < 64) : ((1 : UInt64) <<< UInt64.ofNat k).toNat = 2 ^ k := by
  have hlt : 2 ^ k < 2 ^ 64 := Nat.pow_lt_pow_right (by decide) hk
  have hshift : (UInt64.ofNat k).toNat % 64 = k := by simp [Nat.mod_eq_of_lt hk]
  rw [UInt64.toNat_shiftLeft, hshift, UInt64.toNat_one, Nat.one_shiftLeft, Nat.mod_eq_of_lt hlt]

theorem and_oneShl_eq_zero {n : UInt64} {k : ℕ} (hk : k < 64) :
    n &&& ((1 : UInt64) <<< UInt64.ofNat k) = 0 ↔ n.toNat.testBit k = false := by
  have hand : (n &&& ((1 : UInt64) <<< UInt64.ofNat k)).toNat =
      (n.toNat.testBit k).toNat * 2 ^ k := by
    rw [UInt64.toNat_and, oneShl_toNat hk, Nat.and_two_pow]
  refine ⟨fun h => ?_, fun h => UInt64.toNat_inj.mp (by rw [hand, h]; simp)⟩
  rw [h] at hand
  simpa using hand.symm

theorem ilog2Chain_eq {n : UInt64} {k : ℕ} (hn : n ≠ 0) (hk : k ≤ 64) (hlt : n.toNat < 2 ^ k) :
    ilog2Chain n k = some (n.toNat.log2 : ℤ) := by
  have hnat : n.toNat ≠ 0 := fun h => hn (UInt64.toNat_inj.mp h)
  induction k with
  | zero =>
    rw [pow_zero] at hlt
    omega
  | succ k ih =>
    rw [ilog2Chain]
    cases hbit : n.toNat.testBit k with
    | true =>
      have hlog : n.toNat.log2 = k :=
        (Nat.log2_eq_iff hnat).mpr ⟨Nat.ge_two_pow_of_testBit hbit, hlt⟩
      have hand : n &&& ((1 : UInt64) <<< UInt64.ofNat k) ≠ 0 := fun h => by
        simp [(and_oneShl_eq_zero (by omega)).mp h] at hbit
      rw [if_pos hand, hlog]
    | false =>
      have hlow : n.toNat < 2 ^ k := by
        by_contra hge
        rw [Nat.testBit_of_two_pow_le_and_two_pow_add_one_gt (by omega) hlt] at hbit
        cases hbit
      have hand := (and_oneShl_eq_zero (k := k) (by omega)).mpr hbit
      rw [if_neg (not_not_intro hand)]
      exact ih (by omega) hlow

theorem ilog2Const_eq {n : UInt64} (hn : 1 ≤ n.toNat) :
    ilog2Const n = some (n.toNat.log2 : ℤ) := by
  have hne : n ≠ 0 := by
    rintro rfl
    exact absurd hn (by decide)
  have hlt : ¬ n < 1 := by
    rw [UInt64.lt_iff_toNat_lt, UInt64.toNat_one]
    omega
  rw [ilog2Const, if_neg hlt]
  exact ilog2Chain_eq hne (Nat.le_refl 64) n.toNat_lt

theorem ilog2U32_eq {n : UInt32} (hn : 1 ≤ n.toNat) : ilog2U32 n.toInt32 = n.toNat.log2 := by
  have hne : n.toInt32 ≠ 0 := by
    intro h
    have hzero : n.toInt32.toBitVec.toNat = 0 := by rw [h]; rfl
    exact absurd hn (by rw [show n.toNat = 0 from hzero]; decide)
  rw [ilog2U32, fls_eq hne]
  exact Int.add_sub_cancel _ 1

theorem ilog2U64_lt (n : UInt64) : ilog2U64 n < 32 := by
  rw [ilog2U64, fls]
  split_ifs <;> omega

theorem ilog2U64_eq {n : UInt64} (hn : 1 ≤ n.toNat) (hlt : n.toNat < 2 ^ 32) :
    ilog2U64 n = n.toNat.log2 := by
  have hlow : n.toUInt32.toNat = n.toNat := by
    rw [UInt64.toNat_toUInt32, Nat.mod_eq_of_lt hlt]
  rw [← hlow]
  exact ilog2U32_eq (by omega)

theorem Arg.const_eq {n : Arg} (hn : 1 ≤ n.toNat) : ilog2 true n = some (n.toNat.log2 : ℤ) := by
  cases n with
  | u32 n =>
    have hwide : n.toUInt64.toNat = n.toNat := n.toNat_toUInt64
    rw [ilog2, if_pos rfl, ilog2Const_eq (hwide ▸ hn), hwide]
    rfl
  | u64 n => exact ilog2Const_eq hn

theorem Arg.runtime_eq_iff {n : Arg} (hn : 1 ≤ n.toNat) :
    ilog2 false n = some (n.toNat.log2 : ℤ) ↔ n.toNat < 2 ^ 32 := by
  cases n with
  | u32 n =>
    have hrun : ilog2 false (.u32 n) = some (n.toNat.log2 : ℤ) := congrArg some (ilog2U32_eq hn)
    exact iff_of_true hrun n.toNat_lt
  | u64 n =>
    refine ⟨fun h => ?_, fun hlt => congrArg some (ilog2U64_eq hn hlt)⟩
    have hlog : ilog2U64 n = n.toNat.log2 := Option.some.inj h
    have hsmall : n.toNat.log2 < 32 := by
      have hlt := ilog2U64_lt n
      omega
    exact (Nat.log2_lt (by omega)).mp hsmall

/-- Both paths of `ilog2` give the integer logarithm exactly where 32 bits hold the argument. -/
theorem ilog2_paths_agree_iff {n : Arg} (hn : 1 ≤ n.toNat) :
    (∃ k : ℕ, (∀ constantP, ilog2 constantP n = some (k : ℤ)) ∧ k = n.toNat.log2 ∧
      2 ^ k ≤ n.toNat ∧ n.toNat < 2 ^ (k + 1)) ↔ n.toNat < 2 ^ 32 := by
  constructor
  · rintro ⟨k, hpath, rfl, -⟩
    exact (Arg.runtime_eq_iff hn).mp (hpath false)
  · intro hlt
    have hne : n.toNat ≠ 0 := by omega
    refine ⟨n.toNat.log2, fun constantP => ?_, rfl, Nat.log2_self_le hne, Nat.lt_log2_self⟩
    cases constantP with
    | true => exact Arg.const_eq hn
    | false => exact (Arg.runtime_eq_iff hn).mpr hlt

theorem ilog2_paths_agree_word :
    (∃ k : ℕ, (∀ constantP, ilog2 constantP (.u64 4294967295) = some (k : ℤ)) ∧
      k = (Arg.u64 4294967295).toNat.log2 ∧ 2 ^ k ≤ (Arg.u64 4294967295).toNat ∧
      (Arg.u64 4294967295).toNat < 2 ^ (k + 1)) ↔ (Arg.u64 4294967295).toNat < 2 ^ 32 :=
  ilog2_paths_agree_iff (by decide)

theorem ilog2_paths_differ : ilog2 true (.u64 4294967296) = some 32 ∧
    ilog2 false (.u64 4294967296) = some (-1) ∧ (Arg.u64 4294967296).toNat.log2 = 32 ∧
    ¬ ∃ k : ℕ, (∀ constantP, ilog2 constantP (.u64 4294967296) = some (k : ℤ)) ∧
      k = (Arg.u64 4294967296).toNat.log2 ∧ 2 ^ k ≤ (Arg.u64 4294967296).toNat ∧
      (Arg.u64 4294967296).toNat < 2 ^ (k + 1) := by
  refine ⟨by decide, by decide, by decide, ?_⟩
  rintro ⟨k, hpath, -⟩
  have hconst : some (k : ℤ) = some 32 := (hpath true).symm.trans (by decide)
  have hrun : some (k : ℤ) = some (-1) := (hpath false).symm.trans (by decide)
  exact absurd (hconst.symm.trans hrun) (by decide)

end KernelHashtable.Log2
