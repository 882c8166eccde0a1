import KernelHashtable.Log2
import Mathlib.Order.Bounds.Basic

/-!
# The powers of two of log2.h

The macros that round to a power of two call functions for an argument that is not constant,
which the header does not declare. For a constant they go through the chain of `ilog2`.
-/

namespace KernelHashtable.Log2

def isPowerOf2 (n : UInt64) : Bool := decide (n ≠ 0 ∧ n &&& (n - 1) = 0)

def shiftOne (k : ℤ) : Option UInt64 :=
  if 0 ≤ k ∧ k < 64 then some ((1 : UInt64) <<< UInt64.ofNat k.toNat) else none

def Arg.pred : Arg → Arg
  | .u32 n => .u32 (n - 1)
  | .u64 n => .u64 (n - 1)

def Arg.word : Arg → UInt64
  | .u32 n => n.toUInt64
  | .u64 n => n

/-- `__roundup_pow_of_two` and `__rounddown_pow_of_two` are never defined. -/
def roundupPowOfTwo (constantP : Bool) (n : Arg) : Option UInt64 :=
  if constantP then
    if n.toNat = 1 then some 1
    else do
      let k ← ilog2 true n.pred
      shiftOne (k + 1)
  else none

def rounddownPowOfTwo (constantP : Bool) (n : Arg) : Option UInt64 :=
  if constantP then do
    let k ← ilog2 true n
    shiftOne k
  else none

def orderBase2 (constantP : Bool) (n : Arg) : Option ℤ := do
  let r ← roundupPowOfTwo constantP n
  ilog2 constantP (.u64 r)

theorem shiftOne_eq_some {k : ℕ} (hk : k < 64) : ∃ r : UInt64, shiftOne k = some r ∧
    r.toNat = 2 ^ k := by
  refine ⟨_, if_pos ⟨Int.natCast_nonneg k, by omega⟩, ?_⟩
  rw [Int.toNat_natCast, oneShl_toNat hk]

theorem shiftOne_eq_none {k : ℕ} (hk : 64 ≤ k) : shiftOne k = none :=
  if_neg fun h => by omega

theorem Arg.toNat_lt (n : Arg) : n.toNat < 2 ^ 64 := by
  cases n with
  | u32 n => exact n.toNat_lt.trans (by decide)
  | u64 n => exact n.toNat_lt

theorem Arg.word_toNat (n : Arg) : n.word.toNat = n.toNat := by
  cases n with
  | u32 n => exact n.toNat_toUInt64
  | u64 n => rfl

theorem Arg.pred_toNat {n : Arg} (hn : 1 ≤ n.toNat) : n.pred.toNat = n.toNat - 1 := by
  cases n with
  | u32 n =>
    have hle : 1 ≤ n := UInt32.le_iff_toNat_le.mpr hn
    exact UInt32.toNat_sub_of_le n 1 hle
  | u64 n =>
    have hle : 1 ≤ n := UInt64.le_iff_toNat_le.mpr hn
    exact UInt64.toNat_sub_of_le n 1 hle

theorem clog_eq {n : ℕ} (hn : 2 ≤ n) : Nat.clog 2 n = (n - 1).log2 + 1 := by
  have hne : n - 1 ≠ 0 := by omega
  have hlo := Nat.log2_self_le hne
  have hhi : n - 1 < 2 ^ ((n - 1).log2 + 1) := Nat.lt_log2_self
  apply Nat.le_antisymm
  · exact Nat.clog_le_of_le_pow (by omega)
  · exact (Nat.lt_clog_iff_pow_lt (by decide)).mpr (by omega)

section
variable {n : Arg} {r : UInt64}

theorem roundup_eq_shiftOne (hn : 1 ≤ n.toNat) :
    roundupPowOfTwo true n = shiftOne (Nat.clog 2 n.toNat) := by
  rw [roundupPowOfTwo, if_pos rfl]
  split_ifs with hone
  · rw [hone, Nat.clog_one_right]
    rfl
  · have hpred := Arg.pred_toNat hn
    rw [Arg.const_eq (by omega), hpred, clog_eq (by omega)]
    rfl

theorem roundup_eq_some_iff (hn : 1 ≤ n.toNat) :
    roundupPowOfTwo true n = some r ↔ r.toNat = 2 ^ Nat.clog 2 n.toNat := by
  rw [roundup_eq_shiftOne hn]
  by_cases hk : Nat.clog 2 n.toNat < 64
  · obtain ⟨r', hr', hpow⟩ := shiftOne_eq_some hk
    rw [hr', Option.some_inj, ← hpow, UInt64.toNat_inj]
    exact eq_comm
  · rw [shiftOne_eq_none (by omega)]
    refine iff_of_false (by simp) fun h => ?_
    have hpow : 2 ^ 64 ≤ 2 ^ Nat.clog 2 n.toNat := Nat.pow_le_pow_right (by decide) (by omega)
    exact absurd (h ▸ hpow) (not_le.mpr r.toNat_lt)

theorem rounddown_eq_some_iff (hn : 1 ≤ n.toNat) :
    rounddownPowOfTwo true n = some r ↔ r.toNat = 2 ^ n.toNat.log2 := by
  have hlt : n.toNat.log2 < 64 := (Nat.log2_lt (by omega)).mpr n.toNat_lt
  obtain ⟨r', hr', hpow⟩ := shiftOne_eq_some hlt
  have hround : rounddownPowOfTwo true n = some r' := by
    rw [rounddownPowOfTwo, if_pos rfl, Arg.const_eq hn]
    exact hr'
  rw [hround, Option.some_inj, ← hpow, UInt64.toNat_inj]
  exact eq_comm

theorem isLeast_clog (n : ℕ) : IsLeast {k | n ≤ 2 ^ k} (Nat.clog 2 n) :=
  ⟨Nat.le_pow_clog (by decide) n, fun _ hk => Nat.clog_le_of_le_pow hk⟩

theorem isLeast_two_pow_clog (n : ℕ) :
    IsLeast {p | p.isPowerOfTwo ∧ n ≤ p} (2 ^ Nat.clog 2 n) := by
  refine ⟨⟨⟨_, rfl⟩, Nat.le_pow_clog (by decide) n⟩, ?_⟩
  rintro p ⟨⟨k, rfl⟩, hk⟩
  exact Nat.pow_le_pow_right (by decide) (Nat.clog_le_of_le_pow hk)

theorem isGreatest_two_pow_log2 {n : ℕ} (hn : 1 ≤ n) :
    IsGreatest {p | p.isPowerOfTwo ∧ p ≤ n} (2 ^ n.log2) := by
  have hne : n ≠ 0 := by omega
  refine ⟨⟨⟨_, rfl⟩, Nat.log2_self_le hne⟩, ?_⟩
  rintro p ⟨⟨k, rfl⟩, hk⟩
  exact Nat.pow_le_pow_right (by decide) ((Nat.le_log2 hne).mpr hk)

theorem orderBase2_eq_some_iff (hn : 1 ≤ n.toNat) (k : ℕ) :
    orderBase2 true n = some (k : ℤ) ↔ k = Nat.clog 2 n.toNat ∧ k < 64 := by
  rw [orderBase2, roundup_eq_shiftOne hn]
  by_cases hk : Nat.clog 2 n.toNat < 64
  · obtain ⟨r, hr, hpow⟩ := shiftOne_eq_some hk
    have hpos : 1 ≤ (Arg.u64 r).toNat := Nat.one_le_two_pow.trans_eq hpow.symm
    have hlog : ilog2 true (.u64 r) = some (Nat.clog 2 n.toNat : ℤ) := by
      rw [Arg.const_eq hpos, show (Arg.u64 r).toNat = 2 ^ Nat.clog 2 n.toNat from hpow,
        Nat.log2_two_pow]
    rw [hr, Option.bind_eq_bind, Option.bind_some, hlog, Option.some_inj, Int.natCast_inj]
    exact ⟨fun h => ⟨h.symm, h ▸ hk⟩, fun h => h.1.symm⟩
  · rw [shiftOne_eq_none (by omega)]
    exact iff_of_false (by simp) fun h => hk (h.1 ▸ h.2)

theorem isPowerOf2_iff (w : UInt64) : isPowerOf2 w = true ↔ w.toNat.isPowerOfTwo := by
  rw [isPowerOf2, decide_eq_true_iff, ← Nat.ne_zero_and_sub_one_eq_zero_iff_isPowerOfTwo]
  have hzero : w ≠ 0 ↔ w.toNat ≠ 0 := by
    rw [ne_eq, ← UInt64.toNat_inj]
    rfl
  rw [hzero]
  refine and_congr_right fun hw => ?_
  have hle : (1 : UInt64) ≤ w := UInt64.le_iff_toNat_le.mpr (Nat.one_le_iff_ne_zero.mpr hw)
  rw [← UInt64.toNat_inj, UInt64.toNat_and, UInt64.toNat_sub_of_le w 1 hle]
  rfl

/-- A constant that is not 0 is rounded to the nearest powers of two, where they fit into a
word, and is one of them if and only if it stays as it is. -/
theorem powOfTwo_rounding (n : Arg) (hn : 1 ≤ n.toNat) :
    (∀ r, roundupPowOfTwo true n = some r ↔
      IsLeast {p | p.isPowerOfTwo ∧ n.toNat ≤ p} r.toNat) ∧
    (∀ r, rounddownPowOfTwo true n = some r ↔
      IsGreatest {p | p.isPowerOfTwo ∧ p ≤ n.toNat} r.toNat) ∧
    (∀ k : ℕ, orderBase2 true n = some (k : ℤ) ↔ IsLeast {k | n.toNat ≤ 2 ^ k} k ∧ k < 64) ∧
    (isPowerOf2 n.word = true ↔ roundupPowOfTwo true n = some n.word) ∧
    (isPowerOf2 n.word = true ↔ rounddownPowOfTwo true n = some n.word) := by
  have hup : ∀ r, roundupPowOfTwo true n = some r ↔
      IsLeast {p | p.isPowerOfTwo ∧ n.toNat ≤ p} r.toNat := by
    intro r
    rw [roundup_eq_some_iff hn]
    exact ⟨fun h => h ▸ isLeast_two_pow_clog _, fun h => h.unique (isLeast_two_pow_clog _)⟩
  have hdown : ∀ r, rounddownPowOfTwo true n = some r ↔
      IsGreatest {p | p.isPowerOfTwo ∧ p ≤ n.toNat} r.toNat := by
    intro r
    rw [rounddown_eq_some_iff hn]
    exact ⟨fun h => h ▸ isGreatest_two_pow_log2 hn,
      fun h => h.unique (isGreatest_two_pow_log2 hn)⟩
  refine ⟨hup, hdown, fun k => ?_, ?_, ?_⟩
  · rw [orderBase2_eq_some_iff hn]
    refine and_congr_left fun _ => ⟨fun h => h ▸ isLeast_clog _, fun h => h.unique (isLeast_clog _)⟩
  · rw [isPowerOf2_iff, hup, n.word_toNat]
    exact ⟨fun h => ⟨⟨h, le_rfl⟩, fun _ hp => hp.2⟩, fun h => h.1.1⟩
  · rw [isPowerOf2_iff, hdown, n.word_toNat]
    exact ⟨fun h => ⟨⟨h, le_rfl⟩, fun _ hp => hp.2⟩, fun h => h.1.1⟩

theorem powOfTwo_rounding_hundred : roundupPowOfTwo true (.u32 100) = some 128 ∧
    rounddownPowOfTwo true (.u32 100) = some 64 ∧ orderBase2 true (.u32 100) = some 7 ∧
    isPowerOf2 100 = false := by
  obtain ⟨hup, hdown, horder, hsame, -⟩ := powOfTwo_rounding (.u32 100) (by decide)
  have hup' : roundupPowOfTwo true (.u32 100) = some 128 := (hup 128).mpr (isLeast_two_pow_clog 100)
  refine ⟨hup', (hdown 64).mpr (isGreatest_two_pow_log2 (n := 100) (by decide)),
    (horder 7).mpr ⟨isLeast_clog 100, by decide⟩, Bool.eq_false_iff.mpr fun h => ?_⟩
  exact absurd (hup'.symm.trans (hsame.mp h)) (by decide)

/-- The order of 0 is documented as 0. -/
example : orderBase2 true (.u32 0) = some 32 ∧ orderBase2 true (.u64 0) = none := by
  decide

end
end KernelHashtable.Log2
