import Mathlib.Data.Nat.ModEq
import Mathlib.Data.Nat.Prime.Basic
import Mathlib.Tactic.Common

/-!
# Words mixed with their own shifts

The steps `x += x << k` and `x ^= x >> k`, the second for a logical and for an arithmetic
shift. The first and the logical second are injective. The arithmetic one forgets the sign: it
is the logical one on the word or on its complement, whichever has a clear top bit.
-/

namespace KernelHashtable

theorem mul_mod_two_pow_iff {c : ℕ} (hc : c % 2 = 1) (m n b : ℕ) :
    m * c % 2 ^ b = n * c % 2 ^ b ↔ m % 2 ^ b = n % 2 ^ b := by
  have hcop : Nat.Coprime (2 ^ b) c :=
    Nat.Coprime.pow_left b (Nat.coprime_two_left.mpr (Nat.odd_iff.mpr hc))
  constructor
  · intro h
    exact Nat.ModEq.cancel_right_of_coprime hcop h
  · intro h
    exact Nat.ModEq.mul_right c h

section
variable {w k : ℕ} {x y : BitVec w}

def addShift (x : BitVec w) (k : ℕ) : BitVec w := x + (x <<< k)

def xorShift (x : BitVec w) (k : ℕ) : BitVec w := x ^^^ (x >>> k)

def xorSShift (x : BitVec w) (k : ℕ) : BitVec w := x ^^^ (x.sshiftRight k)

theorem addShift_toNat (x : BitVec w) (k : ℕ) :
    (addShift x k).toNat = x.toNat * (1 + 2 ^ k) % 2 ^ w := by
  rw [addShift, BitVec.toNat_add, BitVec.toNat_shiftLeft, Nat.shiftLeft_eq, Nat.add_mod_mod,
    Nat.mul_add, Nat.mul_one]

theorem addShift_inj (hk : 0 < k) : addShift x k = addShift y k ↔ x = y := by
  have hodd : (1 + 2 ^ k) % 2 = 1 := by
    rw [Nat.add_mod, Nat.mod_eq_zero_of_dvd (dvd_pow_self 2 hk.ne')]
  rw [← BitVec.toNat_inj, addShift_toNat, addShift_toNat, mul_mod_two_pow_iff hodd,
    Nat.mod_eq_of_lt x.isLt, Nat.mod_eq_of_lt y.isLt, BitVec.toNat_inj]

theorem eq_zero_of_ushiftRight_eq (hk : 0 < k) (hx : x >>> k = x) : x = 0#w := by
  have hnat : x.toNat / 2 ^ k = x.toNat := by
    rw [← Nat.shiftRight_eq_div_pow, ← BitVec.toNat_ushiftRight, hx]
  have hzero : x.toNat = 0 := by
    by_contra hne
    have hlt := Nat.div_lt_self (Nat.pos_of_ne_zero hne)
      (Nat.one_lt_two_pow (Nat.pos_iff_ne_zero.mp hk))
    omega
  exact BitVec.eq_of_toNat_eq (by simpa using hzero)

theorem xorShift_inj (hk : 0 < k) : xorShift x k = xorShift y k ↔ x = y := by
  refine ⟨fun h => ?_, fun h => h ▸ rfl⟩
  have hxor : (x ^^^ y) >>> k = x ^^^ y := by
    have hmix : x ^^^ (x >>> k) = y ^^^ (y >>> k) := h
    calc (x ^^^ y) >>> k = x ^^^ (x ^^^ x >>> k) ^^^ y >>> k := by
          rw [BitVec.ushiftRight_xor_distrib, ← BitVec.xor_assoc x x, BitVec.xor_self,
            BitVec.zero_xor]
      _ = x ^^^ y := by
          rw [hmix, BitVec.xor_assoc, BitVec.xor_assoc, BitVec.xor_self, BitVec.xor_zero]
  exact BitVec.xor_eq_zero_iff.mp (eq_zero_of_ushiftRight_eq hk hxor)

def reflected (x : BitVec w) : BitVec w := if x.msb then ~~~x else x

theorem xorSShift_eq (x : BitVec w) (k : ℕ) : xorSShift x k = xorShift (reflected x) k := by
  cases hx : x.msb with
  | false =>
    rw [xorSShift, BitVec.sshiftRight_eq_of_msb_false hx, xorShift, reflected, hx]
    rfl
  | true =>
    rw [xorSShift, BitVec.sshiftRight_eq_of_msb_true hx, xorShift, reflected, hx, if_pos rfl]
    rw [← BitVec.not_xor_right, BitVec.not_xor_left]

theorem reflected_eq_iff : reflected x = y ↔ y.msb = false ∧ (x = y ∨ x = ~~~y) := by
  cases hx : x.msb with
  | false =>
    rw [reflected, hx, if_neg Bool.false_ne_true]
    refine ⟨fun h => ⟨h ▸ hx, Or.inl h⟩, fun h => h.2.elim id fun hn => ?_⟩
    rw [hn, BitVec.msb_not, h.1] at hx
    have hw : w = 0 := by simpa using hx
    subst hw
    exact Subsingleton.elim x y
  | true =>
    rw [reflected, hx, if_pos rfl]
    refine ⟨fun h => ?_, fun h => h.2.elim (fun hxy => ?_) fun hn => ?_⟩
    · refine ⟨?_, Or.inr ?_⟩
      · rw [← h, BitVec.msb_not, hx, Bool.not_true, Bool.and_false]
      · exact BitVec.not_eq_comm.mp h
    · rw [hxy, h.1] at hx
      cases hx
    · exact BitVec.not_eq_comm.mpr hn

def SameLow (m : ℕ) (x y : BitVec w) : Prop := ∀ i < m, x.getLsbD i = y.getLsbD i

theorem sameLow_iff {m : ℕ} : SameLow m x y ↔ x.toNat % 2 ^ m = y.toNat % 2 ^ m := by
  constructor
  · intro h
    apply Nat.eq_of_testBit_eq
    intro i
    rw [Nat.testBit_mod_two_pow, Nat.testBit_mod_two_pow]
    by_cases hi : i < m
    · have hbit : x.toNat.testBit i = y.toNat.testBit i := h i hi
      rw [hbit]
    · simp [hi]
  · intro h i hi
    have hbit := congrArg (fun n : ℕ => n.testBit i) h
    simpa [Nat.testBit_mod_two_pow, hi, BitVec.testBit_toNat] using hbit

theorem SameLow.add {m : ℕ} (h : SameLow m x y) (hm : m ≤ w) (z : BitVec w) :
    SameLow m (x + z) (y + z) := by
  rw [sameLow_iff] at h ⊢
  rw [BitVec.toNat_add, BitVec.toNat_add, Nat.mod_mod_of_dvd _ (Nat.pow_dvd_pow 2 hm),
    Nat.mod_mod_of_dvd _ (Nat.pow_dvd_pow 2 hm)]
  exact Nat.ModEq.add_right _ h

theorem SameLow.addShift {m : ℕ} (h : SameLow m x y) (hm : m ≤ w) (k : ℕ) :
    SameLow m (addShift x k) (addShift y k) := by
  rw [sameLow_iff] at h ⊢
  rw [addShift_toNat, addShift_toNat, Nat.mod_mod_of_dvd _ (Nat.pow_dvd_pow 2 hm),
    Nat.mod_mod_of_dvd _ (Nat.pow_dvd_pow 2 hm)]
  exact Nat.ModEq.mul_right _ h

theorem SameLow.xorShift {m : ℕ} (h : SameLow m x y) (hm : m ≤ w) (k : ℕ) :
    SameLow (m - k) (xorSShift x k) (xorShift y k) := by
  intro i hi
  have hw : ¬ w ≤ i := by omega
  have hk : k + i < w := by omega
  rw [xorSShift, KernelHashtable.xorShift, BitVec.getLsbD_xor, BitVec.getLsbD_xor,
    BitVec.getLsbD_sshiftRight, BitVec.getLsbD_ushiftRight, h i (by omega), h (k + i) (by omega)]
  simp [hw, hk]

theorem SameLow.ne_not {m : ℕ} (h : SameLow m x y) (hm : 0 < m) (hw : 0 < w) : x ≠ ~~~y := by
  rintro rfl
  have hbit := h 0 hm
  rw [BitVec.getLsbD_not] at hbit
  simp [hw] at hbit

end
end KernelHashtable
