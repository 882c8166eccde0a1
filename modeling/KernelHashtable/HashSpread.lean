import KernelHashtable.HashSum
import KernelHashtable.Lib.Spread
import Mathlib.Data.FinEnum

/-!
# How the integer hashes of hash.h spread their arguments

The multipliers are odd, so that a multiplication permutes the words; the high bits that are kept
are a quotient. The hash of a pointer for 32 bits permutes the low half by a value that depends
on the high half only.
-/

namespace KernelHashtable.Hash

def hashLong (val : UInt64) (bits : UInt32) : UInt64 := hash64 val bits

def hashPtr (ptr : UInt64) (bits : UInt32) : UInt64 := hashLong ptr bits

def hash32Ptr (ptr : UInt64) : UInt32 :=
  let val := ptr
  let val := val ^^^ (val >>> 32)
  val.toUInt32

theorem byte_spread : Spread UInt8.toNat 256 1 := by
  let bytes : UInt8 ≃ Fin 256 := FinEnum.equiv
  exact (Spread.fin 256).comp_equiv bytes

theorem card_byte : Nat.card UInt8 = 256 := by
  let bytes : UInt8 ≃ Fin 256 := FinEnum.equiv
  rw [Nat.card_congr bytes, Nat.card_fin]

theorem card_bytes (n : ℕ) : Nat.card (Fin n → UInt8) = 256 ^ n := by
  rw [Nat.card_fun, card_byte, Nat.card_fin]

theorem count_eq {b w k m n : ℕ} (hw : w = 8 * k) (hn : n = k + m) (hb : b ≤ w) :
    2 ^ (w - b) * 256 ^ m = 2 ^ (8 * n - b) := by
  rw [show 256 = 2 ^ 8 from by decide, ← Nat.pow_mul, ← Nat.pow_add]
  congr 1
  omega

section
variable {bits : UInt32}

theorem spread_product {α : Type} [Finite α] {f : α → ℕ} {w b a k : ℕ} (hf : Spread f (2 ^ w) k)
    (ha : Nat.Coprime (2 ^ w) a) (hb : b ≤ w) :
    Spread (fun x => (f x * a % 2 ^ w) >>> (w - b)) (2 ^ b) (2 ^ (w - b) * k) := by
  have hsplit : 2 ^ w = 2 ^ b * 2 ^ (w - b) := by
    rw [← Nat.pow_add, Nat.add_sub_cancel' hb]
  have hmul := hf.mul_mod ha
  have hdiv := (hsplit ▸ hmul : Spread (fun x => f x * a % 2 ^ w) (2 ^ b * 2 ^ (w - b)) k).div
  simpa only [Nat.shiftRight_eq_div_pow] using hdiv

theorem hash32_spread (hb : 1 ≤ bits.toNat) (hb' : bits.toNat ≤ 32) :
    Spread (fun val => (hash32 val bits).toNat) (2 ^ bits.toNat) (2 ^ (32 - bits.toNat)) := by
  let words : UInt32 ≃ Fin (2 ^ 32) := FinEnum.equiv
  have hwords : Spread UInt32.toNat (2 ^ 32) 1 := (Spread.fin (2 ^ 32)).comp_equiv words
  simp only [hash32_toNat _ hb hb']
  exact Nat.mul_one (2 ^ (32 - bits.toNat)) ▸ spread_product hwords (by decide) hb'

theorem toNat_spread : Spread UInt64.toNat (2 ^ 64) 1 := by
  let words : UInt64 ≃ Fin (2 ^ 64) := FinEnum.equiv
  exact (Spread.fin (2 ^ 64)).comp_equiv words

theorem hash64_spread (hb : 1 ≤ bits.toNat) (hb' : bits.toNat ≤ 64) :
    Spread (fun val => (hash64 val bits).toNat) (2 ^ bits.toNat) (2 ^ (64 - bits.toNat)) := by
  simp only [hash64_eq_fast, hash64Fast_toNat _ hb hb']
  exact Nat.mul_one (2 ^ (64 - bits.toNat)) ▸ spread_product toNat_spread (by decide) hb'

theorem hash32Ptr_toNat (ptr : UInt64) :
    (hash32Ptr ptr).toNat = ptr.toNat % 2 ^ 32 ^^^ ptr.toNat / 2 ^ 32 := by
  have hlt : ptr.toNat / 2 ^ 32 < 2 ^ 32 := by
    have hmax := ptr.toNat_lt
    omega
  have hshift : (ptr >>> 32).toNat = ptr.toNat / 2 ^ 32 := by
    rw [UInt64.toNat_shiftRight, Nat.shiftRight_eq_div_pow]
    rfl
  rw [hash32Ptr, UInt64.toNat_toUInt32, UInt64.toNat_xor, hshift, Nat.xor_mod_two_pow,
    Nat.mod_eq_of_lt hlt]

theorem hash32Ptr_spread : Spread (fun ptr => (hash32Ptr ptr).toNat) (2 ^ 32) (2 ^ 32) := by
  let words : UInt64 ≃ Fin (2 ^ 32 * 2 ^ 32) := FinEnum.equiv
  let halves : UInt64 ≃ Fin (2 ^ 32) × Fin (2 ^ 32) :=
    (words.trans finProdFinEquiv.symm).trans (Equiv.prodComm _ _)
  have hlow : ∀ high : Fin (2 ^ 32),
      Spread (fun low : Fin (2 ^ 32) => (low : ℕ) ^^^ (high : ℕ)) (2 ^ 32) 1 :=
    fun high => (Spread.fin _).xor high.isLt
  have hpairs := (Spread.family hlow).comp_equiv halves
  rw [Nat.card_fin, Nat.one_mul] at hpairs
  simp only [hash32Ptr_toNat]
  exact hpairs

/-- Every value of `hash_32`, of both variants of `hash_64`, of `hash_long`, `hash_ptr` and
`hash32_ptr` is that of equally many words. -/
theorem hash_spread : (∀ bits : UInt32, 1 ≤ bits.toNat → bits.toNat ≤ 32 →
      Spread (fun val => (hash32 val bits).toNat) (2 ^ bits.toNat) (2 ^ (32 - bits.toNat))) ∧
    (∀ bits : UInt32, 1 ≤ bits.toNat → bits.toNat ≤ 64 →
      ∀ hash ∈ [hash64, hash64Fast, hashLong, hashPtr],
        Spread (fun val => (hash val bits).toNat) (2 ^ bits.toNat) (2 ^ (64 - bits.toNat))) ∧
    Spread (fun ptr => (hash32Ptr ptr).toNat) (2 ^ 32) (2 ^ 32) := by
  refine ⟨fun bits => hash32_spread, fun bits hb hb' => ?_, hash32Ptr_spread⟩
  have hfast : hash64Fast = hash64 := by
    funext val b
    exact (hash64_eq_fast val b).symm
  have hspread := hash64_spread hb hb'
  simp only [List.mem_cons, List.not_mem_nil, or_false]
  rintro hash (rfl | rfl | rfl | rfl)
  · exact hspread
  · rw [hfast]
    exact hspread
  · exact hspread
  · exact hspread

theorem hash_spread_byte : Nat.card {val // (hash32 val 8).toNat = 77} = 2 ^ 24 ∧
    Nat.card {ptr // (hashPtr ptr 8).toNat = 77} = 2 ^ 56 ∧
    Nat.card {ptr // (hash32Ptr ptr).toNat = 77} = 2 ^ 32 := by
  obtain ⟨h32, h64, hptr⟩ := hash_spread
  exact ⟨(h32 8 (by decide) (by decide)).card 77 (by decide),
    (h64 8 (by decide) (by decide) hashPtr (by simp)).card 77 (by decide),
    hptr.card 77 (by decide)⟩

end
end KernelHashtable.Hash
