import KernelHashtable.HashCustom
import KernelHashtable.HashSpread
import KernelHashtable.Hashtable

/-!
# How the custom hash functions spread the strings of one length

The last character is added, or combined by exclusive or, in the last step. So it alone spreads
the strings over a table of up to 256 buckets, whatever the characters in front of it.
-/

namespace KernelHashtable.Hash
open Hashtable

section
variable {char : CharKind} {bits : UInt32}

theorem promote_mod (char : CharKind) (c : UInt8) :
    (char.promote c).toUInt32.toNat % 2 ^ 8 = c.toNat := by
  cases char with
  | signed =>
    have hlow : (c.toBitVec.signExtend 32).setWidth 8 = c.toBitVec := by
      ext i hi
      simp [hi, BitVec.getLsbD_signExtend]
      omega
    exact congrArg BitVec.toNat hlow
  | unsigned =>
    change c.toUInt32.toNat % 2 ^ 8 = c.toNat
    rw [UInt8.toNat_toUInt32, Nat.mod_eq_of_lt c.toNat_lt]

theorem promote_spread (hb : bits.toNat ≤ 8) :
    Spread (fun c => (char.promote c).toUInt32.toNat % 2 ^ bits.toNat) (2 ^ bits.toNat)
      (2 ^ (8 - bits.toNat)) := by
  have hsplit : 256 = 2 ^ (8 - bits.toNat) * 2 ^ bits.toNat := by
    rw [← Nat.pow_add, Nat.sub_add_cancel hb]
  have hlow := (hsplit ▸ byte_spread : Spread UInt8.toNat _ 1).mod
  have hdvd : 2 ^ bits.toNat ∣ 2 ^ 8 := Nat.pow_dvd_pow 2 hb
  have hmod : ∀ c, (char.promote c).toUInt32.toNat % 2 ^ bits.toNat =
      c.toNat % 2 ^ bits.toNat := by
    intro c
    rw [← Nat.mod_mod_of_dvd _ hdvd, promote_mod]
  simpa only [hmod, Nat.mul_one] using hlow

theorem time33_spread (hb : bits.toNat ≤ 8) (hash : Int32) :
    Spread (fun c => (time33Char char hash c).toUInt32.toNat % 2 ^ bits.toNat) (2 ^ bits.toNat)
      (2 ^ (8 - bits.toNat)) := by
  have hdvd : 2 ^ bits.toNat ∣ 2 ^ 32 := Nat.pow_dvd_pow 2 (by omega)
  have hsum : ∀ c, (time33Char char hash c).toUInt32.toNat % 2 ^ bits.toNat =
      ((char.promote c).toUInt32.toNat % 2 ^ bits.toNat +
        ((hash <<< 5) + hash).toUInt32.toNat) % 2 ^ bits.toNat := by
    intro c
    rw [time33Char, Int32.toUInt32_add, UInt32.toNat_add, Nat.mod_mod_of_dvd _ hdvd,
      Nat.mod_add_mod, Nat.add_comm]
  simpa only [hsum] using (promote_spread hb).add_mod _

theorem fnv_spread (hb : bits.toNat ≤ 8) (hash : Int32) :
    Spread (fun c => ((hash * fnvPrime) ^^^ char.promote c).toUInt32.toNat % 2 ^ bits.toNat)
      (2 ^ bits.toNat) (2 ^ (8 - bits.toNat)) := by
  have hxor : ∀ c, ((hash * fnvPrime) ^^^ char.promote c).toUInt32.toNat % 2 ^ bits.toNat =
      (char.promote c).toUInt32.toNat % 2 ^ bits.toNat ^^^
        (hash * fnvPrime).toUInt32.toNat % 2 ^ bits.toNat := by
    intro c
    rw [Int32.toUInt32_xor, UInt32.toNat_xor, Nat.xor_mod_two_pow, Nat.xor_comm]
  simpa only [hxor] using (promote_spread hb).xor (Nat.mod_lt _ (Nat.two_pow_pos _))

end

/-- Up to 256 buckets, each one is that of equally many strings of a length under `hash_time33`
and under `hash_fnv`. -/
theorem custom_spread (char : CharKind) (bits : UInt32) (hb : bits.toNat ≤ 8) (n : ℕ) :
    (∃ hash : (Fin (n + 1) → UInt8) → Int32,
      (∀ a, hashTime33 char (List.ofFn a) (n + 1 : ℕ) = some (hash a, List.range (n + 1))) ∧
      Spread (fun a => (calcBkt (hash a).toUInt32 (oneShl bits).toInt32).toNat)
        (2 ^ bits.toNat) (2 ^ (8 * (n + 1) - bits.toNat))) ∧
    Spread (fun a : Fin (n + 1) → UInt8 =>
        (calcBkt (hashFnv char (List.ofFn a)).toUInt32 (oneShl bits).toInt32).toNat)
      (2 ^ bits.toNat) (2 ^ (8 * (n + 1) - bits.toNat)) := by
  have hcount : 2 ^ (8 - bits.toNat) * Nat.card UInt8 ^ n = 2 ^ (8 * (n + 1) - bits.toNat) := by
    rw [card_byte]
    exact count_eq (k := 1) rfl (Nat.add_comm n 1) hb
  simp only [calcBkt_toNat (show bits.toNat < 32 by omega), ← hcount]
  refine ⟨⟨fun a => (List.ofFn a).foldl (time33Char char) 5381, fun a => ?_, ?_⟩, ?_⟩
  · have hlen : (List.ofFn a).length = n + 1 := List.length_ofFn
    rw [hashTime33_take hlen.ge, List.take_of_length_le hlen.le, ← foldl_time33]
    rfl
  · exact Spread.foldl (fun hash : Int32 => hash.toUInt32.toNat % 2 ^ bits.toNat) _
      (time33_spread hb) 5381 n
  · exact Spread.foldl (fun hash : Int32 => hash.toUInt32.toNat % 2 ^ bits.toNat) _
      (fnv_spread hb) 0 n

theorem custom_spread_four : ∃ hash : (Fin 3 → UInt8) → Int32,
    (∀ a, hashTime33 .signed (List.ofFn a) 3 = some (hash a, List.range 3)) ∧
    Nat.card {a // (calcBkt (hash a).toUInt32 (oneShl 2).toInt32).toNat = 1} = 2 ^ 22 ∧
    Nat.card {a : Fin 3 → UInt8 // (calcBkt (hashFnv .signed (List.ofFn a)).toUInt32
      (oneShl 2).toInt32).toNat = 1} = 2 ^ 22 := by
  obtain ⟨⟨hash, heq, htime⟩, hfnv⟩ := custom_spread .signed 2 (by decide) 2
  exact ⟨hash, heq, htime.card 1 (by decide), hfnv.card 1 (by decide)⟩

end KernelHashtable.Hash
