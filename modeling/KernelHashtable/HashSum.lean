import KernelHashtable.Hash
import Mathlib.Data.Nat.Digits.Defs
import Mathlib.Algebra.BigOperators.Group.List.Basic

/-!
# The closed form of the string hash

`wordSum` adds the leading 64-bit words of a string, the 32-bit word that may follow and the
bytes that are left over. Both variants of the hash multiply this sum by a constant and keep
the high bits of the product.
-/

namespace KernelHashtable.Hash

def leWord (bs : List UInt8) : ℕ := Nat.ofDigits 256 (bs.map UInt8.toNat)

def wordTotal (s : List UInt8) : ℕ :=
  ((List.range (s.length / 8)).map fun i => leWord ((s.drop (8 * i)).take 8)).sum +
    (if 4 ≤ s.length % 8 then leWord ((s.drop (8 * (s.length / 8))).take 4) else 0) +
    ((s.drop (s.length - s.length % 4)).map UInt8.toNat).sum

def wordSum (s : List UInt8) : ℕ := wordTotal s % 2 ^ 64

def addends (s : List UInt8) : List ℕ :=
  (List.range (s.length / 8)).map (fun i => leWord ((s.drop (8 * i)).take 8)) ++
    (if 4 ≤ s.length % 8 then [leWord ((s.drop (8 * (s.length / 8))).take 4)] else []) ++
    (s.drop (s.length - s.length % 4)).map UInt8.toNat

section
variable {s t : List UInt8} {b : UInt8} {hash val : UInt64} {bits : UInt32}

theorem leWord_cons (b : UInt8) (s : List UInt8) :
    leWord (b :: s) = b.toNat + 256 * leWord s := by
  simp [leWord, Nat.ofDigits_cons]

theorem readWord_toNat (s : List UInt8) : (readWord s).toNat = leWord s % 2 ^ 64 := by
  induction s with
  | nil => rfl
  | cons b s ih =>
    have hcons : readWord (b :: s) = b.toUInt64 + 256 * readWord s := rfl
    rw [hcons, leWord_cons, UInt64.toNat_add, UInt64.toNat_mul, ih]
    simp [Nat.add_mod, Nat.mul_mod]

theorem wordTotal_append (hs : 8 ∣ s.length) (t : List UInt8) :
    wordTotal (s ++ t) = wordTotal s + wordTotal t := by
  obtain ⟨n, hn⟩ := hs
  have hdiv : (s ++ t).length / 8 = n + t.length / 8 := by
    rw [List.length_append, hn]
    omega
  have hmod : (s ++ t).length % 8 = t.length % 8 := by
    rw [List.length_append, hn]
    omega
  have hwords : ∀ i ∈ List.range n,
      leWord (((s ++ t).drop (8 * i)).take 8) = leWord ((s.drop (8 * i)).take 8) := by
    intro i hi
    have hlt := List.mem_range.mp hi
    rw [List.drop_append_of_le_length (by omega), List.take_append_of_le_length]
    rw [List.length_drop]
    omega
  have hrest : ∀ k, (s ++ t).drop (8 * n + k) = t.drop k := by
    intro k
    rw [← hn, List.drop_length_add_append]
  have htail : (s ++ t).length - (s ++ t).length % 4 = 8 * n + (t.length - t.length % 4) := by
    rw [List.length_append, hn]
    omega
  have hs8 : s.length / 8 = n := by omega
  have hs0 : ¬ 4 ≤ s.length % 8 := by omega
  have hs4 : s.drop (s.length - s.length % 4) = [] := by
    rw [List.drop_eq_nil_iff]
    omega
  simp only [wordTotal, hdiv, hmod, htail, hrest, Nat.mul_add, List.range_add, List.map_append,
    List.map_map, Function.comp_def, List.sum_append, List.map_congr_left hwords, hs8, hs0, hs4,
    if_false, List.map_nil, List.sum_nil, Nat.add_zero]
  omega

theorem wordTotal_eq_sum (s : List UInt8) : wordTotal s = (addends s).sum := by
  simp only [wordTotal, addends, List.sum_append]
  split_ifs
  · simp
  · simp

theorem sumWords_append {w : List UInt8} (hw : w.length = 8) (hash : UInt64) (t : List UInt8) :
    sumWords hash (w ++ t) = sumWords (hash + readWord w) t := by
  match w, hw with
  | [_, _, _, _, _, _, _, _], _ =>
    -- the compiled recursion unfolds at once, its equations do not
    delta sumWords
    rfl

theorem wordTotal_word {w : List UInt8} (hw : w.length = 8) : wordTotal w = leWord w := by
  match w, hw with
  | [_, _, _, _, _, _, _, _], _ => simp [wordTotal, List.range_succ]

theorem sumWords_half {w t : List UInt8} (hw : w.length = 4) (ht : t.length < 4) (hash : UInt64) :
    sumWords hash (w ++ t) = sumWords (hash + readWord w) t := by
  obtain ⟨a, b, c, d, rfl⟩ := List.length_eq_four.mp hw
  rcases t with _ | ⟨_, _ | ⟨_, _ | ⟨_, _ | ⟨_, t⟩⟩⟩⟩
  · delta sumWords
    rfl
  · delta sumWords
    rfl
  · delta sumWords
    rfl
  · delta sumWords
    rfl
  · simp at ht
    omega

theorem sumWords_byte (ht : t.length < 3) (b : UInt8) (hash : UInt64) :
    sumWords hash (b :: t) = sumWords (hash + readWord [b]) t := by
  have hb : readWord [b] = b.toUInt64 := by simp [readWord]
  rw [hb]
  rcases t with _ | ⟨_, _ | ⟨_, _ | ⟨_, t⟩⟩⟩
  · delta sumWords
    rfl
  · delta sumWords
    rfl
  · delta sumWords
    rfl
  · simp at ht
    omega

theorem sumWords_bytes (hs : s.length < 4) (hash : UInt64) :
    (sumWords hash s).toNat = (hash.toNat + (s.map UInt8.toNat).sum) % 2 ^ 64 := by
  induction s generalizing hash with
  | nil => exact (Nat.mod_eq_of_lt hash.toNat_lt).symm
  | cons b s ih =>
    rw [List.length_cons] at hs
    rw [sumWords_byte (by omega), ih (by omega), UInt64.toNat_add, readWord_toNat]
    simp [leWord, Nat.add_assoc]

theorem wordTotal_bytes (hs : s.length < 4) : wordTotal s = (s.map UInt8.toNat).sum := by
  have hdiv : s.length / 8 = 0 := by omega
  have hmod : ¬ 4 ≤ s.length % 8 := by omega
  have hdrop : s.length - s.length % 4 = 0 := by omega
  simp [wordTotal, hdiv, hmod, hdrop]

theorem wordTotal_half {w : List UInt8} (hw : w.length = 4) (ht : t.length < 4) :
    wordTotal (w ++ t) = leWord w + (t.map UInt8.toNat).sum := by
  have hlen : (w ++ t).length = 4 + t.length := by rw [List.length_append, hw]
  have hdiv : (4 + t.length) / 8 = 0 := by omega
  have hmod : 4 ≤ (4 + t.length) % 8 := by omega
  have hdrop : 4 + t.length - (4 + t.length) % 4 = w.length := by omega
  simp only [wordTotal, hlen, hdiv, hmod, hdrop, if_true]
  simp [hw.symm]

theorem sumWords_short (hs : s.length < 8) (hash : UInt64) :
    (sumWords hash s).toNat = (hash.toNat + wordTotal s) % 2 ^ 64 := by
  by_cases h4 : s.length < 4
  · rw [sumWords_bytes h4, wordTotal_bytes h4]
  · have hw : (s.take 4).length = 4 := by
      rw [List.length_take]
      omega
    have ht : (s.drop 4).length < 4 := by
      rw [List.length_drop]
      omega
    rw [← List.take_append_drop 4 s, sumWords_half hw ht, sumWords_bytes ht,
      wordTotal_half hw ht, UInt64.toNat_add, readWord_toNat]
    simp [Nat.add_assoc]

theorem sumWords_toNat (hash : UInt64) (s : List UInt8) :
    (sumWords hash s).toNat = (hash.toNat + wordTotal s) % 2 ^ 64 := by
  induction hn : s.length using Nat.strong_induction_on generalizing s hash with
  | h n ih =>
    by_cases hs : s.length < 8
    · exact sumWords_short hs hash
    · have hw : (s.take 8).length = 8 := by
        rw [List.length_take]
        omega
      have hd : (s.drop 8).length < n := by
        rw [List.length_drop]
        omega
      have hsum : wordTotal s = leWord (s.take 8) + wordTotal (s.drop 8) := by
        rw [← wordTotal_word hw, ← wordTotal_append (by omega), List.take_append_drop]
      rw [← List.take_append_drop 8 s, sumWords_append hw, ih _ hd _ _ rfl,
        List.take_append_drop, hsum, UInt64.toNat_add, readWord_toNat]
      simp [Nat.add_assoc]

theorem sumWords_zero (s : List UInt8) : (sumWords 0 s).toNat = wordSum s := by
  rw [sumWords_toNat, wordSum]
  simp

def stride (len : ℕ) : ℕ := if 8 ≤ len then 8 else if 4 ≤ len then 4 else 1

theorem stride_pos (len : ℕ) : 0 < stride len := by
  unfold stride
  split_ifs <;> omega

theorem stride_le {len : ℕ} (hlen : 0 < len) : stride len ≤ len := by
  unfold stride
  split_ifs <;> omega

theorem sumWords_stride (hs : 0 < s.length) (hash : UInt64) :
    sumWords hash s =
      sumWords (hash + readWord (s.take (stride s.length))) (s.drop (stride s.length)) := by
  by_cases h8 : 8 ≤ s.length
  · have hn : stride s.length = 8 := by simp [stride, h8]
    rw [hn, ← sumWords_append (by simpa using h8), List.take_append_drop]
  · by_cases h4 : 4 ≤ s.length
    · have hn : stride s.length = 4 := by simp [stride, h8, h4]
      have ht : (s.drop 4).length < 4 := by
        rw [List.length_drop]
        omega
      rw [hn, ← sumWords_half (by simpa using h4) ht, List.take_append_drop]
    · have hn : stride s.length = 1 := by simp [stride, h8, h4]
      obtain ⟨b, t, rfl⟩ := List.exists_cons_of_length_pos hs
      rw [List.length_cons] at h4
      rw [hn]
      exact sumWords_byte (by omega) b hash

theorem sumWords_nil (hash : UInt64) : sumWords hash [] = hash := rfl

theorem hashStrLoop_step {pos fuel len : ℕ} (hlen : 0 < len) (hpos : pos + len = s.length)
    (hash : UInt64) (seen : List ℕ) : hashStrLoop s (fuel + 1) pos len hash seen =
      hashStrLoop s fuel (pos + stride len) (len - stride len : ℕ)
        (hash + readWord ((s.drop pos).take (stride len)))
        (seen ++ List.range' pos (stride len)) := by
  have hle := stride_le hlen
  have hn : (if (8 : ℤ) ≤ len then 8 else if (4 : ℤ) ≤ len then 4 else 1) = stride len := by
    simp only [stride, Nat.ofNat_le_cast]
  have hsub : (len : ℤ) - (stride len : ℕ) = (len - stride len : ℕ) := by omega
  simp only [hashStrLoop, Nat.cast_pos, hlen, if_true, hn, hsub]
  rw [if_pos (by omega)]

theorem hashStrLoop_done (hash : UInt64) (seen : List ℕ) (fuel pos : ℕ) :
    hashStrLoop s fuel pos (0 : ℕ) hash seen = some (hash, seen) := by
  cases fuel with
  | zero => rfl
  | succ fuel => rfl

theorem hashStrLoop_eq {pos fuel len : ℕ} (hpos : pos + len = s.length) (hf : len ≤ fuel)
    (hash : UInt64) (seen : List ℕ) : hashStrLoop s fuel pos len hash seen =
      some (sumWords hash (s.drop pos), seen ++ List.range' pos len) := by
  have hdrop : (s.drop pos).length = len := by
    rw [List.length_drop]
    omega
  induction fuel generalizing pos len hash seen with
  | zero =>
    obtain rfl : len = 0 := by omega
    rw [List.length_eq_zero_iff.mp hdrop, hashStrLoop_done, sumWords_nil, List.range'_zero,
      List.append_nil]
  | succ fuel ih =>
    rcases Nat.eq_zero_or_pos len with rfl | hlen
    · rw [List.length_eq_zero_iff.mp hdrop, hashStrLoop_done, sumWords_nil, List.range'_zero,
        List.append_nil]
    · have hle := stride_le hlen
      have hpos' := stride_pos len
      have hsum := sumWords_stride (s := s.drop pos) (by omega) hash
      rw [hdrop, List.drop_drop] at hsum
      have hseen : List.range' pos (stride len) ++
          List.range' (pos + stride len) (len - stride len) = List.range' pos len := by
        rw [List.range'_append_1, Nat.add_sub_cancel' hle]
      have hrest : (s.drop (pos + stride len)).length = len - stride len := by
        rw [List.length_drop]
        omega
      rw [hashStrLoop_step hlen hpos, ih (by omega) (by omega) _ _ hrest, hsum,
        List.append_assoc, hseen]

theorem hash32_toNat (val : UInt32) (hb : 1 ≤ bits.toNat) (hb' : bits.toNat ≤ 32) :
    (hash32 val bits).toNat =
      (val.toNat * 0x9e370001 % 2 ^ 32) >>> (32 - bits.toNat) := by
  have hle : bits ≤ 32 := UInt32.le_iff_toNat_le.mpr hb'
  have hsub : (32 - bits).toNat = 32 - bits.toNat := UInt32.toNat_sub_of_le 32 bits hle
  have hcount : (32 - bits.toNat) % 32 = 32 - bits.toNat := Nat.mod_eq_of_lt (by omega)
  rw [hash32, UInt32.toNat_shiftRight, UInt32.toNat_mul, hsub, hcount]
  rfl

theorem hash64Fast_toNat (val : UInt64) (hb : 1 ≤ bits.toNat) (hb' : bits.toNat ≤ 64) :
    (hash64Fast val bits).toNat =
      (val.toNat * 0x9e37fffffffc0001 % 2 ^ 64) >>> (64 - bits.toNat) := by
  have hle : bits ≤ 64 := UInt32.le_iff_toNat_le.mpr hb'
  have hsub : (64 - bits).toNat = 64 - bits.toNat := UInt32.toNat_sub_of_le 64 bits hle
  have hcount : (64 - bits.toNat) % 64 = 64 - bits.toNat := Nat.mod_eq_of_lt (by omega)
  rw [hash64Fast, UInt64.toNat_shiftRight, UInt64.toNat_mul, UInt32.toNat_toUInt64, hsub,
    hcount]
  rfl

theorem shiftLeft_const (n : UInt64) {k : ℕ} (hk : k < 64) :
    n <<< UInt64.ofNat k = n * UInt64.ofNat (2 ^ k) := by
  apply UInt64.toNat_inj.mp
  have hlt : k < 2 ^ 64 := by omega
  have hp : 2 ^ k < 2 ^ 64 := Nat.pow_lt_pow_right (by omega) hk
  rw [UInt64.toNat_shiftLeft, UInt64.toNat_mul, UInt64.toNat_ofNat_of_lt' hlt,
    UInt64.toNat_ofNat_of_lt' hp, Nat.mod_eq_of_lt hk, Nat.shiftLeft_eq]

theorem hash64_eq_fast (val : UInt64) (bits : UInt32) : hash64 val bits = hash64Fast val bits := by
  have h18 (n : UInt64) : n <<< 18 = n * 262144 := shiftLeft_const n (by decide : 18 < 64)
  have h33 (n : UInt64) : n <<< 33 = n * 8589934592 := shiftLeft_const n (by decide : 33 < 64)
  have h3 (n : UInt64) : n <<< 3 = n * 8 := shiftLeft_const n (by decide : 3 < 64)
  have h4 (n : UInt64) : n <<< 4 = n * 16 := shiftLeft_const n (by decide : 4 < 64)
  have h2 (n : UInt64) : n <<< 2 = n * 4 := shiftLeft_const n (by decide : 2 < 64)
  simp only [hash64, hash64Fast, h18, h33, h3, h4, h2, goldenRatioPrime64]
  congr 1
  grind

def hashOf (sum bits : ℕ) : ℕ :=
  if bits ≤ 32 then (sum % 2 ^ 32 * 0x9e370001 % 2 ^ 32) >>> (32 - bits)
  else (sum * 0x9e37fffffffc0001 % 2 ^ 64) >>> (64 - bits)

theorem hashStr_toNat (s : List UInt8) (hb : 1 ≤ bits.toNat) (hb' : bits.toNat ≤ 64) :
    (hashStr s bits).toNat = hashOf (wordSum s) bits.toNat := by
  by_cases h32 : bits ≤ 32
  · have h32' : bits.toNat ≤ 32 := UInt32.le_iff_toNat_le.mp h32
    simp only [hashStr, hashOf, if_pos h32, if_pos h32', UInt32.toNat_toUInt64]
    rw [hash32_toNat _ hb h32', UInt64.toNat_toUInt32, sumWords_zero]
  · have h32' : ¬ bits.toNat ≤ 32 := fun h => h32 (UInt32.le_iff_toNat_le.mpr h)
    simp only [hashStr, hashOf, if_neg h32, if_neg h32']
    rw [hash64_eq_fast, hash64Fast_toNat _ hb hb', sumWords_zero]

theorem hashStrFast_eq (s : List UInt8) (bits : UInt32) : hashStrFast s bits = hashStr s bits := by
  simp only [hashStrFast, hashStr, hash64_eq_fast]

theorem hashOf_lt {n b : ℕ} (hb : b ≤ 64) : hashOf n b < 2 ^ b := by
  have hshift (v w : ℕ) (hw : b ≤ w) : (v % 2 ^ w) >>> (w - b) < 2 ^ b := by
    rw [Nat.shiftRight_eq_div_pow, Nat.div_lt_iff_lt_mul (Nat.two_pow_pos _), ← Nat.pow_add,
      Nat.add_sub_cancel' hw]
    exact Nat.mod_lt _ (Nat.two_pow_pos w)
  unfold hashOf
  split_ifs with h32
  · exact hshift _ 32 h32
  · exact hshift _ 64 hb

theorem hashOf_32 (sum : ℕ) : hashOf sum 32 = sum * 0x9e370001 % 2 ^ 32 := by
  simp only [hashOf, Nat.le_refl, if_true, Nat.sub_self, Nat.shiftRight_zero, Nat.mod_mul_mod]

theorem wordSum_append (hs : 8 ∣ s.length) (t : List UInt8) :
    wordSum (s ++ t) = (wordSum s + wordSum t) % 2 ^ 64 := by
  rw [wordSum, wordTotal_append hs, wordSum, wordSum, Nat.add_mod]

theorem hashOf_add (m n : ℕ) {b : ℕ} (hb : b = 32 ∨ b = 64) :
    hashOf ((m + n) % 2 ^ 64) b = (hashOf m b + hashOf n b) % 2 ^ b := by
  rcases hb with rfl | rfl
  · have hdvd : 2 ^ 32 ∣ 2 ^ 64 := Nat.pow_dvd_pow 2 (by decide)
    rw [hashOf_32, hashOf_32, hashOf_32, ← Nat.mod_mul_mod, Nat.mod_mod_of_dvd _ hdvd,
      Nat.mod_mul_mod, Nat.add_mul, Nat.add_mod]
  · simp only [hashOf, (by decide : ¬ 64 ≤ 32), if_false, Nat.sub_self, Nat.shiftRight_zero]
    rw [Nat.mod_mul_mod, Nat.add_mul, Nat.add_mod]

/-- The loop sums the words of the string, and the result depends on the sum only. -/
theorem hashStr_closed_form (s : List UInt8) :
    (∀ fuel, s.length ≤ fuel →
      hashStrLoop s fuel 0 s.length 0 [] = some (sumWords 0 s, List.range s.length)) ∧
    (sumWords 0 s).toNat = wordSum s ∧
    (∀ bits : UInt32, 1 ≤ bits.toNat → bits.toNat ≤ 64 →
      (hashStr s bits).toNat = hashOf (wordSum s) bits.toNat ∧
      hashStrFast s bits = hashStr s bits ∧ (hashStr s bits).toNat < 2 ^ bits.toNat) ∧
    ∀ (t : List UInt8) (bits : UInt32), bits = 32 ∨ bits = 64 → 8 ∣ s.length →
      (hashStr (s ++ t) bits).toNat =
        ((hashStr s bits).toNat + (hashStr t bits).toNat) % 2 ^ bits.toNat := by
  constructor
  · intro fuel hf
    rw [hashStrLoop_eq (Nat.zero_add _) hf, List.drop_zero, List.nil_append, List.range_eq_range']
  constructor
  · exact sumWords_zero s
  constructor
  · intro bits hb hb'
    have heq := hashStr_toNat s hb hb'
    refine ⟨heq, hashStrFast_eq s bits, ?_⟩
    rw [heq]
    exact hashOf_lt hb'
  · intro t bits hbits hs
    have hb : bits.toNat = 32 ∨ bits.toNat = 64 :=
      hbits.imp (congrArg UInt32.toNat) (congrArg UInt32.toNat)
    have hpos : 1 ≤ bits.toNat := by omega
    have hle : bits.toNat ≤ 64 := by omega
    rw [hashStr_toNat _ hpos hle, hashStr_toNat _ hpos hle, hashStr_toNat _ hpos hle,
      wordSum_append hs, hashOf_add _ _ hb]

theorem hashStr_closed_form_word :
    hashStrLoop [1, 0, 0, 0, 0, 0, 0, 2] 8 0 8 0 [] = some (0x200000000000001, List.range 8) ∧
    wordSum [1, 0, 0, 0, 0, 0, 0, 2] = 0x200000000000001 ∧
    (hashStr [1, 0, 0, 0, 0, 0, 0, 2] 33).toNat = hashOf 0x200000000000001 33 ∧
    (hashStr [1, 0, 0, 0, 0, 0, 0, 2, 7, 7, 7, 7, 9] 64).toNat =
      ((hashStr [1, 0, 0, 0, 0, 0, 0, 2] 64).toNat + (hashStr [7, 7, 7, 7, 9] 64).toNat) %
        2 ^ 64 := by
  obtain ⟨hloop, hsum, hval, hadd⟩ := hashStr_closed_form [1, 0, 0, 0, 0, 0, 0, 2]
  exact ⟨hloop 8 (by decide), hsum.symm, (hval 33 (by decide) (by decide)).1,
    hadd [7, 7, 7, 7, 9] 64 (Or.inr rfl) (by decide)⟩

end
end KernelHashtable.Hash
