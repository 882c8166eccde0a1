import KernelHashtable.HashSpread
import Mathlib.Data.Fin.Tuple.Basic

/-!
# How hash_str spreads the strings of one length

The first bytes of a string are a word that is added to the rest of the sum. So the sums are
spread from the length on at which this word is as wide as the sum, and their hash is as well.
-/

namespace KernelHashtable.Hash

theorem byte_lt (s : List UInt8) : ∀ x ∈ s.map UInt8.toNat, x < 256 := by
  intro x hx
  obtain ⟨b, -, rfl⟩ := List.mem_map.mp hx
  exact b.toNat_lt

theorem leWord_lt (s : List UInt8) : leWord s < 256 ^ s.length := by
  simpa [leWord] using Nat.ofDigits_lt_base_pow_length (by decide) (byte_lt s)

theorem leWord_inj {s t : List UInt8} (hlen : s.length = t.length) (h : leWord s = leWord t) :
    s = t := by
  have hmap := Nat.ofDigits_inj_of_len_eq (by decide) (by simpa using hlen) (byte_lt s)
    (byte_lt t) h
  exact List.map_injective_iff.mpr (fun _ _ => UInt8.toNat_inj.mp) hmap

theorem leWord_spread (k : ℕ) :
    Spread (fun a : Fin k → UInt8 => leWord (List.ofFn a)) (256 ^ k) 1 := by
  refine Spread.of_injective (fun a b h => ?_) (fun a => ?_) (card_bytes k).ge
  · exact List.ofFn_injective (leWord_inj (by simp) h)
  · simpa using leWord_lt (List.ofFn a)

theorem lead_spread {k M : ℕ} (hM : 256 ^ k = M) (sum tail : List UInt8 → ℕ)
    (hsum : ∀ w r : List UInt8, w.length = k → sum (w ++ r) = (leWord w + tail r) % M) (m : ℕ) :
    Spread (fun a : Fin (k + m) → UInt8 => sum (List.ofFn a)) M (256 ^ m) := by
  have hall := Spread.family fun rest : Fin m → UInt8 =>
    (hM ▸ leWord_spread k).add_mod (tail (List.ofFn rest))
  rw [card_bytes, Nat.one_mul] at hall
  have heq : ∀ a : Fin (k + m) → UInt8, sum (List.ofFn a) =
      (leWord (List.ofFn ((Fin.appendEquiv k m).symm a).1) +
        tail (List.ofFn ((Fin.appendEquiv k m).symm a).2)) % M := by
    intro a
    obtain ⟨p, rfl⟩ := (Fin.appendEquiv k m).surjective a
    rw [Equiv.symm_apply_apply, ← hsum _ _ (by simp), ← List.ofFn_fin_append]
    rfl
  simpa only [heq] using hall.comp_equiv (Fin.appendEquiv k m).symm

def tailSum (r : List UInt8) : ℕ :=
  if 4 ≤ r.length then wordTotal (r.drop 4) else (r.map UInt8.toNat).sum

theorem wordSum_lead_four {w : List UInt8} (hw : w.length = 4) (r : List UInt8) :
    wordSum (w ++ r) % 2 ^ 32 = (leWord w + tailSum r) % 2 ^ 32 := by
  have hdvd : 2 ^ 32 ∣ 2 ^ 64 := Nat.pow_dvd_pow 2 (by decide)
  rw [wordSum, Nat.mod_mod_of_dvd _ hdvd, tailSum]
  split_ifs with hr
  · have hfirst : (w ++ r.take 4).length = 8 := by
      simp [hw, hr]
    have hsplit : w ++ r = (w ++ r.take 4) ++ r.drop 4 := by
      rw [List.append_assoc, List.take_append_drop]
    have hword : leWord (w ++ r.take 4) = leWord w + 2 ^ 32 * leWord (r.take 4) := by
      rw [leWord, leWord, leWord, List.map_append, Nat.ofDigits_append, List.length_map, hw,
        show 256 ^ 4 = 2 ^ 32 from by decide]
    rw [hsplit, wordTotal_append (by omega), wordTotal_word hfirst, hword, Nat.add_right_comm,
      Nat.add_mul_mod_self_left]
  · rw [wordTotal_half hw (by omega)]

theorem wordSum_lead_eight {w : List UInt8} (hw : w.length = 8) (r : List UInt8) :
    wordSum (w ++ r) = (leWord w + wordTotal r) % 2 ^ 64 := by
  rw [wordSum, wordTotal_append (by omega), wordTotal_word hw]

theorem wordSum_spread_four (m : ℕ) :
    Spread (fun a : Fin (4 + m) → UInt8 => wordSum (List.ofFn a) % 2 ^ 32) (2 ^ 32) (256 ^ m) :=
  lead_spread (by decide) (fun s => wordSum s % 2 ^ 32) tailSum
    (fun _ r hw => wordSum_lead_four hw r) m

theorem wordSum_spread_eight (m : ℕ) :
    Spread (fun a : Fin (8 + m) → UInt8 => wordSum (List.ofFn a)) (2 ^ 64) (256 ^ m) :=
  lead_spread (by decide) wordSum wordTotal (fun _ r hw => wordSum_lead_eight hw r) m

/-- Every value of `hash_str` is that of equally many strings of a length, from four bytes on,
or from eight on where it has more than 32 bits. -/
theorem hashStr_spread (bits : UInt32) (hb : 1 ≤ bits.toNat) (hb' : bits.toNat ≤ 64) (n : ℕ)
    (hn : 4 ≤ n) (hn' : 32 < bits.toNat → 8 ≤ n) : ∀ hash ∈ [hashStr, hashStrFast],
      Spread (fun a : Fin n → UInt8 => (hash (List.ofFn a) bits).toNat) (2 ^ bits.toNat)
        (2 ^ (8 * n - bits.toNat)) := by
  have hspread : Spread (fun a : Fin n → UInt8 => (hashStr (List.ofFn a) bits).toNat)
      (2 ^ bits.toNat) (2 ^ (8 * n - bits.toNat)) := by
    simp only [hashStr_toNat _ hb hb', hashOf]
    split_ifs with h32
    · obtain ⟨m, rfl⟩ := Nat.exists_eq_add_of_le hn
      rw [← count_eq (w := 32) (k := 4) rfl rfl h32]
      exact spread_product (wordSum_spread_four m) (by decide) h32
    · obtain ⟨m, rfl⟩ := Nat.exists_eq_add_of_le (hn' (by omega))
      rw [← count_eq (w := 64) (k := 8) rfl rfl hb']
      exact spread_product (wordSum_spread_eight m) (by decide) hb'
  intro hash hmem
  rcases List.mem_pair.mp hmem with rfl | rfl
  · exact hspread
  · simpa only [hashStrFast_eq] using hspread

theorem hashStr_spread_word :
    Nat.card {a : Fin 8 → UInt8 // (hashStr (List.ofFn a) 64).toNat = 77} = 1 ∧
      Nat.card {a : Fin 6 → UInt8 // (hashStr (List.ofFn a) 10).toNat = 77} = 2 ^ 38 := by
  have hwide := hashStr_spread 64 (by decide) (by decide) 8 (by decide) (by decide)
  have hshort := hashStr_spread 10 (by decide) (by decide) 6 (by decide) (by decide)
  exact ⟨(hwide hashStr (by simp)).card 77 (by decide),
    (hshort hashStr (by simp)).card 77 (by decide)⟩

end KernelHashtable.Hash
