import KernelHashtable.AssocCollision
import KernelHashtable.HashStrSpread
import Mathlib.Data.Set.Card
import Mathlib.Data.Vector.Basic

/-!
# How the keys of one size fall into the buckets

The first four bytes of a key are a word that is added to the rest of its sum, and the bucket is
a remainder of the product with an odd number, so that the keys of four bytes or more fall
evenly. A shorter key is hashed by the sum of its bytes, which cannot reach many buckets.
-/

namespace KernelHashtable.Assoc
open Hash Hashtable HList KList

section
variable {bits : UInt32}

theorem keyBucket_spread (hb : bits.toNat ≤ 32) (m : ℕ) :
    Spread (fun a : Fin (4 + m) → UInt8 => keyBucket bits (List.ofFn a)) (2 ^ bits.toNat)
      (2 ^ (32 - bits.toNat) * 256 ^ m) := by
  have hdvd : 2 ^ bits.toNat ∣ 2 ^ 32 := Nat.pow_dvd_pow 2 hb
  have hsplit : 2 ^ 32 = 2 ^ (32 - bits.toNat) * 2 ^ bits.toNat := by
    rw [← Nat.pow_add, Nat.sub_add_cancel hb]
  have hodd : Nat.Coprime (2 ^ bits.toNat) 0x9e370001 := Nat.Coprime.pow_left _ (by decide)
  have hlow := (hsplit ▸ wordSum_spread_four m : Spread (fun a : Fin (4 + m) → UInt8 =>
    wordSum (List.ofFn a) % 2 ^ 32) (2 ^ (32 - bits.toNat) * 2 ^ bits.toNat) (256 ^ m)).mod
  simpa only [Nat.mod_mod_of_dvd _ hdvd, Nat.mod_mul_mod, ← keyBucket_eq hb] using
    hlow.mul_mod hodd

def keyVector {n : ℕ} (hn : n < 256) : {k : Key // k.bytes.length = n} ≃ List.Vector UInt8 n :=
  ⟨fun k => ⟨k.1.bytes, k.2⟩, fun v => ⟨⟨v.1, v.2.trans_lt hn⟩, v.2⟩, fun _ => rfl, fun _ => rfl⟩

def keyEquiv {n : ℕ} (hn : n < 256) : {k : Key // k.bytes.length = n} ≃ (Fin n → UInt8) :=
  (keyVector hn).trans (Equiv.vectorEquivFin UInt8 n)

theorem keyEquiv_bytes {n : ℕ} (hn : n < 256) (k : {k : Key // k.bytes.length = n}) :
    List.ofFn (keyEquiv hn k) = k.1.bytes := by
  have hv := congrArg List.Vector.toList (List.Vector.ofFn_get (keyVector hn k))
  rwa [List.Vector.toList_ofFn] at hv

theorem place_spread (hb : bits.toNat ≤ 32) {n : ℕ} (hn : 4 ≤ n) (hn' : n < 256) :
    Spread (fun k : {k : Key // k.bytes.length = n} => keyBucket bits k.1.bytes)
      (2 ^ bits.toNat) (2 ^ (8 * n - bits.toNat)) := by
  obtain ⟨m, rfl⟩ := Nat.exists_eq_add_of_le hn
  have hcount : 2 ^ (32 - bits.toNat) * 256 ^ m = 2 ^ (8 * (4 + m) - bits.toNat) :=
    count_eq rfl rfl hb
  have hkeys := (keyBucket_spread hb m).comp_equiv (keyEquiv hn')
  simpa only [keyEquiv_bytes, hcount] using hkeys

theorem sum_bytes_le (s : List UInt8) : (s.map UInt8.toNat).sum ≤ 255 * s.length := by
  induction s with
  | nil => simp
  | cons b s ih =>
    have hb : b.toNat < 256 := b.toNat_lt
    simp only [List.map_cons, List.sum_cons, List.length_cons]
    omega

theorem exists_sum_bytes {n t : ℕ} (ht : t ≤ 255 * n) :
    ∃ s : List UInt8, s.length = n ∧ (s.map UInt8.toNat).sum = t := by
  induction n generalizing t with
  | zero =>
    have ht : t = 0 := by omega
    exact ⟨[], rfl, ht.symm⟩
  | succ n ih =>
    obtain ⟨s, hs, hsum⟩ := ih (t := t - min t 255) (by omega)
    have hbyte : (UInt8.ofNat (min t 255)).toNat = min t 255 :=
      UInt8.toNat_ofNat_of_lt' (by simp only [UInt8.size]; omega)
    refine ⟨UInt8.ofNat (min t 255) :: s, by simp [hs], ?_⟩
    rw [List.map_cons, List.sum_cons, hsum, hbyte]
    omega

theorem place_short (hb : bits.toNat ≤ 32) {n : ℕ} (hn : n < 4) :
    Set.ncard {b | ∃ k : Key, k.bytes.length = n ∧ keyBucket bits k.bytes = b} =
      min (255 * n + 1) (2 ^ bits.toNat) := by
  have hodd : Nat.Coprime (2 ^ bits.toNat) 0x9e370001 := Nat.Coprime.pow_left _ (by decide)
  have hplace : ∀ s : List UInt8, s.length = n → keyBucket bits s =
      (s.map UInt8.toNat).sum % 2 ^ bits.toNat * 0x9e370001 % 2 ^ bits.toNat := by
    intro s hs
    have hdvd : 2 ^ bits.toNat ∣ 2 ^ 64 := Nat.pow_dvd_pow 2 (by omega)
    rw [keyBucket_eq hb, Nat.mul_mod, wordSum, Nat.mod_mod_of_dvd _ hdvd,
      wordTotal_bytes (by omega), ← Nat.mul_mod, Nat.mod_mul_mod]
  have himage : {b | ∃ k : Key, k.bytes.length = n ∧ keyBucket bits k.bytes = b} =
      (fun t => t * 0x9e370001 % 2 ^ bits.toNat) ''
        Set.Iio (min (255 * n + 1) (2 ^ bits.toNat)) := by
    ext b
    constructor
    · rintro ⟨k, hk, rfl⟩
      have hle := sum_bytes_le k.bytes
      have hmod := Nat.mod_le (k.bytes.map UInt8.toNat).sum (2 ^ bits.toNat)
      have hlt := Nat.mod_lt (k.bytes.map UInt8.toNat).sum (Nat.two_pow_pos bits.toNat)
      exact ⟨_, Set.mem_Iio.mpr (by omega), (hplace k.bytes hk).symm⟩
    · rintro ⟨t, ht, rfl⟩
      have ht : t < min (255 * n + 1) (2 ^ bits.toNat) := ht
      obtain ⟨s, hs, hsum⟩ := exists_sum_bytes (n := n) (t := t) (by omega)
      have hlt : t < 2 ^ bits.toNat := ht.trans_le (min_le_right _ _)
      exact ⟨⟨s, by omega⟩, hs, by rw [hplace s hs, hsum, Nat.mod_eq_of_lt hlt]⟩
  have hinj : Set.InjOn (fun t => t * 0x9e370001 % 2 ^ bits.toNat)
      (Set.Iio (min (255 * n + 1) (2 ^ bits.toNat))) := by
    intro t ht u hu h
    have ht : t < min (255 * n + 1) (2 ^ bits.toNat) := ht
    have hu : u < min (255 * n + 1) (2 ^ bits.toNat) := hu
    have hmod : t ≡ u [MOD 2 ^ bits.toNat] := Nat.ModEq.cancel_right_of_coprime hodd h
    exact hmod.eq_of_lt_of_lt (by omega) (by omega)
  rw [himage, hinj.ncard_image, ← Finset.coe_Iio, Set.ncard_coe_finset, Nat.card_Iio]

end

/-- In a reachable array an addition chains the entry in the bucket of the key. Each bucket is
that of equally many keys of one size from four bytes on; the keys of `n < 4` bytes reach
only `255 * n + 1` buckets, or all of them where there are fewer. -/
theorem arrayAdd_spread {cb : Callbacks} {arr : AssocArray} (hr : Reachable cb arr) :
    ∃ place : Key → ℕ,
      (∀ data, cb.Accepts data → ∀ (k : Key) arr',
        arrayAdd arr data k.ptr k.size = some (0, arr') →
        ∃ e, arrayGetLast arr' = some (.addr (.node e)) ∧ ∀ b, InBucket arr' e b ↔ b = place k) ∧
      (∀ n, 4 ≤ n → n < 256 → Spread (fun k : {k : Key // k.bytes.length = n} => place k.1)
        (2 ^ arr.ht.bits.toNat) (2 ^ (8 * n - arr.ht.bits.toNat))) ∧
      ∀ n < 4, Set.ncard {b | ∃ k : Key, k.bytes.length = n ∧ place k = b} =
        min (255 * n + 1) (2 ^ arr.ht.bits.toNat) := by
  obtain ⟨cs, hrep, rfl⟩ := hr.rep
  have hb : arr.ht.bits.toNat ≤ 32 := hrep.bits_lt.le
  exact ⟨fun k => keyBucket arr.ht.bits k.bytes, fun _ hd _ _ hadd => hrep.add_inBucket hd hadd,
    fun _ => place_spread hb, fun _ => place_short hb⟩

theorem arrayAdd_spread_three : ∃ arr h arr₁ e b, arrayCreate (Heap.start fun _ _ => true) .zero 2
      (.default fun _ => false) = some (some arr, h) ∧
    arrayAdd arr 70 (.caller [7, 8, 9]) 3 = some (0, arr₁) ∧
    arrayGetLast arr₁ = some (.addr (.node e)) ∧ InBucket arr₁ e b ∧
    ∃ place : Key → ℕ, place ⟨[7, 8, 9], by decide⟩ = b ∧
      Set.ncard {b | ∃ k : Key, k.bytes.length = 0 ∧ place k = b} = 1 ∧
      Nat.card {k : {k : Key // k.bytes.length = 5} // place k.1 = b} = 2 ^ 38 := by
  obtain ⟨arr, h, hc⟩ : ∃ arr h, arrayCreate (Heap.start fun _ _ => true) .zero 2
      (.default fun _ => false) = some (some arr, h) := ⟨_, _, rfl⟩
  obtain ⟨arr₁, hadd⟩ : ∃ arr₁, arrayAdd arr 70 (.caller [7, 8, 9]) 3 = some (0, arr₁) := by
    cases hc
    exact ⟨_, rfl⟩
  have hbits : arr.ht.bits = 2 ∧ arr₁.ht.bits = 2 := by
    cases hc
    cases hadd
    exact ⟨rfl, rfl⟩
  obtain ⟨place, hplace, hspread, hshort⟩ := arrayAdd_spread
    (⟨_, _, 2, arr, h, [], [], by decide, hc, by simp, rfl⟩ : Reachable _ arr)
  obtain ⟨e, hlast, hin⟩ := hplace 70 trivial ⟨[7, 8, 9], by decide⟩ arr₁ hadd
  have hb := (hin _).mpr rfl
  have hlt := hb.1
  rw [hbits.1] at hspread hshort
  rw [hbits.2] at hlt
  have hfive := (hspread 5 (by decide) (by decide)).card _ hlt
  exact ⟨arr, h, arr₁, e, _, hc, hadd, hlast, hb, place, rfl, hshort 0 (by decide), hfive⟩

end KernelHashtable.Assoc
