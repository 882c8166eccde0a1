import KernelHashtable.AssocRuns
import KernelHashtable.HashSum
import KernelHashtable.Lib.ShiftMix
import Mathlib.Data.Int.ModEq

/-!
# Which keys of an associative array share a bucket

The multiplier of the hash is odd and the bucket is a remainder of the product, so a bucket
is a residue class of word sums. The high bits of the hash are not used.
-/

namespace KernelHashtable.Assoc
open Hash Hashtable HList KList

theorem hash32Str_toNat (s : List UInt8) :
    (hash32Str s).toNat = wordSum s * 0x9e370001 % 2 ^ 32 := by
  rw [hash32Str, hashStr_toNat s (by decide) (by decide)]
  exact hashOf_32 (wordSum s)

theorem keyBucket_eq {bits : UInt32} (hb : bits.toNat ≤ 32) (key : List UInt8) :
    keyBucket bits key = wordSum key * 0x9e370001 % 2 ^ bits.toNat := by
  have hdvd : 2 ^ bits.toNat ∣ 2 ^ 32 := Nat.pow_dvd_pow 2 hb
  rw [keyBucket, UInt64.toNat_toUInt32, hash32Str_toNat, Nat.mod_mod, Nat.mod_mod_of_dvd _ hdvd]

theorem keyBucket_eq_iff {bits : UInt32} (hb : bits.toNat ≤ 32) (s t : List UInt8) :
    keyBucket bits s = keyBucket bits t ↔
      wordSum s % 2 ^ bits.toNat = wordSum t % 2 ^ bits.toNat := by
  rw [keyBucket_eq hb, keyBucket_eq hb]
  exact mul_mod_two_pow_iff (by decide) _ _ _

theorem sum_mod_of_forall₂ {m : ℕ} {xs ys : List ℕ}
    (h : List.Forall₂ (fun x y => x % m = y % m) xs ys) : xs.sum % m = ys.sum % m := by
  induction h with
  | nil => rfl
  | cons hxy _ ih =>
    rw [List.sum_cons, List.sum_cons]
    exact Nat.ModEq.add hxy ih

theorem wordSum_mod {b : ℕ} (hb : b ≤ 64) (s : List UInt8) :
    wordSum s % 2 ^ b = (addends s).sum % 2 ^ b := by
  rw [wordSum, wordTotal_eq_sum, Nat.mod_mod_of_dvd _ (Nat.pow_dvd_pow 2 hb)]

theorem wordTotal_flatten {ws : List (List UInt8)} (hws : ∀ w ∈ ws, w.length = 8)
    (rest : List UInt8) :
    wordTotal (ws.flatten ++ rest) = (ws.map leWord).sum + wordTotal rest := by
  induction ws with
  | nil => simp
  | cons w ws ih =>
    have hw : w.length = 8 := hws w (by simp)
    rw [List.flatten_cons, List.append_assoc, wordTotal_append (by omega), wordTotal_word hw,
      ih (fun v hv => hws v (by simp [hv])), List.map_cons, List.sum_cons, Nat.add_assoc]

theorem wordSum_perm {ws ws' : List (List UInt8)} (hp : ws.Perm ws')
    (hws : ∀ w ∈ ws, w.length = 8) (rest : List UInt8) :
    wordSum (ws.flatten ++ rest) = wordSum (ws'.flatten ++ rest) := by
  have hws' : ∀ w ∈ ws', w.length = 8 := fun w hw => hws w (hp.mem_iff.mpr hw)
  rw [wordSum, wordSum, wordTotal_flatten hws, wordTotal_flatten hws', (hp.map leWord).sum_eq]

def InBucket (arr : AssocArray) (e b : ℕ) : Prop :=
  b < 2 ^ arr.ht.bits.toNat ∧ ∃ es, Threads arr.mem (.first b) es ∧ e ∈ es

section
variable {arr arr' : AssocArray} {cs : List Item} {c : Item} {k : Key} {data : ℕ}

theorem Rep.inBucket_iff (hr : Rep arr cs) (hc : c ∈ cs) (b : ℕ) :
    InBucket arr c.entry b ↔ b = keyBucket arr.ht.bits c.key.bytes := by
  constructor
  · rintro ⟨hb, es, hes, he⟩
    obtain rfl := hes.unique (hr.table.threads b hb)
    obtain ⟨d, hd, hdc⟩ := List.mem_map.mp he
    obtain ⟨hdcs, rfl⟩ := mem_chain.mp hd
    rw [List.inj_on_of_nodup_map hr.entries_nodup hdcs hc hdc]
  · rintro rfl
    have hlt := keyBucket_lt arr.ht.bits c.key.bytes
    exact ⟨hlt, _, hr.table.threads _ hlt, List.mem_map_of_mem (mem_chain.mpr ⟨hc, rfl⟩)⟩

theorem Rep.add_inBucket (hr : Rep arr cs) (hd : arr.cb.Accepts data)
    (hadd : arrayAdd arr data k.ptr k.size = some (0, arr')) :
    ∃ e, arrayGetLast arr' = some (.addr (.node e)) ∧
      ∀ b, InBucket arr' e b ↔ b = keyBucket arr.ht.bits k.bytes := by
  obtain ⟨code, arr₁, cs', hadd', hcase⟩ := hr.add (k := k) hd
  obtain ⟨rfl, rfl⟩ : code = 0 ∧ arr₁ = arr' := by simpa using hadd'.symm.trans hadd
  rcases hcase with ⟨-, -, hm, c, rfl, -, rfl⟩ | ⟨-, hcode, -⟩
  · refine ⟨c.entry, hm.rep.getLast_concat, fun b => ?_⟩
    rw [← hm.ht]
    exact hm.rep.inBucket_iff (by simp) b
  · cases hcode

end

/-- Two additions to reachable arrays of equally many buckets choose the same bucket if and
only if the word sums of the keys agree modulo that number. -/
theorem arrayAdd_same_bucket_iff {cb₁ cb₂ : Callbacks} {arr₁ arr₁' arr₂ arr₂' : AssocArray}
    (hr₁ : Reachable cb₁ arr₁) (hr₂ : Reachable cb₂ arr₂) (hbits : arr₂.ht.bits = arr₁.ht.bits)
    {d₁ d₂ : ℕ} (hd₁ : cb₁.Accepts d₁) (hd₂ : cb₂.Accepts d₂) (k₁ k₂ : Key)
    (hadd₁ : arrayAdd arr₁ d₁ k₁.ptr k₁.size = some (0, arr₁'))
    (hadd₂ : arrayAdd arr₂ d₂ k₂.ptr k₂.size = some (0, arr₂')) :
    ∃ e₁ e₂ b₁ b₂, arrayGetLast arr₁' = some (.addr (.node e₁)) ∧
      arrayGetLast arr₂' = some (.addr (.node e₂)) ∧
      (∀ b, InBucket arr₁' e₁ b ↔ b = b₁) ∧ (∀ b, InBucket arr₂' e₂ b ↔ b = b₂) ∧
      (b₁ = b₂ ↔ wordSum k₁.bytes % 2 ^ arr₁.ht.bits.toNat =
        wordSum k₂.bytes % 2 ^ arr₁.ht.bits.toNat) ∧
      (List.Forall₂ (fun w₁ w₂ => w₁ % 2 ^ arr₁.ht.bits.toNat = w₂ % 2 ^ arr₁.ht.bits.toNat)
        (addends k₁.bytes) (addends k₂.bytes) → b₁ = b₂) ∧
      ∀ (ws ws' : List (List UInt8)) (rest : List UInt8), (∀ w ∈ ws, w.length = 8) →
        ws.Perm ws' → k₁.bytes = ws.flatten ++ rest → k₂.bytes = ws'.flatten ++ rest →
        b₁ = b₂ := by
  obtain ⟨cs₁, hrep₁, rfl⟩ := hr₁.rep
  obtain ⟨cs₂, hrep₂, rfl⟩ := hr₂.rep
  have hb : arr₁.ht.bits.toNat ≤ 32 := hrep₁.bits_lt.le
  obtain ⟨e₁, hlast₁, hin₁⟩ := hrep₁.add_inBucket hd₁ hadd₁
  obtain ⟨e₂, hlast₂, hin₂⟩ := hrep₂.add_inBucket hd₂ hadd₂
  rw [hbits] at hin₂
  have hiff := keyBucket_eq_iff hb k₁.bytes k₂.bytes
  refine ⟨e₁, e₂, _, _, hlast₁, hlast₂, hin₁, hin₂, hiff, fun hwords => hiff.mpr ?_, ?_⟩
  · rw [wordSum_mod (by omega), wordSum_mod (by omega)]
    exact sum_mod_of_forall₂ hwords
  · intro ws ws' rest hws hperm hk₁ hk₂
    rw [hiff, hk₁, hk₂, wordSum_perm hperm hws]

theorem arrayAdd_same_bucket_five : ∃ arr h arr₁ arr₂,
    arrayCreate (Heap.start fun _ _ => true) .zero 2 (.default fun _ => false) =
      some (some arr, h) ∧
    arrayAdd arr 70 (.caller [5]) 1 = some (0, arr₁) ∧
    arrayAdd arr₁ 71 (.caller [1, 2, 3, 4, 5, 6, 7, 8]) 8 = some (0, arr₂) ∧
    ∃ e₁ e₂ b, arrayGetLast arr₁ = some (.addr (.node e₁)) ∧
      arrayGetLast arr₂ = some (.addr (.node e₂)) ∧
      (∀ b', InBucket arr₁ e₁ b' ↔ b' = b) ∧ ∀ b', InBucket arr₂ e₂ b' ↔ b' = b := by
  obtain ⟨arr, h, hc⟩ : ∃ arr h, arrayCreate (Heap.start fun _ _ => true) .zero 2
      (.default fun _ => false) = some (some arr, h) := ⟨_, _, rfl⟩
  obtain ⟨arr₁, hadd₁⟩ : ∃ arr₁, arrayAdd arr 70 (.caller [5]) 1 = some (0, arr₁) := by
    cases hc
    exact ⟨_, rfl⟩
  obtain ⟨arr₂, hadd₂⟩ : ∃ arr₂,
      arrayAdd arr₁ 71 (.caller [1, 2, 3, 4, 5, 6, 7, 8]) 8 = some (0, arr₂) := by
    cases hc
    cases hadd₁
    exact ⟨_, rfl⟩
  have hreach : Reachable (.default fun _ => false) arr :=
    ⟨_, _, 2, arr, h, [], [], by decide, hc, by simp, rfl⟩
  have hreach₁ : Reachable (.default fun _ => false) arr₁ :=
    ⟨_, _, 2, arr, h, [.add 70 ⟨[5], by decide⟩], [.code 0], by decide, hc,
      fun _ _ _ _ => trivial, by simp [step, call, Key.ptr, Key.size, hadd₁, run]⟩
  have hbits : arr₁.ht.bits = arr.ht.bits := by
    cases hc
    cases hadd₁
    rfl
  obtain ⟨e₁, e₂, b₁, b₂, hlast₁, hlast₂, hin₁, hin₂, hiff, -⟩ :=
    arrayAdd_same_bucket_iff hreach hreach₁ hbits trivial trivial ⟨[5], by decide⟩
      ⟨[1, 2, 3, 4, 5, 6, 7, 8], by decide⟩ hadd₁ hadd₂
  have hsum : wordSum [5] % 2 ^ arr.ht.bits.toNat =
      wordSum [1, 2, 3, 4, 5, 6, 7, 8] % 2 ^ arr.ht.bits.toNat := by
    cases hc
    decide
  obtain rfl : b₁ = b₂ := hiff.mpr hsum
  exact ⟨arr, h, arr₁, arr₂, hc, hadd₁, hadd₂, e₁, e₂, b₁, hlast₁, hlast₂, hin₁, hin₂⟩

end KernelHashtable.Assoc
