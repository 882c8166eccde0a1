import KernelHashtable.Hashtable

/-!
# The sizes of hash tables

`ht_create` computes the number of buckets as the `int` `1 << bits` and the bytes of the
table in `size_t`. Only the shift count that makes the bytes exceed what `malloc` can give is
refused; a larger `bits` makes a smaller table.
-/

namespace KernelHashtable.Hashtable
open HList

def maxObject (t : Target) : ℕ := 2 ^ (t.sizeBits - 1) - 1

def refusedShift (t : Target) : ℕ := if t.sizeBits = 64 then 31 else 29

/-- What a caller of `ht_create` relies on. -/
def SizedRight {α : Type} [DecidableEq α] (t : Target) (h : Heap) (M : Buckets ℕ α)
    (bits : UInt32) : Prop :=
  ∃ r h' M', htCreate t h M bits = some (r, h', M') ∧
    (∀ ht, r = some ht →
      h'.live ht.table = true ∧ 2 ^ bits.toNat * t.ptrBytes ≤ h'.size ht.table ∧
      (∀ b, M'.first b = if b < 2 ^ bits.toNat then .null else M.first b) ∧
      ∀ key, (calcBkt key (oneShl bits).toInt32).toNat = key.toNat % 2 ^ bits.toNat ∧
        headOk t h' ht.table (calcBkt key (oneShl bits).toInt32).toNat = true) ∧
    (r = none → h'.live = h.live) ∧
    (maxObject t < 2 ^ bits.toNat * t.ptrBytes → r = none)

section
variable {bits : UInt32}

theorem oneShl_toInt_of_eq (hk : bits.toNat % 32 = 31) :
    (oneShl bits).toInt32.toInt = -2 ^ 31 := by
  have hone : oneShl bits = 0x80000000 := by
    apply UInt32.toNat_inj.mp
    rw [oneShl_mod, hk]
    rfl
  rw [hone]
  rfl

theorem tableBytes_sign (hk : bits.toNat % 32 = 31) :
    tableBytes lp64 bits = 2 ^ 64 - 2 ^ 34 ∧ tableBytes ilp32 bits = 0 := by
  rw [tableBytes, tableBytes, oneShl_toInt_of_eq hk]
  decide

theorem two_pow_lt_of_shift (hb : 32 ≤ bits.toNat) : 2 ^ (bits.toNat % 32) < 2 ^ bits.toNat :=
  Nat.pow_lt_pow_right (by omega) (by omega)

theorem tableBytes_cases_lp64 (bits : UInt32) :
    (bits.toNat < 31 ∧ tableBytes lp64 bits = 2 ^ bits.toNat * 8 ∧
      tableBytes lp64 bits ≤ maxObject lp64) ∨
    (bits.toNat % 32 = 31 ∧ maxObject lp64 < tableBytes lp64 bits) ∨
    (31 < bits.toNat ∧ bits.toNat % 32 ≠ 31 ∧ tableBytes lp64 bits ≤ maxObject lp64 ∧
      tableBytes lp64 bits < 2 ^ bits.toNat * 8) := by
  have hmax : maxObject lp64 = 2 ^ 63 - 1 := rfl
  rw [hmax]
  by_cases hk : bits.toNat % 32 = 31
  · rw [(tableBytes_sign hk).1]
    omega
  · have hk' : bits.toNat % 32 ≤ 30 := by omega
    have hle : 2 ^ (bits.toNat % 32) ≤ 2 ^ 30 := Nat.pow_le_pow_right (by omega) hk'
    have hbytes : tableBytes lp64 bits = 2 ^ (bits.toNat % 32) * 8 := by
      rw [tableBytes_of_lt hk']
      exact Nat.mod_eq_of_lt (by simp only [lp64]; omega)
    by_cases hb : bits.toNat < 32
    · rw [Nat.mod_eq_of_lt hb] at hbytes hle
      omega
    · have hlt := two_pow_lt_of_shift (by omega : 32 ≤ bits.toNat)
      omega

theorem tableBytes_cases_ilp32 (bits : UInt32) :
    (bits.toNat < 29 ∧ tableBytes ilp32 bits = 2 ^ bits.toNat * 4 ∧
      tableBytes ilp32 bits ≤ maxObject ilp32) ∨
    (bits.toNat % 32 = 29 ∧ maxObject ilp32 < tableBytes ilp32 bits) ∨
    (29 < bits.toNat ∧ bits.toNat % 32 ≠ 29 ∧ tableBytes ilp32 bits ≤ maxObject ilp32 ∧
      tableBytes ilp32 bits < 2 ^ bits.toNat * 4) := by
  have hmax : maxObject ilp32 = 2 ^ 31 - 1 := rfl
  have hpos := Nat.two_pow_pos bits.toNat
  rw [hmax]
  by_cases hk : bits.toNat % 32 = 31
  · rw [(tableBytes_sign hk).2]
    omega
  · have hk' : bits.toNat % 32 ≤ 30 := by omega
    have hbytes : tableBytes ilp32 bits = 2 ^ (bits.toNat % 32) * 4 % 2 ^ 32 :=
      tableBytes_of_lt hk'
    by_cases h28 : bits.toNat % 32 ≤ 28
    · have hle : 2 ^ (bits.toNat % 32) ≤ 2 ^ 28 := Nat.pow_le_pow_right (by omega) h28
      rw [Nat.mod_eq_of_lt (by omega)] at hbytes
      by_cases hb : bits.toNat < 32
      · rw [Nat.mod_eq_of_lt hb] at hbytes hle
        omega
      · have hlt := two_pow_lt_of_shift (by omega : 32 ≤ bits.toNat)
        omega
    · by_cases h29 : bits.toNat % 32 = 29
      · rw [h29] at hbytes
        omega
      · have h30 : bits.toNat % 32 = 30 := by omega
        rw [h30] at hbytes
        omega

end

section
variable {α : Type} [DecidableEq α] {t : Target} {h : Heap} {bits : UInt32}

theorem sizedRight_full (M : Buckets ℕ α) (hb : bits.toNat < 32)
    (hbytes : tableBytes t bits = 2 ^ bits.toNat * t.ptrBytes)
    (hfit : tableBytes t bits ≤ maxObject t)
    (hg : h.grants h.calls (sizeofHashtable t) = true)
    (hg' : h.grants (h.calls + 1) (tableBytes t bits) = true) : SizedRight t h M bits := by
  rw [hbytes] at hfit hg'
  obtain ⟨M', hc, htab, hrest⟩ := htCreate_full (M := M) hb hbytes hg hg'
  refine ⟨_, _, M', hc, ?_, by simp, fun hmax => absurd hfit (by omega)⟩
  rintro ht heq
  obtain rfl := Option.some.inj heq
  have hsize : ((h.grant (sizeofHashtable t)).grant (2 ^ bits.toNat * t.ptrBytes)).size
      (h.fresh + 1) = 2 ^ bits.toNat * t.ptrBytes := by simp [Heap.grant]
  have hlive : ((h.grant (sizeofHashtable t)).grant (2 ^ bits.toNat * t.ptrBytes)).live
      (h.fresh + 1) = true := by simp
  refine ⟨hlive, hsize.ge, fun b => ?_, fun key => ?_⟩
  · by_cases hlt : b < 2 ^ bits.toNat
    · rw [if_pos hlt]
      exact htab.threads b hlt
    · rw [if_neg hlt]
      exact hrest b hlt
  · have hlt : key.toNat % 2 ^ bits.toNat < 2 ^ bits.toNat := Nat.mod_lt _ (Nat.two_pow_pos _)
    refine ⟨calcBkt_toNat hb key, ?_⟩
    rw [calcBkt_toNat hb, headOk, hlive, Bool.true_and, decide_eq_true_iff, hsize]
    exact Nat.mul_le_mul_right _ hlt

theorem sizedRight_refused (M : Buckets ℕ α) (hbal : h.Balanced)
    (hg : h.grants (h.calls + 1) (tableBytes t bits) = false) : SizedRight t h M bits := by
  have hdeny : ¬ (h.grants h.calls (sizeofHashtable t) = true ∧
      h.grants (h.calls + 1) (tableBytes t bits) = true) := by simp [hg]
  obtain ⟨h', hc, -, hlive, -⟩ := htCreate_deny (M := M) hbal hdeny
  exact ⟨none, h', M, hc, by simp, fun _ => hlive, fun _ => rfl⟩

theorem not_sizedRight_of_lt (M : Buckets ℕ α)
    (hsmall : tableBytes t bits < 2 ^ bits.toNat * t.ptrBytes)
    (hg : h.grants h.calls (sizeofHashtable t) = true)
    (hg' : h.grants (h.calls + 1) (tableBytes t bits) = true) : ¬ SizedRight t h M bits := by
  rintro ⟨r, h', M', hc, hsome, -⟩
  rw [htCreate_grant hg hg'] at hc
  obtain ⟨M₁, -, heq⟩ := Option.map_eq_some_iff.mp hc
  obtain ⟨rfl, rfl, -⟩ : some ⟨h.fresh, h.fresh + 1, bits⟩ = r ∧
      (h.grant (sizeofHashtable t)).grant (tableBytes t bits) = h' ∧ M₁ = M' := by
    simpa using heq
  obtain ⟨-, hsize, -⟩ := hsome _ rfl
  have hgot : ((h.grant (sizeofHashtable t)).grant (tableBytes t bits)).size (h.fresh + 1) =
      tableBytes t bits := by simp [Heap.grant]
  simp only [hgot] at hsize
  omega

/-- The sizes are right up to the shift count that is refused, and wherever the shift count
comes around to it again. -/
theorem htCreate_sized_iff (ht : t = lp64 ∨ t = ilp32) (hbal : h.Balanced)
    (hg : ∀ i n, h.grants i n = decide (n ≤ maxObject t)) (M : Buckets ℕ α) (bits : UInt32) :
    SizedRight t h M bits ↔
      bits.toNat ≤ refusedShift t ∨ bits.toNat % 32 = refusedShift t := by
  have hself : h.grants h.calls (sizeofHashtable t) = true := by
    rw [hg]
    rcases ht with rfl | rfl <;> decide
  have hcases : (bits.toNat < refusedShift t ∧
        tableBytes t bits = 2 ^ bits.toNat * t.ptrBytes ∧ tableBytes t bits ≤ maxObject t) ∨
      (bits.toNat % 32 = refusedShift t ∧ maxObject t < tableBytes t bits) ∨
      (refusedShift t < bits.toNat ∧ bits.toNat % 32 ≠ refusedShift t ∧
        tableBytes t bits ≤ maxObject t ∧ tableBytes t bits < 2 ^ bits.toNat * t.ptrBytes) := by
    rcases ht with rfl | rfl
    · exact tableBytes_cases_lp64 bits
    · exact tableBytes_cases_ilp32 bits
  have hshift : refusedShift t ≤ 31 := by
    unfold refusedShift
    split_ifs <;> omega
  rcases hcases with ⟨hlt, hbytes, hfit⟩ | ⟨heq, hmax⟩ | ⟨hgt, hne, hfit, hsmall⟩
  · have hright := sizedRight_full M (by omega) hbytes hfit hself
      (by rw [hg]; exact decide_eq_true hfit)
    exact iff_of_true hright (Or.inl hlt.le)
  · have hright := sizedRight_refused M hbal
      (by rw [hg]; exact decide_eq_false (by omega) : h.grants _ (tableBytes t bits) = false)
    exact iff_of_true hright (Or.inr heq)
  · have hwrong := not_sizedRight_of_lt M hsmall hself
      (by rw [hg]; exact decide_eq_true hfit)
    exact iff_of_false hwrong (by omega)

def strayLinks : Buckets ℕ ℕ := ⟨fun _ => .poison 0, fun _ => .poison 0, fun _ => .poison 0⟩

theorem htCreate_sized_ilp32 :
    SizedRight ilp32 (Heap.start fun _ n => decide (n ≤ maxObject ilp32)) strayLinks 29 ∧
      ¬ SizedRight ilp32 (Heap.start fun _ n => decide (n ≤ maxObject ilp32)) strayLinks 30 :=
  ⟨(htCreate_sized_iff (Or.inr rfl) (Heap.Balanced.start _) (fun _ _ => rfl) strayLinks 29).mpr
      (by decide),
    fun hright => absurd ((htCreate_sized_iff (Or.inr rfl) (Heap.Balanced.start _)
      (fun _ _ => rfl) strayLinks 30).mp hright) (by decide)⟩

theorem htCreate_sized_one_bucket : ∃ h' M',
    htCreate lp64 (Heap.start fun _ n => decide (n ≤ maxObject lp64)) strayLinks 32 =
      some (some ⟨0, 1, 32⟩, h', M') ∧ h'.size 1 = 8 ∧ M'.first 1 = .poison 0 ∧
    ¬ SizedRight lp64 (Heap.start fun _ n => decide (n ≤ maxObject lp64)) strayLinks 32 :=
  ⟨_, _, rfl, rfl, rfl, not_sizedRight_of_lt strayLinks (by decide) rfl rfl⟩

end
end KernelHashtable.Hashtable
