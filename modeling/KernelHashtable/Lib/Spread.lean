import Mathlib.Data.Nat.Bitwise
import Mathlib.Data.Fin.Tuple.Basic
import Mathlib.Data.Int.ModEq
import Mathlib.Data.List.OfFn
import Mathlib.Logic.Equiv.Fin.Basic
import Mathlib.Order.Interval.Finset.Nat
import Mathlib.SetTheory.Cardinal.Finite

/-!
# Evenly spread functions

A function into the numbers below `m` is spread if all of them have equally many preimages.
Remainders and quotients of an interval are spread, and remain so under a permutation of the
values that may depend on an independent part of the argument.
-/

namespace KernelHashtable

/-- Every number below `m` has `k` preimages, and there is no other value. -/
structure Spread {α : Type*} (f : α → ℕ) (m k : ℕ) : Prop where
  lt : ∀ x, f x < m
  card : ∀ v < m, Nat.card {x // f x = v} = k

namespace Spread
variable {α β : Type*} {f : α → ℕ} {m k : ℕ}

theorem of_injective [Finite α] (hinj : Function.Injective f) (hlt : ∀ x, f x < m)
    (hcard : m ≤ Nat.card α) : Spread f m 1 := by
  let g : α → Fin m := fun x => ⟨f x, hlt x⟩
  have hg : Function.Injective g := fun x y h => hinj (congrArg Fin.val h)
  have hbij := hg.bijective_of_nat_card_le (by simpa using hcard)
  refine ⟨hlt, fun v hv => Nat.card_eq_one_iff_unique.mpr ⟨⟨?_⟩, ?_⟩⟩
  · rintro ⟨x, hx⟩ ⟨y, hy⟩
    exact Subtype.ext (hinj (hx.trans hy.symm))
  · obtain ⟨x, hx⟩ := hbij.surjective ⟨v, hv⟩
    exact ⟨x, congrArg Fin.val hx⟩

theorem fin (m : ℕ) : Spread (fun i : Fin m => (i : ℕ)) m 1 :=
  of_injective Fin.val_injective Fin.is_lt (by simp)

theorem comp_equiv (hf : Spread f m k) (e : β ≃ α) : Spread (fun y => f (e y)) m k := by
  refine ⟨fun y => hf.lt (e y), fun v hv => ?_⟩
  rw [← hf.card v hv]
  exact Nat.card_congr (e.subtypeEquiv fun _ => Iff.rfl)

theorem perm (hf : Spread f m k) {s : ℕ → ℕ} (hmaps : ∀ v < m, s v < m)
    (hinj : ∀ u < m, ∀ v < m, s u = s v → u = v) : Spread (fun x => s (f x)) m k := by
  have hmaps' : Set.MapsTo s (Set.Iio m) (Set.Iio m) := fun v hv => hmaps v hv
  have hinj' : Set.InjOn s (Set.Iio m) := fun u hu v hv h => hinj u hu v hv h
  have hbij := ((Set.finite_Iio m).injOn_iff_bijOn_of_mapsTo hmaps').mp hinj'
  refine ⟨fun x => hmaps _ (hf.lt x), fun v hv => ?_⟩
  obtain ⟨u, hu, rfl⟩ := hbij.surjOn hv
  rw [← hf.card u hu]
  refine Nat.card_congr (Equiv.subtypeEquivRight fun x => ⟨fun h => ?_, fun h => by rw [h]⟩)
  exact hinj _ (hf.lt x) u hu h

theorem comp [Finite α] {n j : ℕ} (hf : Spread f n k) {g : ℕ → ℕ}
    (hg : Spread (fun i : Fin n => g i) m j) : Spread (fun x => g (f x)) m (j * k) := by
  refine ⟨fun x => hg.lt ⟨f x, hf.lt x⟩, fun v hv => ?_⟩
  have e : {x // g (f x) = v} ≃ Σ i : {i : Fin n // g i = v}, {x // f x = i.1} :=
    ⟨fun x => ⟨⟨⟨f x.1, hf.lt x.1⟩, x.2⟩, x.1, rfl⟩, fun q => ⟨q.2.1, by rw [q.2.2]; exact q.1.2⟩,
      fun _ => rfl, fun ⟨⟨i, hi⟩, x, hx⟩ => by
        obtain rfl : i = ⟨f x, hf.lt x⟩ := Fin.ext hx.symm
        rfl⟩
  have := Fintype.ofFinite {i : Fin n // g i = v}
  rw [Nat.card_congr e, Nat.card_sigma,
    Finset.sum_congr rfl fun i _ => hf.card i.1 i.1.isLt, Finset.sum_const, Finset.card_univ,
    ← Nat.card_eq_fintype_card, hg.card v hv, nsmul_eq_mul, Nat.cast_id]

theorem family [Finite α] [Finite β] {f : α → β → ℕ} (hf : ∀ y, Spread (fun x => f x y) m k) :
    Spread (fun p : α × β => f p.1 p.2) m (k * Nat.card β) := by
  refine ⟨fun p => (hf p.2).lt p.1, fun v hv => ?_⟩
  have e : {p : α × β // f p.1 p.2 = v} ≃ Σ y : β, {x // f x y = v} :=
    ⟨fun p => ⟨p.1.2, p.1.1, p.2⟩, fun q => ⟨(q.2.1, q.1), q.2.2⟩, fun _ => rfl, fun _ => rfl⟩
  have := Fintype.ofFinite β
  rw [Nat.card_congr e, Nat.card_sigma, Finset.sum_congr rfl fun y _ => (hf y).card v hv]
  simp [Nat.mul_comm]

theorem fin_fst (m k : ℕ) : Spread (fun p : Fin m × Fin k => (p.1 : ℕ)) m k := by
  have h : Spread (fun p : Fin m × Fin k => (p.1 : ℕ)) m (1 * Nat.card (Fin k)) :=
    family fun _ => fin m
  simpa using h

theorem foldl {γ : Type*} [Finite α] (low : γ → ℕ) (step : γ → α → γ)
    (hstep : ∀ s, Spread (fun c => low (step s c)) m k) (s : γ) (n : ℕ) :
    Spread (fun a : Fin (n + 1) → α => low ((List.ofFn a).foldl step s)) m
      (k * Nat.card α ^ n) := by
  have hall := family fun init : Fin n → α => hstep ((List.ofFn init).foldl step s)
  rw [Nat.card_fun, Nat.card_fin] at hall
  have hlast : ∀ a : Fin (n + 1) → α, (List.ofFn a).foldl step s =
      step ((List.ofFn (Fin.init a)).foldl step s) (a (Fin.last n)) := by
    intro a
    rw [List.ofFn_succ', List.concat_eq_append, List.foldl_append]
    rfl
  simp only [hlast]
  exact hall.comp_equiv (Fin.snocEquiv fun _ => α).symm

theorem fin_div (m k : ℕ) : Spread (fun x : Fin (m * k) => (x : ℕ) / k) m k :=
  (fin_fst m k).comp_equiv finProdFinEquiv.symm

theorem fin_mod (k m : ℕ) : Spread (fun x : Fin (k * m) => (x : ℕ) % m) m k :=
  (fin_fst m k).comp_equiv (finProdFinEquiv.symm.trans (Equiv.prodComm _ _))

theorem div [Finite α] {j : ℕ} (hf : Spread f (m * j) k) : Spread (fun x => f x / j) m (j * k) :=
  hf.comp (g := fun v => v / j) (fin_div m j)

theorem mod [Finite α] {j : ℕ} (hf : Spread f (j * m) k) : Spread (fun x => f x % m) m (j * k) :=
  hf.comp (g := fun v => v % m) (fin_mod j m)

theorem add_mod (hf : Spread f m k) (c : ℕ) : Spread (fun x => (f x + c) % m) m k := by
  refine hf.perm (s := fun v => (v + c) % m) (fun v hv => Nat.mod_lt _ (by omega))
    fun u hu v hv h => ?_
  have hmod : u ≡ v [MOD m] := Nat.ModEq.add_right_cancel' c h
  exact hmod.eq_of_lt_of_lt hu hv

theorem mul_mod (hf : Spread f m k) {a : ℕ} (ha : Nat.Coprime m a) :
    Spread (fun x => f x * a % m) m k := by
  refine hf.perm (s := fun v => v * a % m) (fun v hv => Nat.mod_lt _ (by omega))
    fun u hu v hv h => ?_
  have hmod : u ≡ v [MOD m] := Nat.ModEq.cancel_right_of_coprime ha h
  exact hmod.eq_of_lt_of_lt hu hv

theorem xor {w : ℕ} (hf : Spread f (2 ^ w) k) {c : ℕ} (hc : c < 2 ^ w) :
    Spread (fun x => f x ^^^ c) (2 ^ w) k := by
  refine hf.perm (s := fun v => v ^^^ c) (fun v hv => Nat.xor_lt_two_pow hv hc)
    fun u _ v _ h => ?_
  exact Nat.xor_left_injective h

end Spread
end KernelHashtable
