import KernelHashtable.HashCustom
import KernelHashtable.Lib.ShiftMix

/-!
# Jenkins' one-at-a-time hash

`hash_jenkins` keeps its accumulator in an `int`, whose right shifts are arithmetic. It is the
reference with every word reflected to a clear top bit before it is shifted right. That takes
the two apart, and brings them together again where one word is the complement of the other.
-/

namespace KernelHashtable.Hash

def oneAtATimeByte (hash : UInt32) (b : UInt8) : UInt32 :=
  let hash := hash + b.toUInt32
  let hash := hash + (hash <<< 10)
  hash ^^^ (hash >>> 6)

def oneAtATimeLast (hash : UInt32) : UInt32 :=
  let hash := hash + (hash <<< 3)
  let hash := hash ^^^ (hash >>> 11)
  hash + (hash <<< 15)

def oneAtATime (key : List UInt8) : UInt32 := oneAtATimeLast (key.foldl oneAtATimeByte 0)

def reflect (y : UInt32) : UInt32 := if y < 0x80000000 then y else ~~~y

def reflectedByte (hash : UInt32) (b : UInt8) : UInt32 :=
  let hash := hash + b.toUInt32
  let hash := reflect (hash + (hash <<< 10))
  hash ^^^ (hash >>> 6)

def reflectedLast (hash : UInt32) : UInt32 :=
  let hash := reflect (hash + (hash <<< 3))
  let hash := hash ^^^ (hash >>> 11)
  hash + (hash <<< 15)

/-- The words that the reference shifts right, in order. -/
def referenceShifted (hash : UInt32) : List UInt8 → List UInt32
  | [] => [hash + (hash <<< 3)]
  | b :: key =>
    let sum := hash + b.toUInt32
    (sum + (sum <<< 10)) :: referenceShifted (oneAtATimeByte hash b) key

def reflectedShifted (hash : UInt32) : List UInt8 → List UInt32
  | [] => [hash + (hash <<< 3)]
  | b :: key =>
    let sum := hash + b.toUInt32
    (sum + (sum <<< 10)) :: reflectedShifted (reflectedByte hash b) key

/-- No top bit is set. -/
def Clear (ys : List UInt32) : Prop := ∀ y ∈ ys, y < 0x80000000

instance : DecidablePred Clear := fun ys => List.decidableBAll (fun y => y < 0x80000000) ys

def Rejoins (xs ys : List UInt32) : Prop :=
  ∃ i x y, xs[i]? = some x ∧ ys[i]? = some y ∧ x = ~~~y ∧ Clear (ys.drop i)

section
variable {x y : UInt32} {xs ys : List UInt32}

theorem clear_cons : Clear (y :: ys) ↔ y < 0x80000000 ∧ Clear ys := List.forall_mem_cons

theorem not_rejoins_nil : ¬ Rejoins [] ys := by
  rintro ⟨i, x, y, hx, -⟩
  cases hx

theorem rejoins_cons : Rejoins (x :: xs) (y :: ys) ↔
    (x = ~~~y ∧ Clear (y :: ys)) ∨ Rejoins xs ys := by
  constructor
  · rintro ⟨i, x', y', hx, hy, hxy, hclear⟩
    cases i with
    | zero =>
      obtain rfl : x = x' := Option.some.inj hx
      obtain rfl : y = y' := Option.some.inj hy
      exact Or.inl ⟨hxy, hclear⟩
    | succ i => exact Or.inr ⟨i, x', y', hx, hy, hxy, hclear⟩
  · rintro (⟨hxy, hclear⟩ | ⟨i, x', y', hx, hy, hxy, hclear⟩)
    · exact ⟨0, x, y, rfl, rfl, hxy, hclear⟩
    · exact ⟨i + 1, x', y', hx, hy, hxy, hclear⟩

theorem lt_top_iff : y < 0x80000000 ↔ y.toBitVec.msb = false := by
  rw [BitVec.msb_eq_false_iff_two_mul_lt, UInt32.lt_iff_toNat_lt]
  change y.toNat < 2147483648 ↔ 2 * y.toNat < 4294967296
  omega

theorem reflect_toBitVec (y : UInt32) : (reflect y).toBitVec = reflected y.toBitVec := by
  rw [reflect, reflected]
  cases hy : y.toBitVec.msb with
  | false => rw [if_pos (lt_top_iff.mpr hy), if_neg Bool.false_ne_true]
  | true =>
    have htop : ¬ y < 0x80000000 := by
      rw [lt_top_iff, hy]
      decide
    rw [if_neg htop, if_pos rfl, UInt32.toBitVec_not]

theorem reflect_eq_iff : reflect x = y ↔ y < 0x80000000 ∧ (x = y ∨ x = ~~~y) := by
  rw [← UInt32.toBitVec_inj, reflect_toBitVec, reflected_eq_iff, lt_top_iff,
    ← UInt32.toBitVec_inj, ← UInt32.toBitVec_inj, UInt32.toBitVec_not]

theorem uint_addShift {n : UInt32} {k : ℕ} (hn : (n.toBitVec % 32).toNat = k) (y : UInt32) :
    (y + (y <<< n)).toBitVec = addShift y.toBitVec k := by
  rw [UInt32.toBitVec_add, UInt32.toBitVec_shiftLeft, BitVec.shiftLeft_eq', hn]
  rfl

theorem uint_xorShift {n : UInt32} {k : ℕ} (hn : (n.toBitVec % 32).toNat = k) (y : UInt32) :
    (y ^^^ (y >>> n)).toBitVec = xorShift y.toBitVec k := by
  rw [UInt32.toBitVec_xor, UInt32.toBitVec_shiftRight, BitVec.ushiftRight_eq', hn]
  rfl

theorem addShift_eq_iff {n : UInt32} {k : ℕ} (hn : (n.toBitVec % 32).toNat = k) (hk : 0 < k) :
    x + (x <<< n) = y + (y <<< n) ↔ x = y := by
  rw [← UInt32.toBitVec_inj, ← UInt32.toBitVec_inj, uint_addShift hn, uint_addShift hn,
    addShift_inj hk]

theorem xorShift_eq_iff {n : UInt32} {k : ℕ} (hn : (n.toBitVec % 32).toNat = k) (hk : 0 < k) :
    reflect x ^^^ (reflect x >>> n) = y ^^^ (y >>> n) ↔ y < 0x80000000 ∧ (x = y ∨ x = ~~~y) := by
  rw [← UInt32.toBitVec_inj, uint_xorShift hn, uint_xorShift hn, xorShift_inj hk,
    UInt32.toBitVec_inj, reflect_eq_iff]

end

theorem toUInt32_addShift {n : Int32} {m : UInt32} {k : ℕ} (hn : (n.toBitVec.smod 32).toNat = k)
    (hm : (m.toBitVec % 32).toNat = k) (x : Int32) :
    (x + (x <<< n)).toUInt32 = x.toUInt32 + (x.toUInt32 <<< m) := by
  have hint : (x + (x <<< n)).toBitVec = addShift x.toBitVec k := by
    rw [Int32.toBitVec_add, Int32.toBitVec_shiftLeft, BitVec.shiftLeft_eq', hn]
    rfl
  rw [← UInt32.toBitVec_inj, uint_addShift hm]
  exact hint

theorem toUInt32_xorShift {n : Int32} {m : UInt32} {k : ℕ} (hn : (n.toBitVec.smod 32).toNat = k)
    (hm : (m.toBitVec % 32).toNat = k) (x : Int32) :
    (x ^^^ (x >>> n)).toUInt32 = reflect x.toUInt32 ^^^ (reflect x.toUInt32 >>> m) := by
  have hint : (x ^^^ (x >>> n)).toBitVec = xorSShift x.toBitVec k := by
    rw [Int32.toBitVec_xor, Int32.toBitVec_shiftRight, BitVec.sshiftRight', hn]
    rfl
  rw [← UInt32.toBitVec_inj, uint_xorShift hm, reflect_toBitVec]
  exact hint.trans (xorSShift_eq _ _)

theorem jenkinsByte_toUInt32 (h : Int32) (b : UInt8) :
    (jenkinsByte h b).toUInt32 = reflectedByte h.toUInt32 b := by
  rw [jenkinsByte, toUInt32_xorShift (m := 6) (k := 6) rfl rfl,
    toUInt32_addShift (m := 10) (k := 10) rfl rfl]
  rfl

theorem foldl_jenkinsByte_toUInt32 (h : Int32) (key : List UInt8) :
    (key.foldl jenkinsByte h).toUInt32 = key.foldl reflectedByte h.toUInt32 := by
  induction key generalizing h with
  | nil => rfl
  | cons b key ih => rw [List.foldl_cons, ih, jenkinsByte_toUInt32, List.foldl_cons]

theorem hashJenkins_toUInt32 (key : List UInt8) :
    (hashJenkins key).toUInt32 = reflectedLast (key.foldl reflectedByte 0) := by
  rw [hashJenkins, toUInt32_addShift (m := 15) (k := 15) rfl rfl,
    toUInt32_xorShift (m := 11) (k := 11) rfl rfl, toUInt32_addShift (m := 3) (k := 3) rfl rfl,
    foldl_jenkinsByte_toUInt32]
  rfl

section
variable (h r : UInt32) (b : UInt8)

theorem reflectedByte_eq_iff : reflectedByte h b = oneAtATimeByte r b ↔
    r + b.toUInt32 + ((r + b.toUInt32) <<< 10) < 0x80000000 ∧ (h = r ∨
      h + b.toUInt32 + ((h + b.toUInt32) <<< 10) =
        ~~~(r + b.toUInt32 + ((r + b.toUInt32) <<< 10))) := by
  have hsum : h + b.toUInt32 = r + b.toUInt32 ↔ h = r := UInt32.add_left_inj _
  rw [← hsum, ← addShift_eq_iff (x := h + b.toUInt32) (n := 10) (k := 10) rfl (by decide)]
  exact xorShift_eq_iff (n := 6) (k := 6) rfl (by decide)

theorem reflectedLast_eq_iff : reflectedLast h = oneAtATimeLast r ↔
    r + (r <<< 3) < 0x80000000 ∧ (h = r ∨ h + (h <<< 3) = ~~~(r + (r <<< 3))) := by
  rw [← addShift_eq_iff (x := h) (n := 3) (k := 3) rfl (by decide),
    ← xorShift_eq_iff (n := 11) (k := 11) rfl (by decide)]
  exact addShift_eq_iff (n := 15) (k := 15) rfl (by decide)

end

theorem foldl_eq_iff (h r : UInt32) (key : List UInt8) :
    reflectedLast (key.foldl reflectedByte h) = oneAtATimeLast (key.foldl oneAtATimeByte r) ↔
      (h = r ∧ Clear (referenceShifted r key)) ∨
        Rejoins (reflectedShifted h key) (referenceShifted r key) := by
  induction key generalizing h r with
  | nil =>
    rw [List.foldl_nil, List.foldl_nil, reflectedLast_eq_iff, reflectedShifted, referenceShifted,
      rejoins_cons, clear_cons]
    have hnil : Clear [] := fun _ hy => by cases hy
    simp only [hnil, not_rejoins_nil, and_true, or_false]
    rw [← or_and_right, and_comm]
  | cons b key ih =>
    rw [List.foldl_cons, List.foldl_cons, ih, reflectedByte_eq_iff, reflectedShifted,
      referenceShifted, rejoins_cons, clear_cons, ← or_assoc, ← or_and_right]
    rw [and_comm (a := _ < _), and_assoc]

theorem hashJenkins_eq_iff (key : List UInt8) : (hashJenkins key).toUInt32 = oneAtATime key ↔
    Clear (referenceShifted 0 key) ∨
      Rejoins (reflectedShifted 0 key) (referenceShifted 0 key) := by
  have hiff := foldl_eq_iff 0 0 key
  rw [and_iff_right rfl] at hiff
  rw [hashJenkins_toUInt32]
  exact hiff

/-- The accumulator for `"key"` is negative before a right shift. -/
theorem hashJenkins_differs : (hashJenkins [107, 101, 121]).toUInt32 = 0x1d82e307 ∧
    oneAtATime [107, 101, 121] = 0xe9806307 ∧
    ¬ ∀ key, (hashJenkins key).toUInt32 = oneAtATime key := by
  refine ⟨by decide, by decide, fun h => ?_⟩
  exact absurd (h [107, 101, 121]) (by decide)

theorem shifted_sameLow {h r : UInt32} {key : List UInt8} {m i : ℕ} {x y : UInt32}
    (hs : SameLow m h.toBitVec r.toBitVec) (hm : m ≤ 32)
    (hx : (reflectedShifted h key)[i]? = some x) (hy : (referenceShifted r key)[i]? = some y) :
    SameLow (m - 6 * i) x.toBitVec y.toBitVec := by
  induction key generalizing h r m i with
  | nil =>
    cases i with
    | zero =>
      obtain rfl : h + (h <<< 3) = x := Option.some.inj hx
      obtain rfl : r + (r <<< 3) = y := Option.some.inj hy
      rw [uint_addShift (k := 3) rfl, uint_addShift (k := 3) rfl]
      exact hs.addShift hm 3
    | succ i => cases hx
  | cons b key ih =>
    have hsum : SameLow m (h + b.toUInt32).toBitVec (r + b.toUInt32).toBitVec :=
      hs.add hm b.toUInt32.toBitVec
    have hmix := hsum.addShift hm 10
    rw [← uint_addShift (n := 10) (k := 10) rfl, ← uint_addShift (n := 10) (k := 10) rfl] at hmix
    cases i with
    | zero =>
      obtain rfl := Option.some.inj hx
      obtain rfl := Option.some.inj hy
      exact hmix
    | succ i =>
      have hnext := hmix.xorShift hm 6
      rw [xorSShift_eq, ← reflect_toBitVec, ← uint_xorShift (n := 6) (k := 6) rfl,
        ← uint_xorShift (n := 6) (k := 6) rfl] at hnext
      have hrec := ih hnext (by omega) hx hy
      rwa [show m - 6 - 6 * i = m - 6 * (i + 1) by omega] at hrec

theorem reflectedShifted_length (h : UInt32) (key : List UInt8) :
    (reflectedShifted h key).length = key.length + 1 := by
  induction key generalizing h with
  | nil => rfl
  | cons b key ih => rw [reflectedShifted, List.length_cons, ih, List.length_cons]

theorem hashJenkins_eq_iff_clear {key : List UInt8} (hkey : key.length ≤ 5) :
    (hashJenkins key).toUInt32 = oneAtATime key ↔ Clear (referenceShifted 0 key) := by
  have hstart : SameLow 32 (0 : UInt32).toBitVec (0 : UInt32).toBitVec := fun _ _ => rfl
  have hapart : ¬ Rejoins (reflectedShifted 0 key) (referenceShifted 0 key) := by
    rintro ⟨i, x, y, hx, hy, hxy, -⟩
    have hi : i < (reflectedShifted 0 key).length := (List.getElem?_eq_some_iff.mp hx).1
    rw [reflectedShifted_length] at hi
    have hlow := shifted_sameLow hstart (Nat.le_refl 32) hx hy
    exact hlow.ne_not (by omega) (by decide) (UInt32.toBitVec_inj.mpr hxy)
  rw [hashJenkins_eq_iff, or_iff_left hapart]

/-- `hash_jenkins` is the reference wherever the reference shifts no word with its top bit set,
and for keys of at most 5 bytes nowhere else. -/
theorem hashJenkins_eq_of_clear (key : List UInt8) :
    (Clear (referenceShifted 0 key) → (hashJenkins key).toUInt32 = oneAtATime key) ∧
      (key.length ≤ 5 →
        ((hashJenkins key).toUInt32 = oneAtATime key ↔ Clear (referenceShifted 0 key))) :=
  ⟨fun hclear => (hashJenkins_eq_iff key).mpr (Or.inl hclear), hashJenkins_eq_iff_clear⟩

theorem hashJenkins_eq_of_clear_two : (hashJenkins [97, 98]).toUInt32 = oneAtATime [97, 98] :=
  (hashJenkins_eq_of_clear [97, 98]).1 (by decide)

-- A key whose words part and become complements before the last byte is mixed in.
example : (hashJenkins [151, 57, 8, 32, 9, 166, 4, 84, 34, 78, 21, 154, 102, 233, 54, 10, 14, 113,
    17, 147]).toUInt32 = 0xc79a5fab ∧ oneAtATime [151, 57, 8, 32, 9, 166, 4, 84, 34, 78, 21, 154,
    102, 233, 54, 10, 14, 113, 17, 147] = 0xc79a5fab := by decide

end KernelHashtable.Hash
