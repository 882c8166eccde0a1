import KernelHashtable.Lib.Horner
import Mathlib.Data.Int.ModEq
import Mathlib.Data.List.Range

/-!
# The custom hash functions of hash.h

The hash is an `int`, whose arithmetic wraps around and whose right shifts are arithmetic. A
`char` is signed or unsigned as the platform has it.
-/

namespace KernelHashtable.Hash

inductive CharKind where
  | signed
  | unsigned
  deriving DecidableEq

def CharKind.promote : CharKind → UInt8 → Int32
  | .signed, c => c.toInt8.toInt32
  | .unsigned, c => c.toUInt32.toInt32

/-- The body of the loop of `hash_jenkins`. -/
def jenkinsByte (hash : Int32) (key : UInt8) : Int32 :=
  let hash := hash + key.toUInt32.toInt32
  let hash := hash + (hash <<< 10)
  hash ^^^ (hash >>> 6)

def hashJenkins (key : List UInt8) : Int32 :=
  let hash := key.foldl jenkinsByte 0
  let hash := hash + (hash <<< 3)
  let hash := hash ^^^ (hash >>> 11)
  hash + (hash <<< 15)

structure Cursor where
  hash : Int32
  pos : ℕ
  seen : List ℕ

def time33Char (char : CharKind) (hash : Int32) (c : UInt8) : Int32 :=
  ((hash <<< 5) + hash) + char.promote c

def Cursor.time33 (char : CharKind) (str : List UInt8) (s : Cursor) : Option Cursor := do
  let c ← str[s.pos]?
  return ⟨time33Char char s.hash c, s.pos + 1, s.seen ++ [s.pos]⟩

def Cursor.time33s (char : CharKind) (str : List UInt8) : ℕ → Cursor → Option Cursor
  | 0, s => some s
  | n + 1, s => do
    let s ← s.time33 char str
    s.time33s char str n

def time33Loop (char : CharKind) (str : List UInt8) : ℕ → ℤ → Cursor → Option (ℤ × Cursor)
  | 0, len, s => if 8 ≤ len then none else some (len, s)
  | fuel + 1, len, s =>
    if 8 ≤ len then do
      let s ← s.time33s char str 8
      time33Loop char str fuel (len - 8) s
    else some (len, s)

/-- The `switch`, in which each case up to 7 falls through to the one below it. -/
def time33Switch (char : CharKind) (str : List UInt8) (len : ℤ) (s : Cursor) : Option Cursor :=
  if 1 ≤ len ∧ len ≤ 7 then s.time33s char str len.toNat else some s

/-- The hash and the offsets that have been read, in order. -/
def hashTime33 (char : CharKind) (str : List UInt8) (len : ℤ) : Option (Int32 × List ℕ) := do
  let (len, s) ← time33Loop char str len.toNat len ⟨5381, 0, []⟩
  let s ← time33Switch char str len s
  return (s.hash, s.seen)

def fnvPrime : Int32 := Int32.ofInt 0x811C9DC5

def hashFnv (char : CharKind) (str : List UInt8) : Int32 :=
  str.foldl (fun hash c => (hash * fnvPrime) ^^^ char.promote c) 0

section
variable {char : CharKind} {str u v w : List UInt8} {s : Cursor}

theorem shiftLeft_five (h : Int32) : h <<< 5 = h * 32 := by
  apply Int32.toBitVec.inj
  rw [Int32.toBitVec_shiftLeft, Int32.toBitVec_mul]
  change h.toBitVec <<< (5#32) = h.toBitVec * 32#32
  rw [BitVec.shiftLeft_eq', BitVec.shiftLeft_eq_mul_twoPow]
  rfl

def CharKind.values (char : CharKind) (str : List UInt8) : List ℤ :=
  str.map fun c => (char.promote c).toInt

theorem time33Char_ofInt (char : CharKind) (x : ℤ) (c : UInt8) :
    time33Char char (Int32.ofInt x) c = Int32.ofInt (33 * x + (char.promote c).toInt) := by
  rw [time33Char, shiftLeft_five, Int32.ofInt_add, Int32.ofInt_mul, Int32.ofInt_toInt]
  change Int32.ofInt x * 32 + Int32.ofInt x + _ = 33 * Int32.ofInt x + _
  grind

theorem foldl_time33 (char : CharKind) (x : ℤ) (w : List UInt8) :
    w.foldl (time33Char char) (Int32.ofInt x) = Int32.ofInt (horner 33 x (char.values w)) :=
  horner_map (time33Char_ofInt char) x w

theorem time33s_add (m n : ℕ) (s : Cursor) : s.time33s char str (m + n) =
    (s.time33s char str m).bind fun s => s.time33s char str n := by
  induction m generalizing s with
  | zero => simp [Cursor.time33s]
  | succ m ih =>
    rw [Nat.succ_add, Cursor.time33s, Cursor.time33s]
    cases s.time33 char str with
    | none => rfl
    | some s₁ => exact ih s₁

theorem time33s_eq (hpos : s.pos = u.length) : s.time33s char (u ++ w ++ v) w.length =
    some ⟨w.foldl (time33Char char) s.hash, s.pos + w.length,
      s.seen ++ List.range' s.pos w.length⟩ := by
  induction w generalizing s u with
  | nil => simp [Cursor.time33s]
  | cons c w ih =>
    have hc : (u ++ c :: w ++ v)[s.pos]? = some c := by simp [hpos]
    have hrec := ih (u := u ++ [c])
      (s := ⟨time33Char char s.hash c, s.pos + 1, s.seen ++ [s.pos]⟩) (by simp [hpos])
    rw [show u ++ [c] ++ w ++ v = u ++ c :: w ++ v by simp] at hrec
    rw [List.length_cons, Cursor.time33s, Cursor.time33, hc]
    simp only [Option.bind_eq_bind, Option.bind_some, Option.pure_def, hrec]
    simp [List.range'_succ, Nat.add_comm, Nat.add_left_comm]

theorem time33Loop_switch {fuel len : ℕ} (hf : len ≤ fuel) (s : Cursor) :
    ((time33Loop char str fuel len s).bind fun r => time33Switch char str r.1 r.2) =
      s.time33s char str len := by
  induction fuel generalizing len s with
  | zero =>
    obtain rfl : len = 0 := Nat.le_zero.mp hf
    rfl
  | succ fuel ih =>
    rw [time33Loop]
    by_cases hlen : 8 ≤ len
    · obtain ⟨rest, rfl⟩ := Nat.exists_eq_add_of_le hlen
      have hrest : ((8 + rest : ℕ) : ℤ) - 8 = (rest : ℕ) := by omega
      rw [if_pos (by omega), hrest, time33s_add]
      cases s.time33s char str 8 with
      | none => rfl
      | some s₁ => exact ih (by omega) s₁
    · rw [if_neg (by omega)]
      cases len with
      | zero => rfl
      | succ len =>
        change time33Switch char str _ s = _
        rw [time33Switch, if_pos (by omega), Int.toNat_natCast]

theorem hashTime33_take {len : ℕ} (hlen : len ≤ str.length) : hashTime33 char str len =
    some (Int32.ofInt (horner 33 5381 (char.values (str.take len))), List.range len) := by
  have hread : Cursor.time33s char ([] ++ str.take len ++ str.drop len) (str.take len).length
      ⟨5381, 0, []⟩ = some ⟨(str.take len).foldl (time33Char char) 5381,
        0 + (str.take len).length, [] ++ List.range' 0 (str.take len).length⟩ := time33s_eq rfl
  rw [List.nil_append, List.take_append_drop, List.length_take, Nat.min_eq_left hlen] at hread
  obtain ⟨r, hr, hs⟩ :=
    Option.bind_eq_some_iff.mp ((time33Loop_switch (Nat.le_refl len) ⟨5381, 0, []⟩).trans hread)
  rw [← foldl_time33]
  simp only [hashTime33, Int.toNat_natCast, hr, hs, Option.bind_eq_bind, Option.bind_some,
    Nat.zero_add, List.nil_append, List.range_eq_range']
  rfl

theorem ofInt_toInt_modEq (x : ℤ) : (Int32.ofInt x).toInt ≡ x [ZMOD 2 ^ 32] := by
  rw [Int32.toInt_ofInt]
  exact Int.bmod_emod

end

/-- The unrolled hash reads the first `len` characters once each, in order, and is the plain
fold modulo `2 ^ 32`. So the hash of two strings in a row is put together from theirs. -/
theorem hashTime33_eq_fold (char : CharKind) :
    (∀ (str : List UInt8) (len : ℤ), 0 ≤ len → len ≤ str.length →
      hashTime33 char str len = some (Int32.ofInt ((str.take len.toNat).foldl
        (fun h c => 33 * h + (char.promote c).toInt) 5381), List.range len.toNat)) ∧
    ∀ s t : List UInt8, ∃ a b c : Int32,
      hashTime33 char s s.length = some (a, List.range s.length) ∧
      hashTime33 char t t.length = some (b, List.range t.length) ∧
      hashTime33 char (s ++ t) (s ++ t).length = some (c, List.range (s ++ t).length) ∧
      c.toInt ≡ 33 ^ t.length * a.toInt + (b.toInt - 5381 * 33 ^ t.length) [ZMOD 2 ^ 32] := by
  constructor
  · intro str len hpos hlen
    obtain ⟨n, rfl⟩ := Int.eq_ofNat_of_zero_le hpos
    rw [hashTime33_take (by omega), horner, CharKind.values, List.foldl_map, Int.toNat_natCast]
  · intro s t
    have hall : ∀ str : List UInt8, hashTime33 char str str.length =
        some (Int32.ofInt (horner 33 5381 (char.values str)), List.range str.length) := by
      intro str
      rw [hashTime33_take (Nat.le_refl _), List.take_length]
    refine ⟨_, _, _, hall s, hall t, hall (s ++ t), ?_⟩
    have hsum : horner 33 5381 (char.values (s ++ t)) = 33 ^ t.length *
        horner 33 5381 (char.values s) +
          (horner 33 5381 (char.values t) - 5381 * 33 ^ t.length) := by
      rw [CharKind.values, List.map_append, horner_append_same, List.length_map]
      rfl
    refine (ofInt_toInt_modEq _).trans ?_
    rw [hsum]
    exact ((ofInt_toInt_modEq _).symm.mul_left _).add ((ofInt_toInt_modEq _).symm.sub_right _)

theorem hashTime33_eq_fold_nine :
    hashTime33 .signed [104, 97, 115, 104, 116, 97, 98, 108, 233] 9 = some (Int32.ofInt
      (([104, 97, 115, 104, 116, 97, 98, 108, 233].take (9 : ℤ).toNat).foldl
        (fun h c => 33 * h + (CharKind.signed.promote c).toInt) 5381),
      List.range (9 : ℤ).toNat) :=
  (hashTime33_eq_fold .signed).1 [104, 97, 115, 104, 116, 97, 98, 108, 233] 9 (by decide)
    (by decide)

def fnv1 (str : List UInt8) : UInt32 :=
  str.foldl (fun hash b => (hash * 16777619) ^^^ b.toUInt32) 2166136261

theorem getLsbD_zero_mul {w : ℕ} {x y : BitVec w} (hy : y.getLsbD 0 = true) :
    (x * y).getLsbD 0 = x.getLsbD 0 := by
  have hw : 2 ∣ 2 ^ w := dvd_pow_self 2 (BitVec.lt_of_getLsbD hy).ne'
  have hodd : y.toNat % 2 = 1 := by simpa [BitVec.getLsbD, Nat.testBit_zero] using hy
  rw [BitVec.getLsbD, BitVec.getLsbD, Nat.testBit_zero, Nat.testBit_zero, BitVec.toNat_mul,
    Nat.mod_mod_of_dvd _ hw, Nat.mul_mod, hodd, Nat.mul_one, Nat.mod_mod]

theorem promote_lowBit (char : CharKind) (c : UInt8) :
    (char.promote c).toBitVec.getLsbD 0 = c.toBitVec.getLsbD 0 := by
  cases char with
  | signed =>
    change (c.toBitVec.signExtend 32).getLsbD 0 = _
    rw [BitVec.getLsbD_signExtend]
    rfl
  | unsigned =>
    change (c.toBitVec.setWidth 32).getLsbD 0 = _
    rw [BitVec.getLsbD_setWidth]
    rfl

theorem foldl_fnv_lowBit (char : CharKind) (str : List UInt8) {h : Int32} {r : UInt32}
    (hne : h.toBitVec.getLsbD 0 ≠ r.toBitVec.getLsbD 0) :
    (str.foldl (fun hash c => (hash * fnvPrime) ^^^ char.promote c) h).toBitVec.getLsbD 0 ≠
      (str.foldl (fun hash b => (hash * 16777619) ^^^ b.toUInt32) r).toBitVec.getLsbD 0 := by
  induction str generalizing h r with
  | nil => exact hne
  | cons c str ih =>
    apply ih
    have hcode : (h.toBitVec * fnvPrime.toBitVec).getLsbD 0 = h.toBitVec.getLsbD 0 :=
      getLsbD_zero_mul (by decide)
    have href : (r.toBitVec * (16777619 : UInt32).toBitVec).getLsbD 0 = r.toBitVec.getLsbD 0 :=
      getLsbD_zero_mul (by decide)
    have hbyte : c.toUInt32.toBitVec.getLsbD 0 = c.toBitVec.getLsbD 0 := by
      exact promote_lowBit .unsigned c
    change (h.toBitVec * fnvPrime.toBitVec ^^^ (char.promote c).toBitVec).getLsbD 0 ≠
      (r.toBitVec * (16777619 : UInt32).toBitVec ^^^ c.toUInt32.toBitVec).getLsbD 0
    rw [BitVec.getLsbD_xor, BitVec.getLsbD_xor, hcode, href, promote_lowBit, hbyte]
    exact fun h => hne (Bool.xor_left_inj.mp h)

/-- `hash_fnv` starts at 0 instead of the odd offset basis, which it takes for the prime. -/
theorem hashFnv_ne_fnv1 (char : CharKind) (str : List UInt8) :
    (hashFnv char str).toUInt32 ≠ fnv1 str := by
  intro h
  apply foldl_fnv_lowBit char str (h := 0) (r := 2166136261) (by decide)
  exact congrArg (fun x => x.toBitVec.getLsbD 0) h

theorem hashFnv_differs : (hashFnv .signed [97]).toUInt32 = 97 ∧ fnv1 [97] = 0x050c5d7e ∧
    (hashFnv .signed []).toUInt32 = 0 ∧ fnv1 [] = 0x811c9dc5 ∧
    ¬ ∀ str, (hashFnv .signed str).toUInt32 = fnv1 str := by
  refine ⟨by decide, by decide, by decide, by decide, fun h => ?_⟩
  exact absurd (h [97]) (by decide)

end KernelHashtable.Hash
