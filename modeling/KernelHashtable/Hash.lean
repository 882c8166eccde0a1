import Mathlib.Data.Nat.Notation

/-!
# The hash functions of hash.h used by the associative array

Words are read from the key in little-endian order.
-/

namespace KernelHashtable.Hash

def goldenRatioPrime32 : UInt32 := 0x9e370001
def goldenRatioPrime64 : UInt64 := 0x9e37fffffffc0001

/-- The variant for machines without a fast multiplier. -/
def hash64 (val : UInt64) (bits : UInt32) : UInt64 :=
  let hash := val
  let n := hash
  let n := n <<< 18
  let hash := hash - n
  let n := n <<< 33
  let hash := hash - n
  let n := n <<< 3
  let hash := hash + n
  let n := n <<< 3
  let hash := hash - n
  let n := n <<< 4
  let hash := hash + n
  let n := n <<< 2
  let hash := hash + n
  hash >>> (64 - bits).toUInt64

/-- The variant under `CONFIG_ARCH_HAS_FAST_MULTIPLIER`. -/
def hash64Fast (val : UInt64) (bits : UInt32) : UInt64 :=
  (val * goldenRatioPrime64) >>> (64 - bits).toUInt64

def hash32 (val : UInt32) (bits : UInt32) : UInt32 :=
  (val * goldenRatioPrime32) >>> (32 - bits)

def readWord (bs : List UInt8) : UInt64 :=
  bs.foldr (fun b word => b.toUInt64 + 256 * word) 0

def sumWords : UInt64 → List UInt8 → UInt64
  | hash, b₀ :: b₁ :: b₂ :: b₃ :: b₄ :: b₅ :: b₆ :: b₇ :: str =>
    sumWords (hash + readWord [b₀, b₁, b₂, b₃, b₄, b₅, b₆, b₇]) str
  | hash, b₀ :: b₁ :: b₂ :: b₃ :: str => sumWords (hash + readWord [b₀, b₁, b₂, b₃]) str
  | hash, b₀ :: str => sumWords (hash + b₀.toUInt64) str
  | hash, [] => hash

/-- The loop of `hash_str` over offsets into the string, with the offsets of the bytes that it has
read so far. A read beyond the string is undefined. -/
def hashStrLoop (str : List UInt8) :
    ℕ → ℕ → Int → UInt64 → List ℕ → Option (UInt64 × List ℕ)
  | 0, _, len, hash, seen => if 0 < len then none else some (hash, seen)
  | fuel + 1, pos, len, hash, seen =>
    if 0 < len then
      let n := if 8 ≤ len then 8 else if 4 ≤ len then 4 else 1
      if pos + n ≤ str.length then
        hashStrLoop str fuel (pos + n) (len - n) (hash + readWord ((str.drop pos).take n))
          (seen ++ List.range' pos n)
      else none
    else some (hash, seen)

def hashStr (str : List UInt8) (bits : UInt32) : UInt64 :=
  let hash := sumWords 0 str
  if bits ≤ 32 then (hash32 hash.toUInt32 bits).toUInt64 else hash64 hash bits

/-- `hash_str` with the other variant of `hash_64`. -/
def hashStrFast (str : List UInt8) (bits : UInt32) : UInt64 :=
  let hash := sumWords 0 str
  if bits ≤ 32 then (hash32 hash.toUInt32 bits).toUInt64 else hash64Fast hash bits

def hash32Str (str : List UInt8) : UInt64 := hashStr str 32

example : hash32Str [0, 0] = hash32Str [] := by decide

end KernelHashtable.Hash
