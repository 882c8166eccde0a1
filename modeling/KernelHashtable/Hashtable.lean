import KernelHashtable.HList
import KernelHashtable.Lib.Heap
import Mathlib.Data.Nat.Bitwise

/-!
# The hash table of hashtable.h and hashtable.c

The table is a block of list heads; head `b` can be reached while the block is live and
large enough to hold it. The nodes belong to the caller, who decides which of them can
be reached. Shift counts are taken modulo 32 and `int` wraps, as on x86.
-/

namespace KernelHashtable.Hashtable
open HList

structure Target where
  sizeBits : ℕ
  ptrBytes : ℕ

def lp64 : Target := ⟨64, 8⟩
def ilp32 : Target := ⟨32, 4⟩

/-- The bits of the `int` that `1 << bits` is. -/
def oneShl (bits : UInt32) : UInt32 := 1 <<< bits

/-- `(1 << bits) * sizeof(struct hlist_head)`, computed in `size_t`. -/
def tableBytes (t : Target) (bits : UInt32) : ℕ :=
  ((oneShl bits).toInt32.toInt * t.ptrBytes % 2 ^ t.sizeBits).toNat

def sizeofHashtable (t : Target) : ℕ := 2 * t.ptrBytes

structure HashtableT where
  self : ℕ
  table : ℕ
  bits : UInt32

def headOk (t : Target) (h : Heap) (table b : ℕ) : Bool :=
  h.live table && decide ((b + 1) * t.ptrBytes ≤ h.size table)

def calcBkt (num : UInt32) (divisor : Int32) : UInt32 := num &&& (divisor - 1).toUInt32

section
variable {α : Type} [DecidableEq α] (okHead : ℕ → Bool) (okNode : α → Bool) (M : Buckets ℕ α)

/-- `__hash_init`. -/
def hashInit (sz : UInt32) : Option (Buckets ℕ α) :=
  (List.range sz.toNat).foldlM (fun M i => initHlistHead okHead M i) M

def hashAddBits (bits : UInt32) (node : α) (key : UInt32) : Option (Buckets ℕ α) :=
  hlistAddHead okHead okNode M node (calcBkt key (oneShl bits).toInt32).toNat

def hashtableAdd (ht : HashtableT) (node : α) (key : UInt32) : Option (Buckets ℕ α) :=
  hashAddBits okHead okNode M ht.bits node key

def hashHashed (node : α) : Option Bool := do
  let unhashed ← hlistUnhashed okNode M (.addr node)
  return !unhashed

def hashDel (node : α) : Option (Buckets ℕ α) := hlistDelInit okHead okNode M (.addr node)

end

section
variable {α : Type} [DecidableEq α]

/-- The inner result is null where `ht_create` returns null; the heap and the memory
are those that are left. -/
def htCreate (t : Target) (h : Heap) (M : Buckets ℕ α) (bits : UInt32) :
    Option (Option HashtableT × Heap × Buckets ℕ α) :=
  match h.malloc (sizeofHashtable t) with
  | (none, h) => some (none, h, M)
  | (some ht, h) =>
    match h.malloc (tableBytes t bits) with
    | (none, h) => do
      let h ← h.free ht
      return (none, h, M)
    | (some table, h) => do
      let M ← hashInit (headOk t h table) M (oneShl bits)
      return (some ⟨ht, table, bits⟩, h, M)

end

section
variable {α σ : Type} (first : σ → ℕ → Option (Ptr α)) (next : σ → Ptr α → Option (Ptr α))
  (body : σ → α → Option (σ × Bool)) (fuel : ℕ)

/-- The outer loop of the traversal macros from bucket `bkt` on, with `todo` buckets to
go. It is left as soon as the inner loop leaves the cursor `obj` at an entry. -/
def hashBuckets (inner : ℕ → σ → Option (Option α × σ)) : ℕ → ℕ → σ → Option (Option α × σ)
  | 0, _, s => some (none, s)
  | todo + 1, bkt, s => do
    let (obj, s) ← inner bkt s
    if obj.isSome then return (obj, s) else hashBuckets inner todo (bkt + 1) s

def hashForEachBits (bits : UInt32) (s : σ) : Option (Option α × σ) :=
  hashBuckets (fun bkt s => do
    let pos ← first s bkt
    hlistForEachEntry next body fuel pos s) (oneShl bits).toNat 0 s

def hashForEachSafeBits (bits : UInt32) (s : σ) : Option (Option α × σ) :=
  hashBuckets (fun bkt s => do
    let pos ← first s bkt
    hlistForEachEntrySafe next body fuel pos s) (oneShl bits).toNat 0 s

def hashForEachPossibleBits (bits : UInt32) (key : UInt32) (s : σ) :
    Option (Option α × σ) := do
  let pos ← first s (calcBkt key (oneShl bits).toInt32).toNat
  hlistForEachEntry next body fuel pos s

def clearEntry (del freeFunc : σ → α → Option σ) (s : σ) (cur : α) : Option (σ × Bool) := do
  let s ← del s cur
  let s ← freeFunc s cur
  return (s, false)

def clearHashtableBits (del freeFunc : σ → α → Option σ) (bits : UInt32) (s : σ) : Option σ := do
  let (_, s) ← hashForEachSafeBits first next (clearEntry del freeFunc) fuel bits s
  return s

end

def countEntriesInHashtable {α : Type} (okHead : ℕ → Bool) (okNode : α → Bool)
    (M : Buckets ℕ α) (fuel : ℕ) (bits : UInt32) : Option ℕ := do
  let (_, count) ← hashForEachBits (fun _ => loadFirst okHead M) (fun _ => loadNext okNode M)
    (fun count _ => some (count + 1, false)) fuel bits 0
  return count

section
variable {bits : UInt32}

theorem oneShl_mod (bits : UInt32) : (oneShl bits).toNat = 2 ^ (bits.toNat % 32) := by
  have hlt : 2 ^ (bits.toNat % 32) < 2 ^ 32 :=
    Nat.pow_lt_pow_right (by omega) (Nat.mod_lt _ (by omega))
  rw [oneShl, UInt32.toNat_shiftLeft, Nat.shiftLeft_eq, UInt32.toNat_one, Nat.one_mul,
    Nat.mod_eq_of_lt hlt]

theorem oneShl_toNat (hb : bits.toNat < 32) : (oneShl bits).toNat = 2 ^ bits.toNat := by
  rw [oneShl_mod, Nat.mod_eq_of_lt hb]

theorem calcBkt_toNat (hb : bits.toNat < 32) (key : UInt32) :
    (calcBkt key (oneShl bits).toInt32).toNat = key.toNat % 2 ^ bits.toNat := by
  have hone : ((oneShl bits).toInt32 - 1).toUInt32 = oneShl bits - 1 := by
    rw [Int32.toUInt32_sub, UInt32.toUInt32_toInt32]
    rfl
  have hle : (1 : UInt32) ≤ oneShl bits := by
    rw [UInt32.le_iff_toNat_le, oneShl_toNat hb]
    exact Nat.one_le_two_pow
  rw [calcBkt, hone, UInt32.toNat_and, UInt32.toNat_sub_of_le _ _ hle, oneShl_toNat hb]
  exact Nat.and_two_pow_sub_one_eq_mod _ _

theorem oneShl_toInt_of_lt (hk : bits.toNat % 32 ≤ 30) :
    (oneShl bits).toInt32.toInt = (2 ^ (bits.toNat % 32) : ℕ) := by
  have hle : 2 ^ (bits.toNat % 32) ≤ 2 ^ 30 := Nat.pow_le_pow_right (by omega) hk
  have hbv : (oneShl bits).toInt32.toInt = (oneShl bits).toBitVec.toInt := rfl
  rw [hbv, BitVec.toInt_eq_toNat_of_lt, UInt32.toNat_toBitVec, oneShl_mod]
  rw [UInt32.toNat_toBitVec, oneShl_mod]
  omega

theorem tableBytes_of_lt {t : Target} (hk : bits.toNat % 32 ≤ 30) :
    tableBytes t bits = 2 ^ (bits.toNat % 32) * t.ptrBytes % 2 ^ t.sizeBits := by
  rw [tableBytes, oneShl_toInt_of_lt hk]
  exact_mod_cast Int.toNat_natCast _

theorem tableBytes_lp64 (hb : bits.toNat ≤ 30) : tableBytes lp64 bits = 2 ^ bits.toNat * 8 := by
  have hmod : bits.toNat % 32 = bits.toNat := Nat.mod_eq_of_lt (by omega)
  have hle : 2 ^ bits.toNat ≤ 2 ^ 30 := Nat.pow_le_pow_right (by omega) hb
  rw [tableBytes_of_lt (hmod.trans_le hb), hmod]
  exact Nat.mod_eq_of_lt (by simp only [lp64]; omega)

end

section
variable {α : Type} [DecidableEq α] {okHead : ℕ → Bool} {M M' : Buckets ℕ α}

theorem initHeads_eq_some (bs : List ℕ) (hM : bs.foldlM (fun M i => initHlistHead okHead M i) M =
    some M') : (∀ b ∈ bs, okHead b = true ∧ M'.first b = .null) ∧
      (∀ b, b ∉ bs → M'.first b = M.first b) ∧ M'.next = M.next ∧ M'.pprev = M.pprev := by
  induction bs generalizing M with
  | nil =>
    obtain rfl : M = M' := Option.some.inj hM
    simp
  | cons b bs ih =>
    cases hb : okHead b with
    | false => simp [List.foldlM_cons, initHlistHead, storeFirst, hb] at hM
    | true =>
      simp only [List.foldlM_cons, initHlistHead, storeFirst, hb, if_true, Option.bind_eq_bind,
        Option.bind_some] at hM
      obtain ⟨hin, hout, hnext, hpprev⟩ := ih hM
      refine ⟨fun c hc => ?_, fun c hc => ?_, hnext, hpprev⟩
      · by_cases hcs : c ∈ bs
        · exact hin c hcs
        · obtain rfl : c = b := (List.mem_cons.mp hc).resolve_right hcs
          refine ⟨hb, (hout c hcs).trans ?_⟩
          simp [Buckets.set]
      · rw [List.mem_cons, not_or] at hc
        apply (hout c hc.2).trans
        simp [Buckets.set, hc.1]

theorem hashInit_isTable {sz : UInt32} (hM : hashInit okHead M sz = some M') :
    (∀ b < sz.toNat, okHead b = true) ∧ M'.pprev = M.pprev ∧
      IsTable (· < sz.toNat) M' (fun _ => []) := by
  obtain ⟨hin, -, -, hpprev⟩ := initHeads_eq_some _ hM
  refine ⟨fun b hb => (hin b (List.mem_range.mpr hb)).1, hpprev, ?_, by simp, by simp⟩
  intro b hb
  exact (hin b (List.mem_range.mpr hb)).2

theorem hashInit_defined {sz : UInt32} (hok : ∀ b < sz.toNat, okHead b = true) :
    ∃ M', hashInit okHead M sz = some M' := by
  have hall : ∀ bs : List ℕ, (∀ b ∈ bs, okHead b = true) → ∀ M : Buckets ℕ α,
      ∃ M', bs.foldlM (fun M i => initHlistHead okHead M i) M = some M' := by
    intro bs
    induction bs with
    | nil => exact fun _ M => ⟨M, rfl⟩
    | cons b bs ih =>
      intro hbs M
      simpa [initHlistHead, storeFirst, hbs b (by simp)] using
        ih (fun c hc => hbs c (by simp [hc])) _
  exact hall _ (fun b hb => hok b (List.mem_range.mp hb)) M

theorem htCreate_eq_some {t : Target} {h h' : Heap} {bits : UInt32} {ht : HashtableT}
    (hc : htCreate t h M bits = some (some ht, h', M')) : ht.bits = bits ∧
      h' = (h.grant (sizeofHashtable t)).grant (tableBytes t bits) ∧
      ht.self = h.fresh ∧ ht.table = h.fresh + 1 ∧
      hashInit (headOk t h' ht.table) M (oneShl bits) = some M' := by
  cases hg : h.grants h.calls (sizeofHashtable t) with
  | false => simp [htCreate, Heap.malloc_deny hg] at hc
  | true =>
    let h₁ := h.grant (sizeofHashtable t)
    cases hg' : h₁.grants h₁.calls (tableBytes t bits) with
    | false =>
      simp [htCreate, Heap.malloc_grant hg, Heap.malloc_deny hg', h₁,
        Option.bind_eq_some_iff] at hc
    | true =>
      simp only [htCreate, Heap.malloc_grant hg, Heap.malloc_grant hg', Option.bind_eq_bind,
        Option.bind_eq_some_iff, h₁] at hc
      obtain ⟨M₁, hinit, hc⟩ := hc
      obtain ⟨rfl, rfl, rfl⟩ : _ ∧ _ ∧ _ := by simpa using hc
      exact ⟨rfl, rfl, rfl, rfl, hinit⟩

theorem htCreate_grant {t : Target} {h : Heap} {bits : UInt32}
    (hg : h.grants h.calls (sizeofHashtable t) = true)
    (hg' : h.grants (h.calls + 1) (tableBytes t bits) = true) :
    htCreate t h M bits =
      (hashInit (headOk t ((h.grant (sizeofHashtable t)).grant (tableBytes t bits)) (h.fresh + 1))
        M (oneShl bits)).map fun M' => (some ⟨h.fresh, h.fresh + 1, bits⟩,
          (h.grant (sizeofHashtable t)).grant (tableBytes t bits), M') := by
  have hm : (h.grant (sizeofHashtable t)).malloc (tableBytes t bits) = (some (h.fresh + 1),
      (h.grant (sizeofHashtable t)).grant (tableBytes t bits)) := Heap.malloc_grant hg'
  simp only [htCreate, Heap.malloc_grant hg, hm, Option.map_eq_bind]
  rfl

theorem htCreate_deny {t : Target} {h : Heap} {bits : UInt32} (hbal : h.Balanced)
    (hg : ¬ (h.grants h.calls (sizeofHashtable t) = true ∧
      h.grants (h.calls + 1) (tableBytes t bits) = true)) : ∃ h',
    htCreate t h M bits = some (none, h', M) ∧ h'.Balanced ∧ h'.live = h.live ∧
      ∀ d, h'.freed.count (.foreign d) = h.freed.count (.foreign d) := by
  cases hg₁ : h.grants h.calls (sizeofHashtable t) with
  | false =>
    refine ⟨h.deny, ?_, hbal.deny, rfl, fun _ => rfl⟩
    simp [htCreate, Heap.malloc_deny hg₁]
  | true =>
    have hg₂ : h.grants (h.calls + 1) (tableBytes t bits) = false := by
      by_contra hn
      exact hg ⟨hg₁, by simpa using hn⟩
    have hm : (h.grant (sizeofHashtable t)).malloc (tableBytes t bits) =
        (none, (h.grant (sizeofHashtable t)).deny) := Heap.malloc_deny hg₂
    have hlive : (h.grant (sizeofHashtable t)).deny.live h.fresh = true := by
      simp [Heap.deny, Heap.grant]
    refine ⟨(h.grant (sizeofHashtable t)).deny.release h.fresh, ?_,
      (hbal.grant _).deny.release hlive, hbal.release_grant (sizeofHashtable t) rfl, fun d => ?_⟩
    · simp [htCreate, Heap.malloc_grant hg₁, hm, Heap.free_live hlive]
    · simp [Heap.deny]

theorem htCreate_full {t : Target} {h : Heap} {bits : UInt32} (hb : bits.toNat < 32)
    (hbytes : tableBytes t bits = 2 ^ bits.toNat * t.ptrBytes)
    (hg : h.grants h.calls (sizeofHashtable t) = true)
    (hg' : h.grants (h.calls + 1) (2 ^ bits.toNat * t.ptrBytes) = true) : ∃ M',
    htCreate t h M bits = some (some ⟨h.fresh, h.fresh + 1, bits⟩,
      (h.grant (sizeofHashtable t)).grant (2 ^ bits.toNat * t.ptrBytes), M') ∧
      IsTable (· < 2 ^ bits.toNat) M' (fun _ => []) ∧
      ∀ b, ¬ b < 2 ^ bits.toNat → M'.first b = M.first b := by
  have hone := oneShl_toNat hb
  have hok : ∀ b < (oneShl bits).toNat, headOk t
      ((h.grant (sizeofHashtable t)).grant (2 ^ bits.toNat * t.ptrBytes)) (h.fresh + 1) b =
        true := by
    intro b hlt
    rw [hone] at hlt
    have hfit : (b + 1) * t.ptrBytes ≤ 2 ^ bits.toNat * t.ptrBytes :=
      Nat.mul_le_mul_right _ hlt
    simpa [headOk, Heap.grant] using hfit
  obtain ⟨M', hinit⟩ := hashInit_defined (M := M) hok
  refine ⟨M', ?_, ?_, fun b hb => ?_⟩
  · rw [← hbytes] at hg' hinit ⊢
    rw [htCreate_grant hg hg', hinit]
    rfl
  · have htab := (hashInit_isTable hinit).2.2
    rwa [hone] at htab
  · refine (initHeads_eq_some _ hinit).2.1 b fun hmem => hb ?_
    rw [← hone]
    exact List.mem_range.mp hmem

theorem htCreate_granted {h : Heap} {bits : UInt32} (hb : bits.toNat ≤ 30)
    (hg : h.grants h.calls (sizeofHashtable lp64) = true)
    (hg' : h.grants (h.calls + 1) (2 ^ bits.toNat * 8) = true) : ∃ M',
    htCreate lp64 h M bits = some (some ⟨h.fresh, h.fresh + 1, bits⟩,
      (h.grant (sizeofHashtable lp64)).grant (2 ^ bits.toNat * 8), M') ∧
      IsTable (· < 2 ^ bits.toNat) M' (fun _ => []) := by
  obtain ⟨M', hc, htab, -⟩ := htCreate_full (M := M) (by omega) (tableBytes_lp64 hb) hg hg'
  exact ⟨M', hc, htab⟩

theorem htCreate_denied {h : Heap} {bits : UInt32} (hb : bits.toNat ≤ 30) (hbal : h.Balanced)
    (hg : ¬ (h.grants h.calls (sizeofHashtable lp64) = true ∧
      h.grants (h.calls + 1) (2 ^ bits.toNat * 8) = true)) : ∃ h',
    htCreate lp64 h M bits = some (none, h', M) ∧ h'.Balanced ∧ h'.live = h.live ∧
      ∀ d, h'.freed.count (.foreign d) = h.freed.count (.foreign d) := by
  rw [← tableBytes_lp64 hb] at hg
  exact htCreate_deny hbal hg

end

section
variable {α σ : Type} {okHead : ℕ → Bool} {okNode : α → Bool} {M : Buckets ℕ α}
  {bkt : ℕ → List α} {bits : UInt32}

theorem hashBuckets_eq_foldUntil (body : σ → α → Option (σ × Bool))
    (inner : ℕ → σ → Option (Option α × σ)) (todo b : ℕ) (s : σ)
    (hi : ∀ c, b ≤ c → c < b + todo → ∀ s, inner c s = foldUntil body s (bkt c)) :
    hashBuckets inner todo b s = foldUntil body s ((List.range' b todo).flatMap bkt) := by
  induction todo generalizing b s with
  | zero => rfl
  | succ todo ih =>
    have hrec := fun s => ih (b + 1) s fun c hc hlt => hi c (by omega) (by omega)
    rw [List.range'_succ, List.flatMap_cons, foldUntil_append, hashBuckets,
      hi b (by omega) (by omega)]
    simp only [hrec, Option.bind_eq_bind]
    rfl

variable (hb : bits.toNat < 32) (ht : IsTable (· < 2 ^ bits.toNat) M bkt)
  (hok : ∀ b < 2 ^ bits.toNat, okHead b = true) (hn : ∀ b, ∀ x ∈ bkt b, okNode x = true)
include hb ht hok hn

theorem hashForEachBits_eq_foldUntil (body : σ → α → Option (σ × Bool)) {fuel : ℕ}
    (hf : ∀ b, (bkt b).length < fuel) (s : σ) :
    hashForEachBits (fun _ => loadFirst okHead M) (fun _ => loadNext okNode M) body fuel bits s =
      foldUntil body s ((List.range (2 ^ bits.toNat)).flatMap bkt) := by
  rw [hashForEachBits, oneShl_toNat hb, List.range_eq_range']
  apply hashBuckets_eq_foldUntil body _ _ _ s
  intro c _ hc s
  have hlt : c < 2 ^ bits.toNat := by omega
  simp only [loadFirst, hok c hlt, if_true, Option.bind_eq_bind, Option.bind_some]
  exact hlistForEachEntry_threads body (ht.threads c hlt) (hn c) (hf c) s

theorem hashForEachPossibleBits_eq_foldUntil (body : σ → α → Option (σ × Bool)) {fuel : ℕ}
    (hf : ∀ b, (bkt b).length < fuel) (key : UInt32) (s : σ) :
    hashForEachPossibleBits (fun _ => loadFirst okHead M) (fun _ => loadNext okNode M) body fuel
      bits key s = foldUntil body s (bkt (key.toNat % 2 ^ bits.toNat)) := by
  have hlt : key.toNat % 2 ^ bits.toNat < 2 ^ bits.toNat := Nat.mod_lt _ (Nat.two_pow_pos _)
  simp only [hashForEachPossibleBits, calcBkt_toNat hb, loadFirst, hok _ hlt, if_true,
    Option.bind_eq_bind, Option.bind_some]
  exact hlistForEachEntry_threads body (ht.threads _ hlt) (hn _) (hf _) s

theorem countEntriesInHashtable_eq {fuel : ℕ} (hf : ∀ b, (bkt b).length < fuel) :
    countEntriesInHashtable okHead okNode M fuel bits =
      some ((List.range (2 ^ bits.toNat)).flatMap bkt).length := by
  rw [countEntriesInHashtable, hashForEachBits_eq_foldUntil hb ht hok hn _ hf]
  have hcount := foldUntil_total (fun count (_ : α) => some (count + 1, false)) id
    (fun count _ => count + 1) ((List.range (2 ^ bits.toNat)).flatMap bkt) (fun _ _ _ => rfl) 0
  rw [List.map_id] at hcount
  simp [hcount]

end

/-- `I bkt s` says that `bkt` are the entries that are left in the state `s`. It must
determine the pointers that the loops follow, and be kept by the body for the first entry of
a bucket. -/
structure Clears {α σ : Type} (first : σ → ℕ → Option (Ptr α))
    (next : σ → Ptr α → Option (Ptr α)) (del freeFunc : σ → α → Option σ) (n : ℕ)
    (I : (ℕ → List α) → σ → Prop) : Prop where
  first : ∀ bkt s, I bkt s → ∀ b < n, first s b = some (headPtr (bkt b))
  next : ∀ bkt s, I bkt s → ∀ b < n, ∀ x xs, bkt b = x :: xs →
    next s (.addr x) = some (headPtr xs)
  entry : ∀ bkt s, I bkt s → ∀ b < n, ∀ x xs, bkt b = x :: xs →
    ∃ s', clearEntry del freeFunc s x = some (s', false) ∧ I (Function.update bkt b xs) s'

section
variable {α σ : Type} {first : σ → ℕ → Option (Ptr α)} {next : σ → Ptr α → Option (Ptr α)}
  {del freeFunc : σ → α → Option σ} {n fuel : ℕ} {I : (ℕ → List α) → σ → Prop}
  {bkt : ℕ → List α} {s : σ}

theorem Clears.bucket (hC : Clears first next del freeFunc n I) {b : ℕ} (hb : b < n)
    {l : List α} (hI : I bkt s) (hl : bkt b = l) (hf : l.length < fuel) :
    ∃ s', hlistForEachEntrySafe next (clearEntry del freeFunc) fuel (headPtr l) s =
      some (none, s') ∧ I (Function.update bkt b []) s' := by
  induction l generalizing bkt s fuel with
  | nil =>
    obtain ⟨f, rfl⟩ : ∃ f, fuel = f + 1 := ⟨fuel - 1, by simp at hf; omega⟩
    refine ⟨s, rfl, ?_⟩
    rwa [← hl, Function.update_eq_self]
  | cons x xs ih =>
    obtain ⟨f, rfl⟩ : ∃ f, fuel = f + 1 := ⟨fuel - 1, by simp at hf; omega⟩
    have hlt : xs.length < f := by
      simp at hf
      omega
    obtain ⟨s₁, hbody, hI₁⟩ := hC.entry bkt s hI b hb x xs hl
    obtain ⟨s', hloop, hI'⟩ := ih hI₁ (Function.update_self b xs bkt) hlt
    rw [Function.update_idem] at hI'
    refine ⟨s', ?_, hI'⟩
    simp only [headPtr, hlistForEachEntrySafe, hC.next bkt s hI b hb x xs hl, hbody,
      Option.bind_eq_bind, Option.bind_some, Bool.false_eq_true, if_false]
    exact hloop

theorem Clears.buckets (hC : Clears first next del freeFunc n I) (todo b : ℕ)
    (hb : b + todo ≤ n) (hI : I bkt s) (hf : ∀ b < n, (bkt b).length < fuel) :
    ∃ s', hashBuckets (fun b s => do
        let pos ← first s b
        hlistForEachEntrySafe next (clearEntry del freeFunc) fuel pos s) todo b s =
        some (none, s') ∧
      I (fun c => if b ≤ c ∧ c < b + todo then [] else bkt c) s' := by
  induction todo generalizing b bkt s with
  | zero =>
    have hsame : (fun c => if b ≤ c ∧ c < b + 0 then [] else bkt c) = bkt := by
      funext c
      exact if_neg (by omega)
    rw [hsame]
    exact ⟨s, rfl, hI⟩
  | succ todo ih =>
    have hlt : b < n := by omega
    obtain ⟨s₁, hinner, hI₁⟩ := hC.bucket hlt hI rfl (hf b hlt)
    have hf₁ : ∀ c < n, (Function.update bkt b [] c).length < fuel := by
      intro c hc
      by_cases hcb : c = b
      · subst hcb
        rw [Function.update_self]
        exact Nat.zero_lt_of_lt (hf c hc)
      · rw [Function.update_of_ne hcb]
        exact hf c hc
    obtain ⟨s', hloop, hI'⟩ := ih (b + 1) (by omega) hI₁ hf₁
    have hsame : (fun c => if b + 1 ≤ c ∧ c < b + 1 + todo then []
        else Function.update bkt b [] c) =
        fun c => if b ≤ c ∧ c < b + (todo + 1) then [] else bkt c := by
      funext c
      by_cases hcb : c = b
      · subst hcb
        simp
      · rw [Function.update_of_ne hcb]
        exact if_congr (by omega) rfl rfl
    rw [hsame] at hI'
    refine ⟨s', ?_, hI'⟩
    simp only [hashBuckets, hC.first bkt s hI b hlt, Option.bind_eq_bind, Option.bind_some,
      hinner, Option.isSome_none, Bool.false_eq_true, if_false]
    exact hloop

theorem Clears.all {bits : UInt32} (hC : Clears first next del freeFunc (2 ^ bits.toNat) I)
    (hb : bits.toNat < 32) (hI : I bkt s)
    (hf : ∀ b < 2 ^ bits.toNat, (bkt b).length < fuel) :
    ∃ s', clearHashtableBits first next fuel del freeFunc bits s = some s' ∧
      I (fun c => if c < 2 ^ bits.toNat then [] else bkt c) s' := by
  obtain ⟨s', hloop, hI'⟩ := hC.buckets (2 ^ bits.toNat) 0 (by omega) hI hf
  simp only [Nat.zero_le, true_and, Nat.zero_add] at hI'
  refine ⟨s', ?_, hI'⟩
  rw [clearHashtableBits, hashForEachSafeBits, oneShl_toNat hb]
  exact congrArg (fun o => Option.bind o _) hloop

end
end KernelHashtable.Hashtable
