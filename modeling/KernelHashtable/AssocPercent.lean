import KernelHashtable.AssocRuns

/-!
# The collision percentage of an associative array

Every bucket in use holds one entry that does not collide, and the bucket lengths add up to
the counter.
-/

namespace KernelHashtable.Assoc
open Hash Hashtable HList KList

def usedBuckets (arr : AssocArray) : ℕ :=
  ((List.range (2 ^ arr.ht.bits.toNat)).filter fun b => decide (arr.mem.first b ≠ .null)).length

def storedKey (arr : AssocArray) : Loc ℕ → Option (List UInt8)
  | .head => none
  | .node e => arr.store.read (arr.store.key e) (arr.store.keySize e).toNat

def arrayKeys (arr : AssocArray) : Option (List (List UInt8)) := do
  let locs ← kListForEach arr.ringOk arr.ring arr.fuel .head
  locs.mapM (storedKey arr)

theorem surplus_sum {α : Type} (f : ℕ → List α) (bs : List ℕ) :
    (bs.map fun b => (f b).length - 1).sum + (bs.filter fun b => !(f b).isEmpty).length =
      (bs.flatMap f).length := by
  induction bs with
  | nil => rfl
  | cons b bs ih =>
    rw [List.map_cons, List.sum_cons, List.filter_cons, List.flatMap_cons, List.length_append,
      ← ih]
    cases hb : f b with
    | nil => simp
    | cons x xs =>
      simp only [List.isEmpty_cons, Bool.not_false, if_true, List.length_cons]
      omega

theorem foldl_count {α : Type} (xs : List α) (count : UInt64) :
    xs.foldl (fun count _ => count + 1) count = count + UInt64.ofNat xs.length := by
  induction xs generalizing count with
  | nil => simp
  | cons x xs ih =>
    rw [List.foldl_cons, ih, List.length_cons, UInt64.ofNat_add]
    grind

theorem ofNat_surplus {n : ℕ} (hn : n < 2 ^ 64) (collisions : UInt64) :
    (if 1 < UInt64.ofNat n then collisions + (UInt64.ofNat n - 1) else collisions) =
      collisions + UInt64.ofNat (n - 1) := by
  have hnat : (UInt64.ofNat n).toNat = n := UInt64.toNat_ofNat_of_lt' hn
  by_cases h1 : 1 < n
  · have hlt : 1 < UInt64.ofNat n := by
      rw [UInt64.lt_iff_toNat_lt, hnat]
      exact h1
    rw [if_pos hlt, UInt64.ofNat_sub (by omega)]
    rfl
  · have hlt : ¬ 1 < UInt64.ofNat n := by
      rw [UInt64.lt_iff_toNat_lt, hnat]
      exact h1
    have hzero : n - 1 = 0 := by omega
    rw [if_neg hlt, hzero]
    simp

section
variable {arr : AssocArray} {cs : List Item}

theorem Rep.bucketCount_eq (hr : Rep arr cs) {i : ℕ} (hi : i < 2 ^ arr.ht.bits.toNat) :
    bucketCount arr i = some (UInt64.ofNat (bucket arr.ht.bits cs i).length) := by
  have hwalk := (hlistForEachEntry_threads (fun (count : UInt64) _ => some (count + 1, false))
    (hr.table.threads i hi) (hr.nodeOk_of i) (hr.bucket_length_lt i) 0).trans
    (foldUntil_total _ Item.entry (fun count _ => count + 1) (chain arr.ht.bits cs i)
      (fun _ _ _ => rfl) 0)
  rw [Buckets.get_first, foldl_count, UInt64.zero_add] at hwalk
  simp only [bucketCount, loadFirst, hr.headOk_of i hi, if_true, Option.bind_eq_bind,
    Option.bind_some, bucket, List.length_map]
  exact congrArg (fun o => Option.bind o _) hwalk

theorem Rep.collisions_eq (hr : Rep arr cs) (hsize : arr.size < 2 ^ 64) (bs : List ℕ)
    (hbs : ∀ b ∈ bs, b < 2 ^ arr.ht.bits.toNat) (collisions : UInt64) :
    bs.foldlM (fun (collisions : UInt64) i => do
      let count ← bucketCount arr i
      return if 1 < count then collisions + (count - 1) else collisions) collisions =
      some (collisions +
        UInt64.ofNat (bs.map fun b => (bucket arr.ht.bits cs b).length - 1).sum) := by
  induction bs generalizing collisions with
  | nil => simp
  | cons b bs ih =>
    have hlen : (bucket arr.ht.bits cs b).length < 2 ^ 64 := by
      have hle : (bucket arr.ht.bits cs b).length ≤ cs.length := by
        simpa [bucket, chain] using List.length_filter_le _ cs
      rw [hr.size] at hsize
      omega
    have hrec := ih fun c hc => hbs c (by simp [hc])
    rw [List.foldlM_cons, hr.bucketCount_eq (hbs b (by simp))]
    simp only [Option.pure_def, Option.bind_eq_bind, Option.bind_some, ofNat_surplus hlen]
    apply (hrec _).trans
    rw [List.map_cons, List.sum_cons, UInt64.ofNat_add, UInt64.add_assoc]

theorem Rep.bucket_lengths (hr : Rep arr cs) :
    ((List.range (2 ^ arr.ht.bits.toNat)).flatMap (bucket arr.ht.bits cs)).length =
      cs.length := by
  have hlen := hr.threaded.same_entries.length_eq
  rw [hr.ringBucket_eq, List.length_map] at hlen
  exact hlen

theorem Rep.arrayKeys_eq (hr : Rep arr cs) :
    arrayKeys arr = some (cs.map fun c => c.key.bytes) := by
  have hkeys := mapM_map_some (f := storedKey arr) (g := fun c : Item => Loc.node c.entry)
    (h := fun c => c.key.bytes) (l := cs) fun c hc => hr.read_stored hc
  have hwalk := hr.threaded.forward
  rw [List.map_map] at hwalk
  rw [arrayKeys, hwalk]
  exact hkeys

def bucketsOf (bits : UInt32) (keys : List (List UInt8)) : ℕ :=
  ((List.range (2 ^ bits.toNat)).filter fun b =>
    keys.any fun key => decide (keyBucket bits key = b)).length

theorem bucketsOf_perm {bits : UInt32} {keys keys' : List (List UInt8)}
    (hp : keys.Perm keys') : bucketsOf bits keys = bucketsOf bits keys' := by
  refine congrArg List.length (List.filter_congr fun b _ => ?_)
  exact hp.any_eq

theorem bucket_ne_nil_iff {bits : UInt32} {b : ℕ} :
    bucket bits cs b ≠ [] ↔ ∃ c ∈ cs, keyBucket bits c.key.bytes = b := by
  constructor
  · intro hne
    obtain ⟨e, he⟩ := List.exists_mem_of_ne_nil _ hne
    obtain ⟨c, hc, -⟩ := List.mem_map.mp he
    exact ⟨c, mem_chain.mp hc⟩
  · rintro ⟨c, hc⟩
    exact List.ne_nil_of_mem (List.mem_map_of_mem (mem_chain.mpr hc))

theorem any_map_decide {α β : Type} (l : List α) (g : α → β) (p : β → Prop) [DecidablePred p] :
    (l.map g).any (fun y => decide (p y)) = true ↔ ∃ x ∈ l, p (g x) := by
  simp

theorem bucket_isEmpty (bits : UInt32) (cs : List Item) (b : ℕ) :
    (!(bucket bits cs b).isEmpty) =
      (cs.map fun c => c.key.bytes).any fun key => decide (keyBucket bits key = b) := by
  rw [Bool.eq_iff_iff, Bool.not_eq_true', List.isEmpty_eq_false_iff, bucket_ne_nil_iff]
  exact (any_map_decide cs (fun c => c.key.bytes) fun key => keyBucket bits key = b).symm

theorem Rep.used_iff (hr : Rep arr cs) {b : ℕ} (hb : b < 2 ^ arr.ht.bits.toNat) :
    arr.mem.first b ≠ .null ↔ bucket arr.ht.bits cs b ≠ [] := by
  have hthreads := hr.table.threads b hb
  cases hbucket : bucket arr.ht.bits cs b with
  | nil =>
    rw [hbucket] at hthreads
    have hnull : arr.mem.first b = .null := hthreads
    simp [hnull]
  | cons e es =>
    rw [hbucket] at hthreads
    have haddr : arr.mem.first b = .addr e := hthreads.1
    simp [haddr]

theorem Rep.usedBuckets_filter (hr : Rep arr cs) : usedBuckets arr =
    ((List.range (2 ^ arr.ht.bits.toNat)).filter fun b =>
      !(bucket arr.ht.bits cs b).isEmpty).length := by
  refine congrArg List.length (List.filter_congr fun b hb => ?_)
  have hiff := hr.used_iff (List.mem_range.mp hb)
  by_cases hnil : bucket arr.ht.bits cs b = []
  · have hnull : arr.mem.first b = .null := by
      by_contra hne
      exact hiff.mp hne hnil
    simp [hnull, hnil]
  · simp [hiff.mpr hnil, hnil]

theorem Rep.usedBuckets_eq (hr : Rep arr cs) :
    usedBuckets arr = bucketsOf arr.ht.bits (cs.map fun c => c.key.bytes) := by
  rw [hr.usedBuckets_filter]
  refine congrArg List.length (List.filter_congr fun b _ => ?_)
  exact bucket_isEmpty arr.ht.bits cs b

theorem Rep.surplus_eq (hr : Rep arr cs) :
    ((List.range (2 ^ arr.ht.bits.toNat)).map fun b =>
      (bucket arr.ht.bits cs b).length - 1).sum + usedBuckets arr = arr.size := by
  rw [hr.usedBuckets_filter, surplus_sum, hr.bucket_lengths, hr.size]

theorem Rep.usedBuckets_pos (hr : Rep arr cs) (hsize : 0 < arr.size) : 0 < usedBuckets arr := by
  rw [hr.size] at hsize
  obtain ⟨c, hc⟩ := List.exists_mem_of_length_pos hsize
  have hne : bucket arr.ht.bits cs (keyBucket arr.ht.bits c.key.bytes) ≠ [] :=
    bucket_ne_nil_iff.mpr ⟨c, hc, rfl⟩
  rw [hr.usedBuckets_filter]
  apply List.length_pos_of_mem (a := keyBucket arr.ht.bits c.key.bytes)
  refine List.mem_filter.mpr ⟨List.mem_range.mpr (keyBucket_lt _ _), ?_⟩
  simpa using hne

theorem percent_lt {size used : ℕ} (hused : 0 < used) (hsize : 0 < size) :
    100 * (size - used) / size < 100 := by
  rw [Nat.div_lt_iff_lt_mul hsize]
  omega

theorem toInt_of_lt {p : UInt64} (hp : p.toNat < 100) :
    p.toUInt32.toInt32.toInt = (p.toNat : ℤ) := by
  have h32 : p.toUInt32.toNat = p.toNat := by
    rw [UInt64.toNat_toUInt32]
    omega
  have hint : p.toUInt32.toInt32.toInt = p.toUInt32.toBitVec.toInt := rfl
  rw [hint, BitVec.toInt_eq_toNat_of_lt, UInt32.toNat_toBitVec, h32]
  rw [UInt32.toNat_toBitVec, h32]
  omega

theorem Rep.collisionPercent (hr : Rep arr cs) (hsize : 100 * arr.size < 2 ^ 64) :
    ∃ r, arrayCollisionPercent arr = some r ∧
      r.toInt = (100 * (arr.size - usedBuckets arr) / arr.size : ℕ) ∧ r.toInt < 100 := by
  have hlt : arr.size < 2 ^ 64 := by omega
  have hnat : (UInt64.ofNat arr.size).toNat = arr.size := UInt64.toNat_ofNat_of_lt' hlt
  rcases Nat.eq_zero_or_pos arr.size with hzero | hpos
  · refine ⟨0, ?_, ?_, by decide⟩
    · simp [arrayCollisionPercent, guard, hr.self_live, hzero]
    · rw [hzero, Nat.div_zero]
      rfl
  · have hne : UInt64.ofNat arr.size ≠ 0 := by
      intro h
      rw [h] at hnat
      exact hpos.ne hnat
    have hsurplus := hr.surplus_eq
    have hused := hr.usedBuckets_pos hpos
    let surplus := ((List.range (2 ^ arr.ht.bits.toNat)).map fun b =>
      (bucket arr.ht.bits cs b).length - 1).sum
    have hloop := hr.collisions_eq hlt (List.range (2 ^ arr.ht.bits.toNat))
      (fun b hb => List.mem_range.mp hb) 0
    rw [UInt64.zero_add] at hloop
    have hvalue : (UInt64.ofNat surplus * 100 / UInt64.ofNat arr.size).toNat =
        100 * (arr.size - usedBuckets arr) / arr.size := by
      have hfit : surplus * 100 < 2 ^ 64 := by omega
      have hmul : (UInt64.ofNat surplus * 100).toNat = surplus * 100 := by
        have hlt' : surplus < 2 ^ 64 := by omega
        rw [UInt64.toNat_mul, UInt64.toNat_ofNat_of_lt' hlt']
        exact Nat.mod_eq_of_lt hfit
      rw [UInt64.toNat_div, hmul, hnat, Nat.mul_comm]
      congr 2
      omega
    have hsmall := percent_lt hused hpos
    refine ⟨(UInt64.ofNat surplus * 100 / UInt64.ofNat arr.size).toUInt32.toInt32, ?_, ?_, ?_⟩
    · simp only [arrayCollisionPercent, guard, hr.self_live, if_true, hne, if_false,
        hr.htBits_eq, oneShl_toNat hr.bits_lt, sizeDiv, Option.pure_def, Option.bind_eq_bind,
        Option.bind_some]
      exact congrArg (fun o => Option.bind o _) hloop
    · rw [toInt_of_lt (hvalue.symm ▸ hsmall), hvalue]
    · rw [toInt_of_lt (hvalue.symm ▸ hsmall), hvalue]
      omega

/-- The percentage of the entries beyond the first of their bucket, which depends on the keys
and the number of buckets only. -/
theorem arrayCollisionPercent_exact {cb : Callbacks} (hr : Reachable cb arr)
    (hsize : 100 * arr.size < 2 ^ 64) : ∃ r, arrayCollisionPercent arr = some r ∧
      (arr.size = 0 → r = 0) ∧
      r.toInt = (100 * (arr.size - usedBuckets arr) / arr.size : ℕ) ∧
      0 ≤ r.toInt ∧ r.toInt ≤ 99 ∧
      ∀ (cb' : Callbacks) (arr' : AssocArray) (keys keys' : List (List UInt8)),
        Reachable cb' arr' → arr'.ht.bits = arr.ht.bits → arrayKeys arr = some keys →
        arrayKeys arr' = some keys' → keys.Perm keys' → arrayCollisionPercent arr' = some r := by
  obtain ⟨cs, hrep, -⟩ := hr.rep
  obtain ⟨r, hres, hval, hlt⟩ := hrep.collisionPercent hsize
  have hnonneg : 0 ≤ r.toInt := by
    rw [hval]
    exact Int.natCast_nonneg _
  refine ⟨r, hres, fun hzero => ?_, hval, hnonneg, by omega, ?_⟩
  · rw [hzero, Nat.div_zero] at hval
    exact Int32.toInt_inj.mp hval
  · intro cb' arr' keys keys' hr' hbits hkeys hkeys' hperm
    obtain ⟨cs', hrep', -⟩ := hr'.rep
    obtain rfl : cs.map (fun c => c.key.bytes) = keys :=
      Option.some.inj (hrep.arrayKeys_eq.symm.trans hkeys)
    obtain rfl : cs'.map (fun c => c.key.bytes) = keys' :=
      Option.some.inj (hrep'.arrayKeys_eq.symm.trans hkeys')
    have hsame : arr'.size = arr.size := by
      have hlen := hperm.length_eq
      rw [List.length_map, List.length_map] at hlen
      rw [hrep'.size, hrep.size, hlen]
    have hused : usedBuckets arr' = usedBuckets arr := by
      rw [hrep'.usedBuckets_eq, hrep.usedBuckets_eq, hbits, bucketsOf_perm hperm]
    obtain ⟨r', hres', hval', -⟩ := hrep'.collisionPercent (hsame.symm ▸ hsize)
    rw [hsame, hused, ← hval] at hval'
    rw [hres', Int32.toInt_inj.mp hval']

theorem arrayCollisionPercent_exact_third : ∃ arr h rs₁ arr₁ rs₂ arr₂,
    arrayCreate (Heap.start fun _ _ => true) .zero 1 (.default fun _ => false) =
      some (some arr, h) ∧
    run step (some arr) [.add 70 ⟨[1], by decide⟩, .add 71 ⟨[3], by decide⟩,
      .add 72 ⟨[2], by decide⟩] = some (rs₁, some arr₁) ∧
    run step (some arr) [.add 70 ⟨[2], by decide⟩, .add 71 ⟨[9], by decide⟩, .delLast,
      .add 72 ⟨[3], by decide⟩, .add 73 ⟨[1], by decide⟩] = some (rs₂, some arr₂) ∧
    ∃ r, arrayCollisionPercent arr₁ = some r ∧ r.toInt = 33 ∧
      arrayCollisionPercent arr₂ = some r := by
  obtain ⟨arr, h, hc⟩ : ∃ arr h, arrayCreate (Heap.start fun _ _ => true) .zero 1
      (.default fun _ => false) = some (some arr, h) := ⟨_, _, rfl⟩
  obtain ⟨rs₁, arr₁, hrun₁, hsize, hused, hkeys₁⟩ : ∃ rs₁ arr₁,
      run step (some arr) [.add 70 ⟨[1], by decide⟩, .add 71 ⟨[3], by decide⟩,
        .add 72 ⟨[2], by decide⟩] = some (rs₁, some arr₁) ∧ arr₁.size = 3 ∧
      usedBuckets arr₁ = 2 ∧ arrayKeys arr₁ = some [[1], [3], [2]] := by
    cases hc
    exact ⟨_, _, rfl, rfl, by decide, by decide⟩
  obtain ⟨rs₂, arr₂, hrun₂, hbits, hkeys₂⟩ : ∃ rs₂ arr₂,
      run step (some arr) [.add 70 ⟨[2], by decide⟩, .add 71 ⟨[9], by decide⟩, .delLast,
        .add 72 ⟨[3], by decide⟩, .add 73 ⟨[1], by decide⟩] = some (rs₂, some arr₂) ∧
      arr₂.ht.bits = arr₁.ht.bits ∧ arrayKeys arr₂ = some [[2], [3], [1]] := by
    cases hc
    cases hrun₁
    exact ⟨_, _, rfl, rfl, by decide⟩
  have hreach₁ : Reachable (.default fun _ => false) arr₁ :=
    ⟨_, _, 1, arr, h, _, rs₁, by decide, hc, fun _ _ _ _ => trivial, hrun₁⟩
  have hreach₂ : Reachable (.default fun _ => false) arr₂ :=
    ⟨_, _, 1, arr, h, _, rs₂, by decide, hc, fun _ _ _ _ => trivial, hrun₂⟩
  obtain ⟨r, hres, -, hval, -, -, hsame⟩ :=
    arrayCollisionPercent_exact hreach₁ (by rw [hsize]; decide)
  rw [hsize, hused] at hval
  exact ⟨arr, h, rs₁, arr₁, rs₂, arr₂, hc, hrun₁, hrun₂, r, hres, hval,
    hsame _ arr₂ _ _ hreach₂ hbits hkeys₁ hkeys₂ (by decide)⟩

end
end KernelHashtable.Assoc
