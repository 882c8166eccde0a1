import KernelHashtable.HashtableRuns
import KernelHashtable.Log2

/-!
# Traversals of a hash table that take entries out

The loop `_safe` has read the successor of an entry before the body runs, the plain loop reads
it afterwards, from an entry that `hash_del` may have reset. The macros for tables of static
size take the number of buckets from the size of the array.
-/

namespace KernelHashtable.HList
variable {α σ : Type} {next : σ → Ptr α → Option (Ptr α)} {body : σ → α → Option (σ × Bool)}

theorem hlistForEachEntrySafe_rest (J : σ → List α → Prop)
    (hnext : ∀ s x rest, J s (x :: rest) → next s (.addr x) = some (headPtr rest))
    (hbody : ∀ s x rest, J s (x :: rest) → ∃ s', body s x = some (s', false) ∧ J s' rest)
    {s : σ} {rest : List α} (hJ : J s rest) {fuel : ℕ} (hf : rest.length < fuel) :
    ∃ s', hlistForEachEntrySafe next body fuel (headPtr rest) s = some (none, s') ∧ J s' [] := by
  induction rest generalizing s fuel with
  | nil =>
    obtain ⟨f, rfl⟩ : ∃ f, fuel = f + 1 := ⟨fuel - 1, by simp at hf; omega⟩
    exact ⟨s, rfl, hJ⟩
  | cons x rest ih =>
    obtain ⟨f, rfl⟩ : ∃ f, fuel = f + 1 := ⟨fuel - 1, by simp at hf; omega⟩
    obtain ⟨s₁, hs₁, hJ₁⟩ := hbody s x rest hJ
    obtain ⟨s₂, hs₂, hJ₂⟩ := ih hJ₁ (show rest.length < f by simpa using hf)
    refine ⟨s₂, ?_, hJ₂⟩
    change hlistForEachEntrySafe next body (f + 1) (.addr x) s = _
    simp [hlistForEachEntrySafe, hnext s x rest hJ, hs₁, hs₂]

theorem hlistForEachEntrySafe_find (p : α → Bool) {s : σ} {xs : List α}
    (hnext : ∀ us x vs, xs = us ++ x :: vs → next s (.addr x) = some (headPtr vs))
    (hmiss : ∀ x ∈ xs, p x = false → body s x = some (s, false))
    (hhit : ∀ x ∈ xs, p x = true → ∃ s', body s x = some (s', true)) {fuel : ℕ}
    (hf : xs.length < fuel) : hlistForEachEntrySafe next body fuel (headPtr xs) s =
      match xs.find? p with
      | none => some (none, s)
      | some x => (body s x).map fun r => (some x, r.1) := by
  induction xs generalizing fuel with
  | nil =>
    obtain ⟨f, rfl⟩ : ∃ f, fuel = f + 1 := ⟨fuel - 1, by simp at hf; omega⟩
    rfl
  | cons x xs ih =>
    obtain ⟨f, rfl⟩ : ∃ f, fuel = f + 1 := ⟨fuel - 1, by simp at hf; omega⟩
    have hrec := ih (fun us y vs hy => hnext (x :: us) y vs (congrArg (x :: ·) hy))
      (fun y hy => hmiss y (List.mem_cons_of_mem x hy))
      (fun y hy => hhit y (List.mem_cons_of_mem x hy)) (show xs.length < f by simpa using hf)
    change hlistForEachEntrySafe next body (f + 1) (.addr x) s = _
    cases hp : p x with
    | true =>
      obtain ⟨s', hs'⟩ := hhit x (by simp) hp
      simp [hlistForEachEntrySafe, hnext [] x xs rfl, hs', hp]
    | false =>
      simp [hlistForEachEntrySafe, hnext [] x xs rfl, hmiss x (by simp) hp, hp, hrec]

theorem hlistForEachEntry_rest (J : σ → List α → Prop)
    (hbody : ∀ s x rest, J s (x :: rest) → ∃ s' rest', body s x = some (s', false) ∧
      next s' (.addr x) = some (headPtr rest') ∧ rest'.length ≤ rest.length ∧ J s' rest')
    {s : σ} {rest : List α} (hJ : J s rest) {fuel : ℕ} (hf : rest.length < fuel) :
    ∃ s', hlistForEachEntry next body fuel (headPtr rest) s = some (none, s') ∧ J s' [] := by
  induction fuel generalizing s rest with
  | zero => exact absurd hf (Nat.not_lt_zero _)
  | succ f ih =>
    cases rest with
    | nil => exact ⟨s, rfl, hJ⟩
    | cons x rest =>
      obtain ⟨s₁, rest₁, hs₁, hn₁, hlen, hJ₁⟩ := hbody s x rest hJ
      have hlt : rest.length < f := by simpa using hf
      obtain ⟨s₂, hs₂, hJ₂⟩ := ih hJ₁ (by omega)
      refine ⟨s₂, ?_, hJ₂⟩
      change hlistForEachEntry next body (f + 1) (.addr x) s = _
      simp [hlistForEachEntry, hs₁, hn₁, hs₂]

theorem hlistDelInit_next {β : Type} [DecidableEq β] [DecidableEq α] {okHead : β → Bool}
    {okNode : α → Bool} {M M' : Buckets β α} {n : α}
    (hM : hlistDelInit okHead okNode M (.addr n) = some M')
    (hn : hlistUnhashed okNode M (.addr n) = some false) : M'.next n = .null := by
  simp only [hlistDelInit, hn, Option.bind_eq_bind, Option.bind_some, Bool.false_eq_true,
    if_false, Option.bind_eq_some_iff] at hM
  obtain ⟨M₁, -, hM⟩ := hM
  cases hok : okNode n with
  | false => simp [initHlistNode, storeNext, Ptr.deref, hok] at hM
  | true =>
    simp only [initHlistNode, storeNext_addr hok, storePprev_addr hok, Option.bind_eq_bind,
      Option.bind_some] at hM
    obtain rfl := Option.some.inj hM
    rw [← Buckets.get_next, Buckets.get_setPprev, Buckets.get_set_self]

end KernelHashtable.HList

namespace KernelHashtable.Hashtable
open HList Log2

theorem hashBuckets_rule {α σ : Type} {inner : ℕ → σ → Option (Option α × σ)}
    (K : ℕ → σ → Prop) {n : ℕ}
    (hinner : ∀ b < n, ∀ s, K b s → ∃ s', inner b s = some (none, s') ∧ K (b + 1) s')
    (todo b : ℕ) (hb : b + todo = n) {s : σ} (hK : K b s) :
    ∃ s', hashBuckets inner todo b s = some (none, s') ∧ K n s' := by
  induction todo generalizing b s with
  | zero => exact ⟨s, rfl, by rwa [← hb]⟩
  | succ todo ih =>
    obtain ⟨s₁, hs₁, hK₁⟩ := hinner b (by omega) s hK
    obtain ⟨s₂, hs₂, hK₂⟩ := ih (b + 1) (by omega) hK₁
    exact ⟨s₂, by simp [hashBuckets, hs₁, hs₂], hK₂⟩

def hashSize (t : Target) (n : ℕ) : UInt64 := UInt64.ofNat (n * t.ptrBytes / t.ptrBytes)

def hashBits (t : Target) (n : ℕ) : Option UInt32 :=
  (ilog2 true (.u64 (hashSize t n))).map fun k => (Int32.ofInt k).toUInt32

section
variable {α σ : Type} (first : σ → ℕ → Option (Ptr α)) (next : σ → Ptr α → Option (Ptr α))
  (body : σ → α → Option (σ × Bool)) (fuel : ℕ) (t : Target) (n : ℕ)

def hashForEach (s : σ) : Option (Option α × σ) :=
  hashBuckets (fun bkt s => do
    let pos ← first s bkt
    hlistForEachEntry next body fuel pos s) (hashSize t n).toNat 0 s

def hashForEachSafe (s : σ) : Option (Option α × σ) :=
  hashBuckets (fun bkt s => do
    let pos ← first s bkt
    hlistForEachEntrySafe next body fuel pos s) (hashSize t n).toNat 0 s

def hashForEachPossible (key : UInt32) (s : σ) : Option (Option α × σ) := do
  let bits ← hashBits t n
  let pos ← first s (calcBkt key (oneShl bits).toInt32).toNat
  hlistForEachEntry next body fuel pos s

def hashForEachPossibleSafe (key : UInt32) (s : σ) : Option (Option α × σ) := do
  let bits ← hashBits t n
  let pos ← first s (calcBkt key (oneShl bits).toInt32).toNat
  hlistForEachEntrySafe next body fuel pos s

end

section
variable {α : Type} [DecidableEq α] (okHead : ℕ → Bool) (M : Buckets ℕ α)

def hashEmptyLoop : ℕ → ℕ → Option Bool
  | 0, _ => some true
  | todo + 1, i => do
    let empty ← hlistEmpty okHead M i
    if !empty then return false else hashEmptyLoop todo (i + 1)

/-- `__hash_empty`. -/
def hashEmptySz (sz : UInt32) : Option Bool := hashEmptyLoop okHead M sz.toNat 0

def hashEmpty (t : Target) (n : ℕ) : Option Bool := hashEmptySz okHead M (hashSize t n).toUInt32

/-- `hash_init`. -/
def hashInitName (t : Target) (n : ℕ) : Option (Buckets ℕ α) :=
  hashInit okHead M (hashSize t n).toUInt32

end

section
variable {t : Target} {bits : UInt32}

theorem hashSize_toNat (ht : 0 < t.ptrBytes) (hb : bits.toNat ≤ 30) :
    (hashSize t (2 ^ bits.toNat)).toNat = 2 ^ bits.toNat := by
  have hle : 2 ^ bits.toNat ≤ 2 ^ 30 := Nat.pow_le_pow_right (by omega) hb
  rw [hashSize, Nat.mul_div_cancel _ ht]
  exact UInt64.toNat_ofNat_of_lt' (by simp only [UInt64.size]; omega)

theorem hashSize_toUInt32 (ht : 0 < t.ptrBytes) (hb : bits.toNat ≤ 30) :
    (hashSize t (2 ^ bits.toNat)).toUInt32 = oneShl bits := by
  have hle : 2 ^ bits.toNat ≤ 2 ^ 30 := Nat.pow_le_pow_right (by omega) hb
  apply UInt32.toNat_inj.mp
  rw [UInt64.toNat_toUInt32, hashSize_toNat ht hb, oneShl_toNat (by omega)]
  exact Nat.mod_eq_of_lt (by omega)

theorem hashBits_eq (ht : 0 < t.ptrBytes) (hb : bits.toNat ≤ 30) :
    hashBits t (2 ^ bits.toNat) = some bits := by
  have hone : 1 ≤ (Arg.u64 (hashSize t (2 ^ bits.toNat))).toNat := by
    rw [Arg.toNat, hashSize_toNat ht hb]
    exact Nat.one_le_two_pow
  rw [hashBits, Arg.const_eq hone, Option.map_some, Arg.toNat, hashSize_toNat ht hb,
    Nat.log2_two_pow]
  refine congrArg some (UInt32.toNat_inj.mp ?_)
  have hbv : (Int32.ofInt bits.toNat).toUInt32.toNat = (BitVec.ofInt 32 bits.toNat).toNat := rfl
  rw [hbv, BitVec.ofInt_natCast, BitVec.toNat_ofNat]
  exact Nat.mod_eq_of_lt (by omega)

end

variable {α : Type} [DecidableEq α]

def hashDelIf (t : Target) (p : α → Bool) (s : World α × List α) (cur : α) :
    Option ((World α × List α) × Bool) :=
  if p cur then do
    let mem ← hashDel (s.1.headOk t) nodeOk s.1.mem cur
    return (({ s.1 with mem := mem }, s.2 ++ [cur]), false)
  else some ((s.1, s.2 ++ [cur]), false)

def worldFirst (t : Target) (s : World α × List α) (b : ℕ) : Option (Ptr α) :=
  loadFirst (s.1.headOk t) s.1.mem b

def worldNext (s : World α × List α) (p : Ptr α) : Option (Ptr α) := loadNext nodeOk s.1.mem p

def afterDels (p : α → Bool) (a : Linkage α) (seen : List α) : Linkage α :=
  ⟨a.linked.filter fun q => !p q.1 || decide (q.1 ∉ seen), (seen.filter p).reverse ++ a.idle⟩

section
variable {t : Target} {bits : UInt32} {w₀ w : World α} {a : Linkage α} {p : α → Bool} {x : α}
  {seen done rest : List α} {b : ℕ}

theorem afterDels_nil (p : α → Bool) (a : Linkage α) : afterDels p a [] = a := by
  simp [afterDels]

theorem afterDels_skip (hp : p x = false) : afterDels p a (seen ++ [x]) = afterDels p a seen := by
  have hkeep : a.linked.filter (fun q => !p q.1 || decide (q.1 ∉ seen ++ [x])) =
      a.linked.filter fun q => !p q.1 || decide (q.1 ∉ seen) := by
    refine List.filter_congr fun q _ => ?_
    obtain hq | hq := eq_or_ne q.1 x
    · simp [hq, hp]
    · simp [hq]
  rw [afterDels, afterDels, hkeep, List.filter_append, List.filter_singleton, hp]
  simp

theorem afterDels_del (hp : p x = true) :
    (linkStep (afterDels p a seen) (.del x)).2 = afterDels p a (seen ++ [x]) := by
  have hkeep : (a.linked.filter fun q => !p q.1 || decide (q.1 ∉ seen)).filter (·.1 ≠ x) =
      a.linked.filter fun q => !p q.1 || decide (q.1 ∉ seen ++ [x]) := by
    rw [List.filter_filter]
    refine List.filter_congr fun q _ => ?_
    obtain hq | hq := eq_or_ne q.1 x
    · simp [hq, hp]
    · simp [hq]
  simp only [linkStep, afterDels, hkeep, List.filter_append, List.filter_singleton, hp, cond_true,
    List.reverse_append, List.reverse_singleton, List.cons_append, List.nil_append]

omit [DecidableEq α] in
theorem bucket_filter (f : α → Bool) (l : List (α × UInt32)) (b : ℕ) :
    bucket bits (l.filter fun q => f q.1) b = (bucket bits l b).filter f := by
  rw [bucket, bucket, List.filter_map, List.filter_filter, List.filter_filter]
  refine congrArg _ (List.filter_congr fun q _ => ?_)
  exact Bool.and_comm _ _

theorem Rep.hashDel_rep (hr : Rep t bits w a) (hx : x ∈ a.nodes) :
    ∃ mem, hashDel (w.headOk t) nodeOk w.mem x = some mem ∧ mem.next x = .null ∧
      Rep t bits { w with mem := mem } (linkStep a (.del x)).2 := by
  obtain ⟨w', hs, hr'⟩ := hr.del (Or.inl hx)
  have hhashed := hr.hashed (Or.inl hx)
  rw [decide_eq_true hx] at hhashed
  simp only [step, hhashed, Option.bind_eq_bind, Option.bind_some, Option.bind_eq_some_iff] at hs
  obtain ⟨mem, hmem, hw⟩ := hs
  obtain ⟨-, rfl⟩ := Prod.mk.inj (Option.some.inj hw)
  have hunhashed : hlistUnhashed nodeOk w.mem (.addr x) = some false := by
    simpa [hashHashed, Option.bind_eq_some_iff] using hhashed
  exact ⟨mem, hmem, hlistDelInit_next hmem hunhashed, hr'⟩

omit [DecidableEq α] in
theorem Rep.notMem_seen (hr : Rep t bits w₀ a) (hrest : bucket bits a.linked b = done ++ rest)
    (hseen : ∀ y ∈ seen, y ∈ done ∨ ∃ c < b, y ∈ bucket bits a.linked c) {y : α}
    (hy : y ∈ rest) : y ∉ seen := by
  intro hys
  have hyb : y ∈ bucket bits a.linked b := hrest ▸ List.mem_append_right done hy
  have hnd : (done ++ rest).Nodup := hrest ▸ hr.table.nodup b
  rcases hseen y hys with hd | ⟨c, hc, hyc⟩
  · exact (List.nodup_append.mp hnd).2.2 y hd y hy rfl
  · exact absurd (hr.table.disjoint c b y hyc hyb) (by omega)

theorem Rep.bucket_rest (hr : Rep t bits w₀ a)
    (hrest : bucket bits a.linked b = done ++ rest)
    (hseen : ∀ y ∈ seen, y ∈ done ∨ ∃ c < b, y ∈ bucket bits a.linked c) :
    bucket bits (afterDels p a seen).linked b =
      done.filter (fun y => !p y || decide (y ∉ seen)) ++ rest := by
  have hkeep : rest.filter (fun y => !p y || decide (y ∉ seen)) = rest := by
    refine List.filter_eq_self.mpr fun y hy => ?_
    simp [hr.notMem_seen hrest hseen hy]
  rw [afterDels, bucket_filter (fun y => !p y || decide (y ∉ seen)), hrest, List.filter_append,
    hkeep]

theorem Rep.next_rest (hr : Rep t bits w₀ a) (hr' : Rep t bits w (afterDels p a seen))
    (hb : b < 2 ^ bits.toNat) (hrest : bucket bits a.linked b = done ++ x :: rest)
    (hseen : ∀ y ∈ seen, y ∈ done ∨ y = x ∨ ∃ c < b, y ∈ bucket bits a.linked c)
    (hx : p x = false ∨ x ∉ seen) :
    loadNext nodeOk w.mem (.addr x) = some (headPtr rest) := by
  have hcut : bucket bits a.linked b = (done ++ [x]) ++ rest := by simpa using hrest
  have hbefore : ∀ y ∈ seen, y ∈ done ++ [x] ∨ ∃ c < b, y ∈ bucket bits a.linked c := by
    intro y hy
    rcases hseen y hy with h | rfl | h
    · exact Or.inl (List.mem_append_left _ h)
    · exact Or.inl (by simp)
    · exact Or.inr h
  have hbucket := hr.bucket_rest (p := p) hcut hbefore
  have hkeep : (!p x || decide (x ∉ seen)) = true := by
    rcases hx with h | h <;> simp [h]
  rw [List.filter_append, List.filter_singleton, hkeep, cond_true, List.append_assoc,
    List.singleton_append] at hbucket
  have hth := hr'.table.threads b hb
  rw [hbucket] at hth
  obtain ⟨-, -, -, hv, -⟩ := hth.mid
  rw [loadNext_addr rfl, ← Buckets.get_next, hv.get_eq]

theorem Rep.first_rest (hr : Rep t bits w₀ a) (hr' : Rep t bits w (afterDels p a seen))
    (hb : b < 2 ^ bits.toNat) (hseen : ∀ y ∈ seen, ∃ c < b, y ∈ bucket bits a.linked c) :
    worldFirst t (w, seen) b = some (headPtr (bucket bits a.linked b)) := by
  have hth := (hr'.table.threads b hb).get_eq
  rw [hr.bucket_rest (List.nil_append (bucket bits a.linked b)).symm
    fun y hy => Or.inr (hseen y hy), Buckets.get_first] at hth
  rw [worldFirst, loadFirst, if_pos (hr'.heads b hb), hth]
  rfl

theorem hashDelIf_step (hr' : Rep t bits w (afterDels p a seen)) (hx : x ∈ a.nodes)
    (hxs : x ∉ seen) : ∃ w', hashDelIf t p (w, seen) x = some ((w', seen ++ [x]), false) ∧
      Rep t bits w' (afterDels p a (seen ++ [x])) ∧ (p x = true → w'.mem.next x = .null) := by
  cases hp : p x with
  | false =>
    refine ⟨w, by simp [hashDelIf, hp], ?_, fun h => nomatch h⟩
    rwa [afterDels_skip hp]
  | true =>
    have hxa : x ∈ (afterDels p a seen).nodes := by
      obtain ⟨q, hq, rfl⟩ := List.mem_map.mp hx
      exact List.mem_map_of_mem (List.mem_filter.mpr ⟨hq, by simp [hxs]⟩)
    obtain ⟨mem, hmem, hnull, hr''⟩ := hr'.hashDel_rep hxa
    refine ⟨{ w with mem := mem }, by simp [hashDelIf, hp, hmem], ?_, fun _ => hnull⟩
    rwa [afterDels_del hp] at hr''

def SafeAt (t : Target) (bits : UInt32) (p : α → Bool) (a : Linkage α) (b : ℕ) (seen : List α)
    (s : World α × List α) (rest : List α) : Prop :=
  ∃ done, bucket bits a.linked b = done ++ rest ∧ s.2 = seen ++ done ∧
    Rep t bits s.1 (afterDels p a s.2)

def PlainAt (t : Target) (bits : UInt32) (p : α → Bool) (a : Linkage α) (b : ℕ) (seen : List α)
    (s : World α × List α) (rest : List α) : Prop :=
  ∃ done, (rest ≠ [] → bucket bits a.linked b = done ++ rest) ∧
    upTo p (bucket bits a.linked b) = done ++ upTo p rest ∧ s.2 = seen ++ done ∧
    Rep t bits s.1 (afterDels p a s.2)

omit [DecidableEq α] in
theorem seen_back (hseen : ∀ y ∈ seen, ∃ c < b, y ∈ bucket bits a.linked c) (done : List α) :
    ∀ y ∈ seen ++ done, y ∈ done ∨ ∃ c < b, y ∈ bucket bits a.linked c := fun y hy =>
  (List.mem_append.mp hy).elim (fun h => Or.inr (hseen y h)) Or.inl

theorem safeBucket_dels (hr : Rep t bits w₀ a) (hb : b < 2 ^ bits.toNat)
    (hr' : Rep t bits w (afterDels p a seen))
    (hseen : ∀ y ∈ seen, ∃ c < b, y ∈ bucket bits a.linked c) {fuel : ℕ}
    (hf : (bucket bits a.linked b).length < fuel) :
    ∃ w', (do
        let pos ← worldFirst t (w, seen) b
        hlistForEachEntrySafe worldNext (hashDelIf t p) fuel pos (w, seen)) =
          some (none, (w', seen ++ bucket bits a.linked b)) ∧
      Rep t bits w' (afterDels p a (seen ++ bucket bits a.linked b)) := by
  have hrule : ∃ s', hlistForEachEntrySafe worldNext (hashDelIf t p) fuel
      (headPtr (bucket bits a.linked b)) (w, seen) = some (none, s') ∧
        SafeAt t bits p a b seen s' [] := by
    refine hlistForEachEntrySafe_rest (SafeAt t bits p a b seen) ?_ ?_
      ⟨[], rfl, (List.append_nil seen).symm, hr'⟩ hf
    · rintro ⟨w₁, seen₁⟩ x rest ⟨done, hdone, rfl, hr₁⟩
      have hback := seen_back hseen done
      exact hr.next_rest hr₁ hb hdone (fun y hy => (hback y hy).imp_right Or.inr)
        (Or.inr (hr.notMem_seen hdone hback (by simp)))
    · rintro ⟨w₁, seen₁⟩ x rest ⟨done, hdone, rfl, hr₁⟩
      have hxa : x ∈ a.nodes := Rep.mem_nodes (hdone ▸ (by simp : x ∈ done ++ x :: rest))
      obtain ⟨w₂, hbody, hr₂, -⟩ := hashDelIf_step hr₁ hxa
        (hr.notMem_seen hdone (seen_back hseen done) (by simp))
      exact ⟨_, hbody, done ++ [x], by simpa using hdone, by simp, hr₂⟩
  obtain ⟨⟨w', seen'⟩, hloop, done, hdone, hs', hrep⟩ := hrule
  rw [List.append_nil] at hdone
  obtain rfl : seen' = seen ++ bucket bits a.linked b := hdone.symm ▸ hs'
  refine ⟨w', ?_, hrep⟩
  simp only [hr.first_rest hr' hb hseen, Option.bind_eq_bind, Option.bind_some, hloop]

theorem plainBucket_dels (hr : Rep t bits w₀ a) (hb : b < 2 ^ bits.toNat)
    (hr' : Rep t bits w (afterDels p a seen))
    (hseen : ∀ y ∈ seen, ∃ c < b, y ∈ bucket bits a.linked c) {fuel : ℕ}
    (hf : (bucket bits a.linked b).length < fuel) :
    ∃ w', (do
        let pos ← worldFirst t (w, seen) b
        hlistForEachEntry worldNext (hashDelIf t p) fuel pos (w, seen)) =
          some (none, (w', seen ++ upTo p (bucket bits a.linked b))) ∧
      Rep t bits w' (afterDels p a (seen ++ upTo p (bucket bits a.linked b))) := by
  have hrule : ∃ s', hlistForEachEntry worldNext (hashDelIf t p) fuel
      (headPtr (bucket bits a.linked b)) (w, seen) = some (none, s') ∧
        PlainAt t bits p a b seen s' [] := by
    refine hlistForEachEntry_rest (PlainAt t bits p a b seen) ?_
      ⟨[], fun _ => rfl, rfl, (List.append_nil seen).symm, hr'⟩ hf
    rintro ⟨w₁, seen₁⟩ x rest ⟨done, hdone, hupto, rfl, hr₁⟩
    replace hdone := hdone (List.cons_ne_nil x rest)
    have hback := seen_back hseen done
    have hxa : x ∈ a.nodes := Rep.mem_nodes (hdone ▸ (by simp : x ∈ done ++ x :: rest))
    obtain ⟨w₂, hbody, hr₂, hnull⟩ := hashDelIf_step hr₁ hxa
      (hr.notMem_seen hdone hback (by simp))
    cases hp : p x with
    | true =>
      -- the successor of a deleted entry is null, which ends the bucket
      refine ⟨_, [], hbody, ?_, Nat.zero_le _, done ++ [x], fun h => absurd rfl h, ?_, by simp,
        hr₂⟩
      · rw [worldNext, loadNext_addr rfl, hnull hp]
        rfl
      · simp [hupto, upTo, hp]
    | false =>
      refine ⟨_, rest, hbody, ?_, Nat.le_refl _, done ++ [x], fun _ => by simpa using hdone, ?_,
        by simp, hr₂⟩
      · refine hr.next_rest hr₂ hb hdone (fun y hy => ?_) (Or.inl hp)
        rcases List.mem_append.mp hy with hy | hy
        · exact (hback y hy).imp_right Or.inr
        · exact Or.inr (Or.inl (List.mem_singleton.mp hy))
      · simp [hupto, upTo, hp]
  obtain ⟨⟨w', seen'⟩, hloop, done, -, hdone, hs', hrep⟩ := hrule
  rw [upTo, List.append_nil] at hdone
  obtain rfl : seen' = seen ++ upTo p (bucket bits a.linked b) := hdone.symm ▸ hs'
  refine ⟨w', ?_, hrep⟩
  simp only [hr.first_rest hr' hb hseen, Option.bind_eq_bind, Option.bind_some, hloop]

omit [DecidableEq α] in
theorem seen_range {f : ℕ → List α} (hf : ∀ c, ∀ y ∈ f c, y ∈ bucket bits a.linked c) :
    ∀ y ∈ (List.range b).flatMap f, ∃ c < b, y ∈ bucket bits a.linked c := by
  intro y hy
  obtain ⟨c, hc, hyc⟩ := List.mem_flatMap.mp hy
  exact ⟨c, List.mem_range.mp hc, hf c y hyc⟩

theorem hashBuckets_dels (hr : Rep t bits w a) {f : ℕ → List α}
    (hf : ∀ c, ∀ y ∈ f c, y ∈ bucket bits a.linked c)
    {inner : ℕ → World α × List α → Option (Option α × (World α × List α))}
    (hinner : ∀ b < 2 ^ bits.toNat, ∀ w seen, Rep t bits w (afterDels p a seen) →
      (∀ y ∈ seen, ∃ c < b, y ∈ bucket bits a.linked c) →
      ∃ w', inner b (w, seen) = some (none, (w', seen ++ f b)) ∧
        Rep t bits w' (afterDels p a (seen ++ f b))) :
    ∃ w', hashBuckets inner (2 ^ bits.toNat) 0 (w, []) =
        some (none, (w', (List.range (2 ^ bits.toNat)).flatMap f)) ∧
      Rep t bits w' (afterDels p a ((List.range (2 ^ bits.toNat)).flatMap f)) := by
  have hstart : Rep t bits w (afterDels p a []) := by rwa [afterDels_nil]
  have hstep : ∀ b < 2 ^ bits.toNat, ∀ s : World α × List α,
      s.2 = (List.range b).flatMap f ∧ Rep t bits s.1 (afterDels p a s.2) →
      ∃ s', inner b s = some (none, s') ∧
        s'.2 = (List.range (b + 1)).flatMap f ∧ Rep t bits s'.1 (afterDels p a s'.2) := by
    rintro b hb ⟨w₁, seen⟩ ⟨rfl, hr₁⟩
    obtain ⟨w₂, h₂, hr₂⟩ := hinner b hb w₁ _ hr₁ (seen_range hf)
    refine ⟨_, h₂, ?_, hr₂⟩
    rw [List.range_succ, List.flatMap_append, List.flatMap_singleton]
  obtain ⟨⟨w', seen⟩, hloop, rfl, hr'⟩ := hashBuckets_rule _ hstep (2 ^ bits.toNat) 0
    (Nat.zero_add _) (s := (w, [])) ⟨rfl, hstart⟩
  exact ⟨w', hloop, hr'⟩

theorem hashForEachSafeBits_dels (hb : bits.toNat ≤ 30) (hr : Rep t bits w a) {fuel : ℕ}
    (hf : a.linked.length < fuel) :
    ∃ w', hashForEachSafeBits (worldFirst t) worldNext (hashDelIf t p) fuel bits (w, []) =
        some (none, (w', visited bits a.linked)) ∧
      Rep t bits w' (afterDels p a (visited bits a.linked)) := by
  rw [hashForEachSafeBits, oneShl_toNat (by omega)]
  exact hashBuckets_dels hr (fun _ _ hy => hy) fun b hlt w seen hr' hseen =>
    safeBucket_dels hr hlt hr' hseen (lt_of_le_of_lt bucket_length_le hf)

theorem hashForEachBits_dels (hb : bits.toNat ≤ 30) (hr : Rep t bits w a) {fuel : ℕ}
    (hf : a.linked.length < fuel) :
    ∃ w', hashForEachBits (worldFirst t) worldNext (hashDelIf t p) fuel bits (w, []) =
        some (none, (w', (List.range (2 ^ bits.toNat)).flatMap fun b =>
          upTo p (bucket bits a.linked b))) ∧
      Rep t bits w' (afterDels p a ((List.range (2 ^ bits.toNat)).flatMap fun b =>
        upTo p (bucket bits a.linked b))) := by
  rw [hashForEachBits, oneShl_toNat (by omega)]
  exact hashBuckets_dels hr (fun _ _ hy => mem_of_mem_upTo hy) fun b hlt w seen hr' hseen =>
    plainBucket_dels hr hlt hr' hseen (lt_of_le_of_lt bucket_length_le hf)

theorem hashForEachPossibleSafe_dels (ht : 0 < t.ptrBytes) (hb : bits.toNat ≤ 30)
    (hr : Rep t bits w a) (key : UInt32) {fuel : ℕ} (hf : a.linked.length < fuel) :
    ∃ w', hashForEachPossibleSafe (worldFirst t) worldNext (hashDelIf t p) fuel t
        (2 ^ bits.toNat) key (w, []) =
          some (none, (w', bucket bits a.linked (key.toNat % 2 ^ bits.toNat))) ∧
      Rep t bits w' (afterDels p a (bucket bits a.linked (key.toNat % 2 ^ bits.toNat))) := by
  have hstart : Rep t bits w (afterDels p a []) := by rwa [afterDels_nil]
  have hbucket := safeBucket_dels hr (Rep.bkt_lt bits key) hstart (by simp)
    (lt_of_le_of_lt bucket_length_le hf)
  simpa only [hashForEachPossibleSafe, hashBits_eq ht hb,
    calcBkt_toNat (by omega : bits.toNat < 32), Option.bind_eq_bind, Option.bind_some,
    List.nil_append] using hbucket

omit [DecidableEq α] in
theorem mem_visited (hr : Rep t bits w a) (hx : x ∈ a.nodes) : x ∈ visited bits a.linked :=
  hr.visited_perm.mem_iff.mpr hx

omit [DecidableEq α] in
theorem Rep.mem_bucket_iff (hr : Rep t bits w a) {q : α × UInt32} (hq : q ∈ a.linked) :
    q.1 ∈ bucket bits a.linked b ↔ q.2.toNat % 2 ^ bits.toNat = b := by
  refine ⟨fun h => ?_, fun h => mem_bucket.mpr ⟨q.2, hq, h⟩⟩
  obtain ⟨k, hk, hkey⟩ := mem_bucket.mp h
  have hsame : (q.1, k) = q := List.inj_on_of_nodup_map hr.nodup hk hq rfl
  rwa [← hsame]

theorem afterDels_visited (hr : Rep t bits w a) : afterDels p a (visited bits a.linked) =
    ⟨a.linked.filter fun q => !p q.1, ((visited bits a.linked).filter p).reverse ++ a.idle⟩ := by
  have hkeep : a.linked.filter (fun q => !p q.1 || decide (q.1 ∉ visited bits a.linked)) =
      a.linked.filter fun q => !p q.1 := by
    refine List.filter_congr fun q hq => ?_
    simp [mem_visited hr (List.mem_map_of_mem hq)]
  rw [afterDels, hkeep]

theorem afterDels_bucket (hr : Rep t bits w a) (key : UInt32) :
    afterDels p a (bucket bits a.linked (key.toNat % 2 ^ bits.toNat)) =
      ⟨a.linked.filter fun q =>
        !(p q.1 && decide (q.2.toNat % 2 ^ bits.toNat = key.toNat % 2 ^ bits.toNat)),
        ((bucket bits a.linked (key.toNat % 2 ^ bits.toNat)).filter p).reverse ++ a.idle⟩ := by
  refine congrArg (Linkage.mk · _) (List.filter_congr fun q hq => ?_)
  simp [Rep.mem_bucket_iff hr hq, Bool.not_and]

theorem afterDels_upTo (hr : Rep t bits w a) :
    (afterDels p a ((List.range (2 ^ bits.toNat)).flatMap fun b =>
      upTo p (bucket bits a.linked b))).linked = a.linked.filter fun q =>
        !p q.1 || decide (q.1 ∉ upTo p (bucket bits a.linked (q.2.toNat % 2 ^ bits.toNat))) := by
  refine List.filter_congr fun q hq => ?_
  have hmem : (q.1 ∈ (List.range (2 ^ bits.toNat)).flatMap fun b =>
      upTo p (bucket bits a.linked b)) ↔
      q.1 ∈ upTo p (bucket bits a.linked (q.2.toNat % 2 ^ bits.toNat)) := by
    constructor
    · intro h
      obtain ⟨b, -, hqb⟩ := List.mem_flatMap.mp h
      rwa [(Rep.mem_bucket_iff hr hq).mp (mem_of_mem_upTo hqb)]
    · intro h
      exact List.mem_flatMap.mpr ⟨_, List.mem_range.mpr (Rep.bkt_lt bits q.2), h⟩
  simp only [hmem]

theorem filter_upTo_eq_iff (hr : Rep t bits w a) :
    (a.linked.filter (fun q =>
      !p q.1 || decide (q.1 ∉ upTo p (bucket bits a.linked (q.2.toNat % 2 ^ bits.toNat)))) =
      a.linked.filter fun q => !p q.1) ↔ ∀ c, (bucket bits a.linked c).countP p ≤ 1 := by
  constructor
  · intro h c
    refine (forall_mem_upTo_iff (hr.table.nodup c)).mp fun x hx hpx => ?_
    obtain ⟨k, hk, rfl⟩ := mem_bucket.mp hx
    have hgone : (x, k) ∉ a.linked.filter fun q => !p q.1 := by simp [hpx]
    rw [← h, List.mem_filter, not_and] at hgone
    simpa [hpx] using hgone hk
  · intro h
    refine List.filter_congr fun q hq => ?_
    cases hp : p q.1 with
    | false => simp
    | true =>
      have hmem := (forall_mem_upTo_iff (hr.table.nodup _)).mpr (h _) q.1
        ((Rep.mem_bucket_iff hr hq).mpr rfl) hp
      simp [hmem]

theorem hashEmptyLoop_eq {bkt : ℕ → List α} {okHead : ℕ → Bool} {M : Buckets ℕ α} (todo i : ℕ)
    (he : ∀ c, i ≤ c → c < i + todo → hlistEmpty okHead M c = some (decide (bkt c = []))) :
    hashEmptyLoop okHead M todo i = some (decide (∀ c ∈ List.range' i todo, bkt c = [])) := by
  induction todo generalizing i with
  | zero => simp [hashEmptyLoop]
  | succ todo ih =>
    have hrec := ih (i + 1) fun c hc hlt => he c (by omega) (by omega)
    rw [hashEmptyLoop, he i (Nat.le_refl i) (by omega)]
    by_cases hi : bkt i = []
    · simp [hi, hrec, List.range'_succ]
    · simp [hi, List.range'_succ]

theorem Rep.hashEmpty_eq (ht : 0 < t.ptrBytes) (hb : bits.toNat ≤ 30) (hr : Rep t bits w a) :
    hashEmpty (w.headOk t) w.mem t (2 ^ bits.toNat) = some (decide (a.linked = [])) := by
  have hempty : ∀ c, 0 ≤ c → c < 0 + 2 ^ bits.toNat → hlistEmpty (w.headOk t) w.mem c =
      some (decide (bucket bits a.linked c = [])) := by
    intro c _ hc
    have hc' : c < 2 ^ bits.toNat := by omega
    have hth := (hr.table.threads c hc').get_eq
    rw [Buckets.get_first] at hth
    rw [hlistEmpty, loadFirst, if_pos (hr.heads c hc'), hth]
    cases bucket bits a.linked c <;> simp [headPtr]
  rw [hashEmpty, hashSize_toUInt32 ht hb, hashEmptySz, oneShl_toNat (by omega),
    hashEmptyLoop_eq _ 0 hempty]
  refine congrArg some (decide_eq_decide.mpr ⟨fun h => ?_, fun h => by simp [h, bucket]⟩)
  refine List.eq_nil_iff_forall_not_mem.mpr fun q hq => ?_
  have hmem : q.1 ∈ bucket bits a.linked (q.2.toNat % 2 ^ bits.toNat) :=
    mem_bucket.mpr ⟨q.2, hq, rfl⟩
  rw [h _ (by simpa [List.mem_range'_1] using Rep.bkt_lt bits q.2)] at hmem
  cases hmem

/-- From `w` on, every legal run is one of a table whose linkage is `a`. -/
def GoesOn (t : Target) (bits : UInt32) (w : World α) (a : Linkage α) : Prop :=
  ∀ ops, LegalRun a ops → ∃ rs w', run (step t) w ops = some (rs, w') ∧
    rs = (runSpec linkStep a ops).1 ∧ Faithful t bits w' (runSpec linkStep a ops).2

theorem Rep.goesOn (hb : bits.toNat ≤ 30) (hr : Rep t bits w a) : GoesOn t bits w a := by
  intro ops hl
  obtain ⟨rs, w', hrun, hans, hr'⟩ := hr.run_rep hb ops hl
  exact ⟨rs, w', hrun, hans, hr'.faithful hb⟩

theorem hashInit_rep {M : Buckets ℕ α} (hb : bits.toNat ≤ 30) (hbits : w.ht.bits = bits)
    (hinit : hashInit (w.headOk t) w.mem (oneShl bits) = some M) :
    Rep t bits { w with mem := M } ⟨[], []⟩ := by
  obtain ⟨hheads, -, htab⟩ := hashInit_isTable hinit
  rw [oneShl_toNat (by omega)] at hheads htab
  exact ⟨hbits, hheads, htab, List.nodup_nil, by simp⟩

def twoHeads : World ℕ :=
  ⟨(Heap.start fun _ _ => true).grant 16, ⟨1, 0, 1⟩,
    ⟨fun _ => .poison 0, fun _ => .poison 0, fun _ => .poison 0⟩⟩

def fourAdds : List (Op ℕ) := [.add 5 7, .add 6 1, .add 4 2, .add 3 5]

theorem twoHeads_init :
    ∃ M, hashInit (twoHeads.headOk lp64) twoHeads.mem (oneShl 1) = some M :=
  hashInit_defined (by decide)

theorem fourAdds_legal : LegalRun ⟨[], []⟩ fourAdds := by
  simp [fourAdds, LegalRun, Legal, linkStep, Linkage.nodes]

/-- After any run on a table that has been initialised, the traversals that are safe against
removal visit every entry once, the deleted ones too, and leave exactly the others. -/
theorem hashForEachSafe_deletes (ht : 0 < t.ptrBytes) (hb : bits.toNat ≤ 30) {M : Buckets ℕ α}
    (hbits : w₀.ht.bits = bits) (hinit : hashInit (w₀.headOk t) w₀.mem (oneShl bits) = some M)
    {ops : List (Op α)} (hl : LegalRun ⟨[], []⟩ ops) (ha : (runSpec linkStep ⟨[], []⟩ ops).2 = a)
    (p : α → Bool) {fuel : ℕ} (hf : a.linked.length < fuel) :
    ∃ rs w, run (step t) { w₀ with mem := M } ops = some (rs, w) ∧
      (∃ w', hashForEachSafeBits (worldFirst t) worldNext (hashDelIf t p) fuel bits (w, []) =
          some (none, (w', visited bits a.linked)) ∧
        hashForEachSafe (worldFirst t) worldNext (hashDelIf t p) fuel t (2 ^ bits.toNat) (w, []) =
          some (none, (w', visited bits a.linked)) ∧
        GoesOn t bits w' ⟨a.linked.filter fun q => !p q.1,
          ((visited bits a.linked).filter p).reverse ++ a.idle⟩) ∧
      ∀ key, ∃ w', hashForEachPossibleSafe (worldFirst t) worldNext (hashDelIf t p) fuel t
          (2 ^ bits.toNat) key (w, []) =
            some (none, (w', bucket bits a.linked (key.toNat % 2 ^ bits.toNat))) ∧
        GoesOn t bits w' ⟨a.linked.filter fun q =>
          !(p q.1 && decide (q.2.toNat % 2 ^ bits.toNat = key.toNat % 2 ^ bits.toNat)),
          ((bucket bits a.linked (key.toNat % 2 ^ bits.toNat)).filter p).reverse ++ a.idle⟩ := by
  obtain ⟨rs, w, hrun, -, hr⟩ := (hashInit_rep hb hbits hinit).run_rep hb ops hl
  rw [ha] at hr
  refine ⟨rs, w, hrun, ?_, fun key => ?_⟩
  · obtain ⟨w', hloop, hr'⟩ := hashForEachSafeBits_dels hb hr hf
    rw [afterDels_visited hr] at hr'
    have hsize : (oneShl bits).toNat = (hashSize t (2 ^ bits.toNat)).toNat := by
      rw [oneShl_toNat (by omega), hashSize_toNat ht hb]
    have hname := hloop
    rw [hashForEachSafeBits, hsize] at hname
    exact ⟨w', hloop, hname, hr'.goesOn hb⟩
  · obtain ⟨w', hloop, hr'⟩ := hashForEachPossibleSafe_dels ht hb hr key hf
    rw [afterDels_bucket hr] at hr'
    exact ⟨w', hloop, hr'.goesOn hb⟩

theorem hashForEachSafe_deletes_odd : ∃ M rs w w' w'',
    hashInit (twoHeads.headOk lp64) twoHeads.mem (oneShl 1) = some M ∧
    run (step lp64) { twoHeads with mem := M } fourAdds = some (rs, w) ∧
    hashForEachSafeBits (worldFirst lp64) worldNext (hashDelIf lp64 Nat.bodd) 5 1 (w, []) =
      some (none, (w', [4, 3, 6, 5])) ∧
    GoesOn lp64 1 w' ⟨[(4, 2), (6, 1)], [5, 3]⟩ ∧
    hashForEachPossibleSafe (worldFirst lp64) worldNext (hashDelIf lp64 Nat.bodd) 5 lp64 2 8
      (w, []) = some (none, (w'', [4])) ∧
    GoesOn lp64 1 w'' ⟨[(3, 5), (4, 2), (6, 1), (5, 7)], []⟩ := by
  obtain ⟨M, hinit⟩ := twoHeads_init
  obtain ⟨rs, w, hrun, ⟨w', hsafe, -, hgo⟩, hkey⟩ := hashForEachSafe_deletes (by decide) (by decide)
    rfl hinit fourAdds_legal rfl Nat.bodd (show 4 < 5 by decide)
  obtain ⟨w'', hpossible, hgo'⟩ := hkey 8
  exact ⟨M, rs, w, w', w'', hinit, hrun, hsafe, hgo, hpossible, hgo'⟩

/-- The plain traversal with `hash_del` leaves a bucket at its first deleted entry, which is
right exactly when no bucket has two entries to delete. -/
theorem hashForEachBits_deletes (hb : bits.toNat ≤ 30) {M : Buckets ℕ α}
    (hbits : w₀.ht.bits = bits) (hinit : hashInit (w₀.headOk t) w₀.mem (oneShl bits) = some M)
    {ops : List (Op α)} (hl : LegalRun ⟨[], []⟩ ops) (ha : (runSpec linkStep ⟨[], []⟩ ops).2 = a)
    (p : α → Bool) {fuel : ℕ} (hf : a.linked.length < fuel) :
    ∃ rs w w' b, run (step t) { w₀ with mem := M } ops = some (rs, w) ∧
      hashForEachBits (worldFirst t) worldNext (hashDelIf t p) fuel bits (w, []) =
        some (none, (w', (List.range (2 ^ bits.toNat)).flatMap fun b =>
          upTo p (bucket bits a.linked b))) ∧
      GoesOn t bits w' b ∧
      b.linked = a.linked.filter (fun q =>
        !p q.1 || decide (q.1 ∉ upTo p (bucket bits a.linked (q.2.toNat % 2 ^ bits.toNat)))) ∧
      (b.linked = a.linked.filter (fun q => !p q.1) ↔
        ∀ c, (bucket bits a.linked c).countP p ≤ 1) := by
  obtain ⟨rs, w, hrun, -, hr⟩ := (hashInit_rep hb hbits hinit).run_rep hb ops hl
  rw [ha] at hr
  obtain ⟨w', hloop, hr'⟩ := hashForEachBits_dels hb hr hf
  refine ⟨rs, w, w', _, hrun, hloop, hr'.goesOn hb, afterDels_upTo hr, ?_⟩
  rw [afterDels_upTo hr]
  exact filter_upTo_eq_iff hr

/-- Of the odd entries 3 and 5 of one bucket, 5 is not reached. -/
theorem hashForEachBits_deletes_odd : ∃ M rs w w' b,
    hashInit (twoHeads.headOk lp64) twoHeads.mem (oneShl 1) = some M ∧
    run (step lp64) { twoHeads with mem := M } fourAdds = some (rs, w) ∧
    hashForEachBits (worldFirst lp64) worldNext (hashDelIf lp64 Nat.bodd) 5 1 (w, []) =
      some (none, (w', [4, 3])) ∧ GoesOn lp64 1 w' b ∧
    b.linked = [(4, 2), (6, 1), (5, 7)] := by
  obtain ⟨M, hinit⟩ := twoHeads_init
  obtain ⟨rs, w, w', b, hrun, hloop, hgo, hlinked, -⟩ := hashForEachBits_deletes (by decide) rfl
    hinit fourAdds_legal rfl Nat.bodd (show 4 < 5 by decide)
  exact ⟨M, rs, w, w', b, hinit, hrun, hloop, hgo, hlinked⟩

/-- A table of static size behaves as its linkage says, and the macros that take the number of
buckets from the array see what the macros that are told `bits` see. -/
theorem hashInitName_run_faithful (ht : 0 < t.ptrBytes) (hb : bits.toNat ≤ 30)
    (hbits : w₀.ht.bits = bits) (hheads : ∀ b < 2 ^ bits.toNat, w₀.headOk t b = true)
    {ops : List (Op α)} (hl : LegalRun ⟨[], []⟩ ops) (ha : (runSpec linkStep ⟨[], []⟩ ops).2 = a) :
    ∃ M rs w, hashInitName (w₀.headOk t) w₀.mem t (2 ^ bits.toNat) = some M ∧
      run (step t) { w₀ with mem := M } ops = some (rs, w) ∧ Faithful t bits w a ∧
      hashEmpty (w.headOk t) w.mem t (2 ^ bits.toNat) = some (decide (a.linked = [])) ∧
      ∀ {σ : Type} (body : σ → α → Option (σ × Bool)) (s : σ) (fuel : ℕ), a.linked.length < fuel →
        hashForEach (fun _ => loadFirst (w.headOk t) w.mem) (fun _ => loadNext nodeOk w.mem) body
            fuel t (2 ^ bits.toNat) s = foldUntil body s (visited bits a.linked) ∧
        ∀ key, hashForEachPossible (fun _ => loadFirst (w.headOk t) w.mem)
            (fun _ => loadNext nodeOk w.mem) body fuel t (2 ^ bits.toNat) key s =
          foldUntil body s (bucket bits a.linked (key.toNat % 2 ^ bits.toNat)) := by
  have hone : (oneShl bits).toNat = 2 ^ bits.toNat := oneShl_toNat (by omega)
  obtain ⟨M, hinit⟩ : ∃ M, hashInit (w₀.headOk t) w₀.mem (oneShl bits) = some M :=
    hashInit_defined fun b hlt => hheads b (by rwa [hone] at hlt)
  obtain ⟨rs, w, hrun, -, hr⟩ := (hashInit_rep hb hbits hinit).run_rep hb ops hl
  rw [ha] at hr
  refine ⟨M, rs, w, ?_, hrun, hr.faithful hb, hr.hashEmpty_eq ht hb, fun body s fuel hf =>
    ⟨?_, fun key => ?_⟩⟩
  · rw [hashInitName, hashSize_toUInt32 ht hb, hinit]
  · have hall := (hr.faithful hb).iteration body s fuel hf
    rwa [hr.bits_eq, hashForEachBits, hone, ← hashSize_toNat ht hb] at hall
  · have hone' := (hr.faithful hb).possible body s key fuel hf
    rw [hr.bits_eq, hashForEachPossibleBits] at hone'
    rw [hashForEachPossible, hashBits_eq ht hb]
    exact hone'

theorem hashInitName_run_faithful_twoHeads : ∃ M rs w,
    hashInitName (twoHeads.headOk lp64) twoHeads.mem lp64 2 = some M ∧
    run (step lp64) { twoHeads with mem := M } fourAdds = some (rs, w) ∧
    hashEmpty (w.headOk lp64) w.mem lp64 2 = some false ∧
    hashForEach (fun _ => loadFirst (w.headOk lp64) w.mem) (fun _ => loadNext nodeOk w.mem)
      (fun s x => some (s + x, false)) 5 lp64 2 0 = some (none, 18) := by
  obtain ⟨M, rs, w, hinit, hrun, -, hempty, hall⟩ := hashInitName_run_faithful (by decide)
    (show (1 : UInt32).toNat ≤ 30 by decide) rfl (show ∀ b < 2 ^ (1 : UInt32).toNat,
      twoHeads.headOk lp64 b = true by decide) fourAdds_legal rfl
  exact ⟨M, rs, w, hinit, hrun, hempty,
    (hall (fun s x => some (s + x, false)) 0 5 (by decide)).1⟩

end
end KernelHashtable.Hashtable
