import KernelHashtable.AssocRuns
import KernelHashtable.Lib.Multimap

/-!
# The associative array as a multimap that remembers the order of insertion

The pairs of an array are the keys and data of its items. As long as nothing newer in
its bucket is mistaken for a key, a keyed call acts on the newest pair of that key; with
keys of one size nothing ever is.
-/

namespace KernelHashtable.Assoc
open Hash Hashtable HList KList Multimap

def Item.pair (c : Item) : Key × ℕ := (c.key, c.data)

def clear (past : ℕ → Bool) (k : Key) : List (ℕ × List UInt8) → Bool
  | [] => true
  | e :: es => decide (e.2 = k.bytes) || (!agrees past k e && clear past k es)

inductive Answer where
  | code (r : ℤ)
  | null
  | pair (key : List UInt8) (data : ℕ)
  | outside
  deriving DecidableEq

def Ret.answer : Ret → Answer
  | .code r => .code r
  | .entry .null _ => .null
  | .entry (.addr (.node _)) (some (key, data)) => .pair key data
  | .entry _ _ => .outside

def pairAnswer : Option (Key × ℕ) → Answer
  | none => .null
  | some (k, d) => .pair k.bytes d

/-- The calls on the list of pairs, when no allocation fails. -/
def pairStep (l : List (Key × ℕ)) : Op → Answer × List (Key × ℕ)
  | .add data key => (.code 0, l ++ [(key, data)])
  | .addReplace _ data key => (.code 0, removeNewest l key ++ [(key, data)])
  | .del _ key => (.code (if (newest l key).isSome then 0 else 1), removeNewest l key)
  | .delFirst => (.code (if l = [] then -1 else 0), l.tail)
  | .delLast => (.code (if l = [] then -1 else 0), l.dropLast)
  | .getByKey _ key => (pairAnswer (newest l key), l)
  | .getFirst => (pairAnswer l.head?, l)
  | .getLast => (pairAnswer l.getLast?, l)

def Op.query : Op → Option ((ℕ → Bool) × Key)
  | .addReplace past _ key | .del past key | .getByKey past key => some (past, key)
  | _ => none

def Op.key? : Op → Option Key
  | .add _ key => some key
  | op => op.query.map Prod.snd

section
variable {arr arr' : AssocArray} {cs : List Item} {c : Item} {past : ℕ → Bool} {k : Key}
  {bits : UInt32}

theorem agrees_self (past : ℕ → Bool) (k : Key) (e : ℕ) : agrees past k (e, k.bytes) = true := by
  simp [agrees]

theorem agrees_of_length {e : ℕ × List UInt8} (hlen : e.2.length = k.bytes.length)
    (ha : agrees past k e = true) : e.2 = k.bytes := by
  simpa [agrees, hlen, List.take_of_length_le] using ha

theorem find_compares (l : List Item) (hc : clear past k (l.map Item.stored) = true) :
    l.find? (compares past k) = l.find? fun c => decide (c.key = k) := by
  induction l with
  | nil => rfl
  | cons c l ih =>
    by_cases hk : c.key = k
    · have hag : compares past k c = true := by
        rw [compares, Item.stored, hk]
        exact agrees_self past k c.entry
      simp [hk, hag]
    · have hne : c.key.bytes ≠ k.bytes := fun e => hk (Key.ext_bytes e)
      simp only [List.map_cons, clear, Item.stored, hne, decide_false, Bool.false_or,
        Bool.and_eq_true, Bool.not_eq_true'] at hc
      have hag : compares past k c = false := hc.1
      simp [hk, hag, ih hc.2]

theorem found_eq_newest (hc : clear past k ((candidates bits cs k).map Item.stored) = true) :
    found past bits cs k = cs.reverse.find? fun c => decide (c.key = k) := by
  rw [found, find_compares _ hc, candidates, chain, ← List.filter_reverse, List.find?_filter]
  refine congrArg (fun p => List.find? p cs.reverse) (funext fun c => ?_)
  by_cases hk : c.key = k
  · simp [hk]
  · simp [hk]

theorem found_pair (hc : clear past k ((candidates bits cs k).map Item.stored) = true) :
    (found past bits cs k).map Item.pair = newest (cs.map Item.pair) k := by
  rw [found_eq_newest hc, newest, ← List.map_reverse, List.find?_map]
  rfl

theorem without_pairs (hnd : cs.Nodup)
    (hc : clear past k ((candidates bits cs k).map Item.stored) = true) :
    (without past bits cs k).map Item.pair = removeNewest (cs.map Item.pair) k := by
  have hmap : removeNewest (cs.map Item.pair) k =
      ((cs.reverse.eraseP fun c => decide (c.key = k)).reverse).map Item.pair := by
    rw [removeNewest, ← List.map_reverse, List.eraseP_map, List.map_reverse]
    rfl
  rw [hmap, without, found_eq_newest hc]
  cases hf : cs.reverse.find? fun c => decide (c.key = k) with
  | none =>
    have hno := List.find?_eq_none.mp hf
    simp only [List.eraseP_of_forall_not hno, List.reverse_reverse]
  | some c =>
    obtain ⟨hk, as, bs, hcs, has⟩ := List.find?_eq_some_iff_append.mp hf
    have hno : ∀ d ∈ as, ¬ decide (d.key = k) = true := by simpa using has
    obtain rfl : cs = bs.reverse ++ c :: as.reverse := by
      rw [← List.reverse_reverse cs, hcs]
      simp
    have hout : c ∉ bs.reverse := fun hm =>
      (List.nodup_append.mp hnd).2.2 c hm c (by simp) rfl
    rw [hcs, List.eraseP_append_right _ hno,
      List.eraseP_cons_of_pos (p := fun d : Item => decide (d.key = k)) hk]
    simp [List.erase_append_right _ hout]

def Op.Unmistaken (op : Op) (arr : AssocArray) : Prop :=
  ∀ q ∈ op.query, ∀ es ∈ bucketKeys arr q.2, clear q.1 q.2 es = true

theorem itemRet_answer (o : Option Item) : (itemRet o).answer = pairAnswer (o.map Item.pair) := by
  cases o <;> rfl

def Callbacks.Willing : Callbacks → Prop
  | .default refuses => ∀ i, refuses i = false
  | .mac _ => True

def Supplied (arr : AssocArray) : Prop :=
  (∀ i n, arr.store.heap.grants i n = true) ∧ arr.cb.Willing

theorem Supplied.fillGranted (hs : Supplied arr) :
    arr.cb.FillGranted arr.store.heap k := by
  cases hcb : arr.cb with
  | default refuses =>
    have hw := hs.2
    rw [hcb] at hw
    exact ⟨hs.1 _ _, hw _, hs.1 _ _⟩
  | mac hostname => exact ⟨hs.1 _ _, trivial⟩

theorem Supplied.moved {cs' : List Item} {new : List ℕ} (hs : Supplied arr)
    (hm : Moved arr arr' cs cs' new) : Supplied arr' :=
  ⟨hm.grants ▸ hs.1, hm.cb ▸ hs.2⟩

theorem Rep.nodup (hr : Rep arr cs) : cs.Nodup := List.Nodup.of_map _ hr.entries_nodup

theorem Rep.clear_candidates (hr : Rep arr cs) {op : Op} (hu : op.Unmistaken arr)
    (hq : op.query = some (past, k)) :
    clear past k ((candidates arr.ht.bits cs k).map Item.stored) = true :=
  hu (past, k) hq _ hr.bucketKeys_eq

theorem Rep.pairStep (hr : Rep arr cs) (hs : Supplied arr) (op : Op)
    (hd : ∀ d ∈ op.data?, arr.cb.Accepts d) (hu : op.Unmistaken arr) : ∃ r arr' cs',
    Assoc.call arr op = some (r, arr') ∧ Moved arr arr' cs cs' (stored op r) ∧
      r.answer = (Assoc.pairStep (cs.map Item.pair) op).1 ∧
      cs'.map Item.pair = (Assoc.pairStep (cs.map Item.pair) op).2 := by
  cases op with
  | add data key =>
    obtain ⟨code, arr', cs', hadd, hcase⟩ := hr.add (k := key) (hd data rfl)
    obtain ⟨-, rfl, hm, c, rfl, rfl, rfl⟩ | ⟨hno, -⟩ := hcase
    · exact ⟨.code 0, arr', _, by simp [Assoc.call, hadd], hm, rfl,
        by simp [Assoc.pairStep, Item.pair]⟩
    · exact absurd hs.fillGranted hno
  | addReplace past data key =>
    have hc := hr.clear_candidates hu rfl
    obtain ⟨arr₁, hdel, hm₁⟩ := hr.del past key
    have hd₁ : arr₁.cb.Accepts data := by
      rw [hm₁.cb]
      exact hd data rfl
    obtain ⟨code, arr', cs', hadd, hcase⟩ := hm₁.rep.add (k := key) hd₁
    obtain ⟨-, rfl, hm, c, rfl, rfl, rfl⟩ | ⟨hno, -⟩ := hcase
    · refine ⟨.code 0, arr', _, by simp [Assoc.call, arrayAddReplace, hdel, hadd], hm₁.trans hm,
        rfl, ?_⟩
      simp [Assoc.pairStep, without_pairs hr.nodup hc, Item.pair]
    · exact absurd (hs.moved hm₁).fillGranted hno
  | del past key =>
    have hc := hr.clear_candidates hu rfl
    obtain ⟨arr', hdel, hm⟩ := hr.del past key
    refine ⟨_, arr', _, by rw [Assoc.call, hdel]; rfl, by simpa [stored, Op.data?] using hm, ?_,
      without_pairs hr.nodup hc⟩
    simp [Ret.answer, Assoc.pairStep, ← found_pair hc]
  | delFirst =>
    obtain ⟨arr', hdel, hm⟩ := hr.delFirst
    refine ⟨_, arr', _, by rw [Assoc.call, hdel]; rfl, by simpa [stored, Op.data?] using hm, ?_,
      List.map_tail⟩
    simp [Ret.answer, Assoc.pairStep]
  | delLast =>
    obtain ⟨arr', hdel, hm⟩ := hr.delLast
    refine ⟨_, arr', _, by rw [Assoc.call, hdel]; rfl, by simpa [stored, Op.data?] using hm, ?_,
      List.map_dropLast⟩
    simp [Ret.answer, Assoc.pairStep]
  | getByKey past key =>
    have hc := hr.clear_candidates hu rfl
    refine ⟨_, arr, cs, by rw [Assoc.call, hr.getByKey]; rfl, ?_, ?_, rfl⟩
    · simpa [stored, Op.data?] using Moved.refl hr
    · rw [hr.entryRet_item _ fun c hf => (found_mem hf).1, itemRet_answer, found_pair hc]
      rfl
  | getFirst =>
    refine ⟨_, arr, cs, by rw [Assoc.call, hr.getFirst]; rfl, ?_, ?_, rfl⟩
    · simpa [stored, Op.data?] using Moved.refl hr
    · rw [hr.entryRet_item _ fun c hf => List.mem_of_head? hf, itemRet_answer, ← List.head?_map]
      rfl
  | getLast =>
    refine ⟨_, arr, cs, by rw [Assoc.call, hr.getLast]; rfl, ?_, ?_, rfl⟩
    · simpa [stored, Op.data?] using Moved.refl hr
    · rw [hr.entryRet_item _ fun c hf => List.mem_of_getLast? hf, itemRet_answer,
        ← List.getLast?_map]
      rfl

theorem Rep.run_pairs (hr : Rep arr cs) (hsup : Supplied arr) {ops : List Op}
    (hd : ∀ op ∈ ops, ∀ d ∈ op.data?, arr.cb.Accepts d)
    (hu : AllSteps step (fun s op => ∀ a ∈ s, op.Unmistaken a) (some arr) ops) :
    ∃ rs arr' cs', KernelHashtable.run step (some arr) ops = some (rs, some arr') ∧
      rs.map Ret.answer = (runSpec Assoc.pairStep (cs.map Item.pair) ops).1 ∧ Rep arr' cs' ∧
      cs'.map Item.pair = (runSpec Assoc.pairStep (cs.map Item.pair) ops).2 := by
  obtain ⟨rs, s', hrun, hans, -, ⟨arr', cs', rfl, hm, hpairs⟩, -⟩ := run_simulates
    (R := fun s l new os =>
      (∃ arr' cs', s = some arr' ∧ Moved arr arr' cs cs' new ∧ cs'.map Item.pair = l) ∧
      (∀ op ∈ os, ∀ d ∈ op.data?, arr.cb.Accepts d) ∧
      AllSteps step (fun s op => ∀ a ∈ s, op.Unmistaken a) s os)
    Assoc.pairStep Ret.answer (fun new op r => new ++ stored op r)
    (fun s l new op os hR => by
      obtain ⟨⟨arr₁, cs₁, rfl, hm₁, rfl⟩, hd₁, hu₁, hrest⟩ := hR
      obtain ⟨r, arr₂, cs₂, hcall, hm₂, hans, hpairs⟩ := hm₁.rep.pairStep (hsup.moved hm₁) op
        (hm₁.cb ▸ hd₁ op (by simp)) (hu₁ arr₁ rfl)
      have hs : step (some arr₁) op = some (r, some arr₂) := by simp [step, hcall]
      exact ⟨r, some arr₂, hs, hans, ⟨arr₂, cs₂, rfl, hm₁.trans hm₂, hpairs⟩,
        fun o ho => hd₁ o (List.mem_cons_of_mem op ho), hrest r _ hs⟩)
    (g := []) ⟨⟨arr, cs, rfl, Moved.refl hr, rfl⟩, hd, hu⟩
  exact ⟨rs, arr', cs', hrun, hans, hm.rep, hpairs⟩

theorem clear_of_length {es : List (ℕ × List UInt8)}
    (hlen : ∀ e ∈ es, e.2.length = k.bytes.length) : clear past k es = true := by
  induction es with
  | nil => rfl
  | cons e es ih =>
    have hrest := ih fun f hf => hlen f (List.mem_cons_of_mem e hf)
    by_cases hk : e.2 = k.bytes
    · simp [clear, hk]
    · have hag : agrees past k e = false :=
        Bool.eq_false_iff.mpr fun ha => hk (agrees_of_length (hlen e (by simp)) ha)
      simp [clear, hag, hrest]

theorem Rep.unmistaken (hr : Rep arr cs) {n : ℕ} (hlen : ∀ c ∈ cs, c.key.bytes.length = n)
    {op : Op} (hk : ∀ k ∈ op.key?, k.bytes.length = n) : op.Unmistaken arr := by
  intro q hq es hes
  have hqk : q.2 ∈ op.key? := by
    cases op <;> simp_all [Op.query, Op.key?]
  rw [hr.bucketKeys_eq] at hes
  obtain rfl := Option.some.inj hes
  apply clear_of_length
  intro e he
  obtain ⟨c, hc, rfl⟩ := List.mem_map.mp he
  exact (hlen c (mem_chain.mp hc).1).trans (hk q.2 hqk).symm

theorem mem_pairStep {l : List (Key × ℕ)} {op : Op} {p : Key × ℕ}
    (hp : p ∈ (pairStep l op).2) : p ∈ l ∨ p.1 ∈ op.key? := by
  cases op with
  | add data key =>
    rcases List.mem_append.mp hp with hp | hp
    · exact Or.inl hp
    · exact Or.inr (by simp_all [Op.key?])
  | addReplace past data key =>
    rcases List.mem_append.mp hp with hp | hp
    · exact Or.inl (mem_of_mem_removeNewest hp)
    · exact Or.inr (by simp_all [Op.key?, Op.query])
  | del past key => exact Or.inl (mem_of_mem_removeNewest hp)
  | delFirst => exact Or.inl (List.mem_of_mem_tail hp)
  | delLast => exact Or.inl (List.mem_of_mem_dropLast hp)
  | getByKey past key => exact Or.inl hp
  | getFirst => exact Or.inl hp
  | getLast => exact Or.inl hp

theorem Rep.allSteps_unmistaken (hr : Rep arr cs) (hsup : Supplied arr) {ops : List Op} {n : ℕ}
    (hlen : ∀ c ∈ cs, c.key.bytes.length = n)
    (hops : ∀ op ∈ ops, (∀ d ∈ op.data?, arr.cb.Accepts d) ∧
      ∀ k ∈ op.key?, k.bytes.length = n) :
    AllSteps step (fun s op => ∀ a ∈ s, op.Unmistaken a) (some arr) ops := by
  refine allSteps_of_invariant (I := fun s => ∃ arr' cs' new, s = some arr' ∧
    Moved arr arr' cs cs' new ∧ ∀ c ∈ cs', c.key.bytes.length = n) ?_ ?_
    ⟨arr, cs, [], rfl, Moved.refl hr, hlen⟩ hops
  · rintro s op ⟨arr₁, cs₁, new, rfl, hm₁, hlen₁⟩ hop a ha
    obtain rfl := Option.some.inj ha
    exact hm₁.rep.unmistaken hlen₁ hop.2
  · rintro s op r s' ⟨arr₁, cs₁, new, rfl, hm₁, hlen₁⟩ hop hs
    obtain ⟨r', arr₂, cs₂, hcall, hm₂, -, hpairs⟩ := hm₁.rep.pairStep (hsup.moved hm₁) op
      (hm₁.cb ▸ hop.1) (hm₁.rep.unmistaken hlen₁ hop.2)
    obtain ⟨-, rfl⟩ : r' = r ∧ some arr₂ = s' := by simpa [step, hcall] using hs
    refine ⟨arr₂, cs₂, _, rfl, hm₁.trans hm₂, fun c hc => ?_⟩
    have hp := hpairs ▸ List.mem_map_of_mem (f := Item.pair) hc
    rcases mem_pairStep hp with hp | hp
    · obtain ⟨d, hd, hdc⟩ := List.mem_map.mp hp
      have hkey : d.key = c.key := congrArg Prod.fst hdc
      exact hkey ▸ hlen₁ d hd
    · exact hop.2 _ hp

theorem arrayCreate_all_granted {grants : ℕ → ℕ → Bool} (hg : ∀ i n, grants i n = true)
    (raw : Raw) {bits : UInt32} (hb : bits.toNat ≤ 30) (cb : Callbacks) : ∃ arr h,
    arrayCreate (Heap.start grants) raw bits cb = some (some arr, h) := by
  obtain ⟨arr, hc, -⟩ := arrayCreate_granted (h := Heap.start grants) raw cb hb
    (Heap.Balanced.start grants) (fun _ => rfl) ⟨hg _ _, hg _ _, hg _ _⟩
  exact ⟨arr, _, hc⟩

/-- With keys of one size and enough memory the array is the multimap of its pairs: it
answers every call as the list does, and its ring holds the pairs of the list in order. -/
theorem arrayCreate_run_refines_pairs (grants : ℕ → ℕ → Bool) (hg : ∀ i n, grants i n = true)
    (raw : Raw) (bits : UInt32) (hb : bits.toNat ≤ 30) (cb : Callbacks) (hw : cb.Willing) (n : ℕ)
    (ops : List Op) (hops : ∀ op ∈ ops, (∀ d ∈ op.data?, cb.Accepts d) ∧
      ∀ k ∈ op.key?, k.bytes.length = n) : ∃ arr h rs arr' es,
    arrayCreate (Heap.start grants) raw bits cb = some (some arr, h) ∧
    KernelHashtable.run step (some arr) ops = some (rs, some arr') ∧
    rs.map Ret.answer = (runSpec Assoc.pairStep [] ops).1 ∧ Threaded arr' es ∧
    es.map (readEntry arr'.store) =
      (runSpec Assoc.pairStep [] ops).2.map fun p => some (p.1.bytes, p.2) := by
  obtain ⟨arr, h, hc⟩ := arrayCreate_all_granted hg raw hb cb
  obtain ⟨hrep, rfl, -, -, rfl, -⟩ := arrayCreate_rep hb hc
  obtain ⟨rs, arr', cs, hrun, hans, hrep', hpairs⟩ := hrep.run_pairs ⟨hg, hw⟩
    (fun op ho => (hops op ho).1) (hrep.allSteps_unmistaken ⟨hg, hw⟩ (by simp) hops)
  refine ⟨arr, h, rs, arr', _, hc, hrun, hans, hrep'.threaded, ?_⟩
  rw [List.map_nil] at hpairs
  rw [← hpairs, List.map_map, List.map_map]
  exact List.map_congr_left fun c hcs => hrep'.readEntry_eq hcs

theorem arrayCreate_run_refines_nine : ∃ arr h rs arr' es,
    arrayCreate (Heap.start fun _ _ => true) .zero 1 (.default fun _ => false) =
      some (some arr, h) ∧
    KernelHashtable.run step (some arr) [.add 5 ⟨[1, 2], by decide⟩, .add 6 ⟨[2, 1], by decide⟩,
      .add 7 ⟨[1, 2], by decide⟩, .getByKey (fun _ => true) ⟨[1, 2], by decide⟩,
      .del (fun _ => true) ⟨[1, 2], by decide⟩,
      .addReplace (fun _ => true) 8 ⟨[1, 2], by decide⟩, .getFirst, .delLast, .getLast] =
        some (rs, some arr') ∧
    rs.map Ret.answer = [.code 0, .code 0, .code 0, .pair [1, 2] 7, .code 0, .code 0,
      .pair [2, 1] 6, .code 0, .pair [2, 1] 6] ∧
    Threaded arr' es ∧ es.map (readEntry arr'.store) = [some ([2, 1], 6)] :=
  arrayCreate_run_refines_pairs (fun _ _ => true) (fun _ _ => rfl) .zero 1 (by decide)
    (.default fun _ => false) (fun _ => rfl) 2 _
    (by simp [Op.data?, Op.key?, Op.query, Callbacks.Accepts])

end
end KernelHashtable.Assoc
