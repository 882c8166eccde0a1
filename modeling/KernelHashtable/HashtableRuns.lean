import KernelHashtable.Hashtable
import Mathlib.Data.List.Perm.Lattice

/-!
# Runs of the intrusive hash table

Nodes are added, deleted and initialised by a caller who adds only unlinked nodes and
deletes only nodes that are linked, initialised or deleted. Every such run keeps the
chains of the table equal to the buckets of a plain list of the linked nodes, newest
first.
-/

namespace KernelHashtable.Hashtable
open HList

variable {α : Type} [DecidableEq α]

structure World (α : Type) where
  heap : Heap
  ht : HashtableT
  mem : Buckets ℕ α

def World.headOk (t : Target) (w : World α) (b : ℕ) : Bool :=
  Hashtable.headOk t w.heap w.ht.table b

def nodeOk (_ : α) : Bool := true

omit [DecidableEq α] in
theorem nodeOk_eq (n : α) : nodeOk n = true := rfl

inductive Op (α : Type) where
  | init (node : α)
  | add (node : α) (key : UInt32)
  | del (node : α)

def Op.isAdd : Op α → Bool
  | .add _ _ => true
  | _ => false

def step (t : Target) (w : World α) : Op α → Option (Bool × World α)
  | .init node => do
    let mem ← initHlistNode nodeOk w.mem (.addr node)
    return (false, { w with mem := mem })
  | .add node key => do
    let mem ← hashtableAdd (w.headOk t) nodeOk w.mem w.ht node key
    return (false, { w with mem := mem })
  | .del node => do
    let hashed ← hashHashed nodeOk w.mem node
    let mem ← hashDel (w.headOk t) nodeOk w.mem node
    return (hashed, { w with mem := mem })

/-- The linked nodes with their keys, newest first, and the unlinked nodes that have
been initialised or deleted. -/
structure Linkage (α : Type) where
  linked : List (α × UInt32)
  idle : List α

def Linkage.nodes (a : Linkage α) : List α := a.linked.map Prod.fst

def linkStep (a : Linkage α) : Op α → Bool × Linkage α
  | .init node => (false, ⟨a.linked, node :: a.idle⟩)
  | .add node key => (false, ⟨(node, key) :: a.linked, a.idle.filter (· ≠ node)⟩)
  | .del node =>
    (decide (node ∈ a.nodes), ⟨a.linked.filter (·.1 ≠ node), node :: a.idle⟩)

def Legal (a : Linkage α) : Op α → Prop
  | .init node => node ∉ a.nodes
  | .add node _ => node ∉ a.nodes
  | .del node => node ∈ a.nodes ∨ node ∈ a.idle

def LegalRun : Linkage α → List (Op α) → Prop
  | _, [] => True
  | a, o :: os => Legal a o ∧ LegalRun (linkStep a o).2 os

def bucket (bits : UInt32) (linked : List (α × UInt32)) (b : ℕ) : List α :=
  (linked.filter fun p => decide (p.2.toNat % 2 ^ bits.toNat = b)).map Prod.fst

def visited (bits : UInt32) (linked : List (α × UInt32)) : List α :=
  (List.range (2 ^ bits.toNat)).flatMap (bucket bits linked)

section
variable {bits : UInt32} {l us vs : List (α × UInt32)} {n : α} {k : UInt32} {b : ℕ}

omit [DecidableEq α] in
theorem mem_bucket : n ∈ bucket bits l b ↔ ∃ k, (n, k) ∈ l ∧ k.toNat % 2 ^ bits.toNat = b := by
  simp [bucket]

omit [DecidableEq α] in
theorem bucket_length_le : (bucket bits l b).length ≤ l.length := by
  simpa [bucket] using List.length_filter_le _ l

omit [DecidableEq α] in
theorem bucket_append (b : ℕ) :
    bucket bits (us ++ vs) b = bucket bits us b ++ bucket bits vs b := by
  simp [bucket]

omit [DecidableEq α] in
theorem bucket_cons_self : bucket bits ((n, k) :: l) (k.toNat % 2 ^ bits.toNat) =
    n :: bucket bits l (k.toNat % 2 ^ bits.toNat) := by
  simp [bucket]

omit [DecidableEq α] in
theorem bucket_cons_of_ne (hb : b ≠ k.toNat % 2 ^ bits.toNat) :
    bucket bits ((n, k) :: l) b = bucket bits l b := by
  simp [bucket, hb.symm]

omit [DecidableEq α] in
theorem bucket_add : bucket bits ((n, k) :: l) = Function.update (bucket bits l)
    (k.toNat % 2 ^ bits.toNat) (n :: bucket bits l (k.toNat % 2 ^ bits.toNat)) := by
  funext b
  by_cases hb : b = k.toNat % 2 ^ bits.toNat
  · rw [hb, Function.update_self, bucket_cons_self]
  · rw [Function.update_of_ne hb, bucket_cons_of_ne hb]

omit [DecidableEq α] in
theorem bucket_del : bucket bits (us ++ vs) = Function.update (bucket bits (us ++ (n, k) :: vs))
    (k.toNat % 2 ^ bits.toNat) (bucket bits us (k.toNat % 2 ^ bits.toNat) ++
      bucket bits vs (k.toNat % 2 ^ bits.toNat)) := by
  funext b
  by_cases hb : b = k.toNat % 2 ^ bits.toNat
  · rw [hb, Function.update_self, bucket_append]
  · rw [Function.update_of_ne hb, bucket_append, bucket_append, bucket_cons_of_ne hb]

theorem filter_ne_eq (hnd : ((us ++ (n, k) :: vs).map Prod.fst).Nodup) :
    (us ++ (n, k) :: vs).filter (·.1 ≠ n) = us ++ vs := by
  rw [List.map_append, List.map_cons] at hnd
  obtain ⟨-, hv, hd⟩ := List.nodup_append.mp hnd
  have hkeep : ∀ p ∈ us ++ vs, decide (p.1 ≠ n) = true := by
    intro p hp
    apply decide_eq_true
    intro e
    rcases List.mem_append.mp hp with hp | hp
    · exact hd p.1 (List.mem_map_of_mem hp) n (by simp) e
    · exact (List.nodup_cons.mp hv).1 (List.mem_map.mpr ⟨p, hp, e⟩)
  have hdrop : (us ++ (n, k) :: vs).filter (·.1 ≠ n) = (us ++ vs).filter (·.1 ≠ n) := by
    simp
  rw [hdrop, List.filter_eq_self.mpr hkeep]

theorem del_split {a : Linkage α} (hnd : a.nodes.Nodup) (hn : n ∈ a.nodes) :
    ∃ us vs k, a.linked = us ++ (n, k) :: vs ∧ a.linked.filter (·.1 ≠ n) = us ++ vs := by
  obtain ⟨k, hk⟩ : ∃ k, (n, k) ∈ a.linked := by
    obtain ⟨p, hp, rfl⟩ := List.mem_map.mp hn
    exact ⟨p.2, hp⟩
  obtain ⟨us, vs, hl⟩ := List.append_of_mem hk
  refine ⟨us, vs, k, hl, ?_⟩
  rw [Linkage.nodes, hl] at hnd
  rw [hl, filter_ne_eq hnd]

theorem del_unlinked {a : Linkage α} (hn : n ∉ a.nodes) :
    a.linked.filter (·.1 ≠ n) = a.linked := by
  refine List.filter_eq_self.mpr fun p hp => decide_eq_true fun e => hn ?_
  exact List.mem_map.mpr ⟨p, hp, e⟩

theorem linkStep_balance {a : Linkage α} {o : Op α} (hnd : a.nodes.Nodup) (hl : Legal a o) :
    (linkStep a o).2.nodes.Nodup ∧
      (linkStep a o).2.linked.length + (if (linkStep a o).1 then 1 else 0) =
        a.linked.length + (if o.isAdd then 1 else 0) := by
  cases o with
  | init n => exact ⟨hnd, rfl⟩
  | add n k => exact ⟨List.nodup_cons.mpr ⟨hl, hnd⟩, rfl⟩
  | del n =>
    by_cases hn : n ∈ a.nodes
    · obtain ⟨us, vs, k, hsplit, hrest⟩ := del_split hnd hn
      have hsub : (us ++ vs).Sublist a.linked := by
        rw [hsplit]
        exact List.Sublist.append_left (List.sublist_cons_self _ vs) us
      refine ⟨?_, ?_⟩
      · simp only [linkStep, Linkage.nodes, hrest]
        exact hnd.sublist (hsub.map _)
      · have hlen := congrArg List.length hsplit
        rw [List.length_append, List.length_cons] at hlen
        simp only [linkStep, hrest, hn, Op.isAdd, decide_true, if_true, List.length_append,
          Bool.false_eq_true, if_false]
        omega
    · refine ⟨?_, ?_⟩
      · simpa only [linkStep, Linkage.nodes, del_unlinked hn] using hnd
      · simp only [linkStep, del_unlinked hn, hn, Op.isAdd, decide_false, Bool.false_eq_true,
          if_false]

theorem linkRun_balance {a : Linkage α} {os : List (Op α)} (hnd : a.nodes.Nodup)
    (hl : LegalRun a os) : (runSpec linkStep a os).2.linked.length +
      (runSpec linkStep a os).1.count true = a.linked.length + os.countP Op.isAdd := by
  induction os generalizing a with
  | nil => rfl
  | cons o os ih =>
    obtain ⟨hnd', hstep⟩ := linkStep_balance hnd hl.1
    have hrest := ih hnd' hl.2
    rw [List.countP_cons]
    simp only [runSpec, List.count_cons, beq_true]
    omega

end

structure Rep (t : Target) (bits : UInt32) (w : World α) (a : Linkage α) : Prop where
  bits_eq : w.ht.bits = bits
  heads : ∀ b < 2 ^ bits.toNat, w.headOk t b = true
  table : IsTable (· < 2 ^ bits.toNat) w.mem (bucket bits a.linked)
  nodup : a.nodes.Nodup
  idle : ∀ n ∈ a.idle, n ∉ a.nodes ∧ w.mem.pprev n = .null

namespace Rep
variable {t : Target} {bits : UInt32} {w : World α} {a : Linkage α} {n : α} {k : UInt32}

omit [DecidableEq α] in
theorem mem_nodes {b : ℕ} (hn : n ∈ bucket bits a.linked b) : n ∈ a.nodes := by
  obtain ⟨k, hk, -⟩ := mem_bucket.mp hn
  exact List.mem_map_of_mem hk

theorem bkt_lt (bits k : UInt32) : k.toNat % 2 ^ bits.toNat < 2 ^ bits.toNat :=
  Nat.mod_lt _ (Nat.two_pow_pos _)

omit [DecidableEq α] in
theorem mem_bkt (bits : UInt32) (hn : n ∈ a.nodes) :
    ∃ b < 2 ^ bits.toNat, n ∈ bucket bits a.linked b := by
  obtain ⟨p, hp, rfl⟩ := List.mem_map.mp hn
  exact ⟨_, bkt_lt bits p.2, mem_bucket.mpr ⟨p.2, hp, rfl⟩⟩

theorem init (hr : Rep t bits w a) (hn : n ∉ a.nodes) : ∃ w', step t w (.init n) =
    some (false, w') ∧ Rep t bits w' (linkStep a (.init n)).2 := by
  refine ⟨{ w with mem := (w.mem.set (.next n) .null).setPprev n .null }, ?_, ?_⟩
  · simp [step, initHlistNode, storeNext_addr (nodeOk_eq n), storePprev_addr (nodeOk_eq n)]
  · refine ⟨hr.bits_eq, hr.heads, ⟨fun b hb => ?_, hr.table.nodup, hr.table.disjoint⟩,
      hr.nodup, fun x hx => ?_⟩
    · refine (hr.table.threads b hb).congr ?_ fun x hx => ?_
      · simp [Buckets.get_set_of_ne]
      · have hxn : x ≠ n := fun e => hn (e ▸ mem_nodes hx)
        refine ⟨?_, by simp [Buckets.pprev_setPprev_of_ne _ hxn]⟩
        rw [← Buckets.get_next, ← Buckets.get_next, Buckets.get_setPprev,
          Buckets.get_set_of_ne _ (by simpa using hxn)]
    · rcases List.mem_cons.mp hx with rfl | hx
      · exact ⟨hn, by simp⟩
      · refine ⟨(hr.idle x hx).1, ?_⟩
        by_cases hxn : x = n
        · subst hxn
          simp
        · simpa [Buckets.pprev_setPprev_of_ne _ hxn] using (hr.idle x hx).2

theorem add (hb : bits.toNat ≤ 30) (hr : Rep t bits w a) (hn : n ∉ a.nodes) :
    ∃ w', step t w (.add n k) = some (false, w') ∧
      Rep t bits w' (linkStep a (.add n k)).2 := by
  obtain ⟨M, hM, hpprev, htab⟩ := hlistAddHead_isTable hr.table hr.heads
    (bkt_lt bits k) (nodeOk_eq n) (fun x _ => nodeOk_eq x) (fun b hx => hn (mem_nodes hx))
  refine ⟨{ w with mem := M }, ?_, ?_⟩
  · simp [step, hashtableAdd, hashAddBits, hr.bits_eq, calcBkt_toNat (by omega : bits.toNat < 32),
      hM]
  · refine ⟨hr.bits_eq, hr.heads, ?_, ?_, fun x hx => ?_⟩
    · simpa only [linkStep, bucket_add] using htab
    · exact List.nodup_cons.mpr ⟨hn, hr.nodup⟩
    · obtain ⟨hxi, hxn⟩ : x ∈ a.idle ∧ x ≠ n := by simpa [linkStep] using hx
      obtain ⟨hxa, hnull⟩ := hr.idle x hxi
      refine ⟨?_, (hpprev x hxn fun h => hxa (mem_nodes h)).trans hnull⟩
      exact List.not_mem_cons_of_ne_of_not_mem hxn hxa

theorem hashed (hr : Rep t bits w a) (hn : n ∈ a.nodes ∨ n ∈ a.idle) :
    hashHashed nodeOk w.mem n = some (decide (n ∈ a.nodes)) := by
  by_cases hna : n ∈ a.nodes
  · obtain ⟨b, hb, hnb⟩ := mem_bkt bits hna
    simp [hashHashed, hlistUnhashed_linked hr.table hb hnb (nodeOk_eq n), hna]
  · obtain ⟨-, hnull⟩ := hr.idle n (hn.resolve_left hna)
    simp [hashHashed, hlistUnhashed, loadPprev_addr (nodeOk_eq n), hnull, hna]

theorem del_idle (hr : Rep t bits w a) (hn : n ∈ a.idle) :
    hashDel (w.headOk t) nodeOk w.mem n = some w.mem :=
  hlistDelInit_unhashed rfl (hr.idle n hn).2

theorem del (hr : Rep t bits w a) (hn : n ∈ a.nodes ∨ n ∈ a.idle) :
    ∃ w', step t w (.del n) = some (decide (n ∈ a.nodes), w') ∧
      Rep t bits w' (linkStep a (.del n)).2 := by
  have hlegal : Legal a (.del n) := hn
  have hlinked := (linkStep_balance hr.nodup hlegal).1
  by_cases hna : n ∈ a.nodes
  · obtain ⟨us, vs, k, hl, hrest⟩ := del_split hr.nodup hna
    have hsplit : bucket bits a.linked (k.toNat % 2 ^ bits.toNat) =
        bucket bits us (k.toNat % 2 ^ bits.toNat) ++
          n :: bucket bits vs (k.toNat % 2 ^ bits.toNat) := by
      rw [hl, bucket_append, bucket_cons_self]
    obtain ⟨M, hM, hnull, hpprev, htab⟩ := hlistDelInit_isTable hr.table
      hr.heads (bkt_lt bits k) (fun x _ => nodeOk_eq x) hsplit
    refine ⟨{ w with mem := M }, ?_, ?_⟩
    · simp [step, hr.hashed hn, hashDel, hM]
    · have hsub : ∀ x, x ∈ (us ++ vs).map Prod.fst → x ∈ a.nodes ∧ x ≠ n := by
        intro x hx
        obtain ⟨p, hp, rfl⟩ := List.mem_map.mp hx
        rw [← hrest] at hp
        obtain ⟨hp, hpn⟩ := List.mem_filter.mp hp
        exact ⟨List.mem_map_of_mem hp, of_decide_eq_true hpn⟩
      refine ⟨hr.bits_eq, hr.heads, ?_, hlinked, fun x hx => ?_⟩
      · simp only [linkStep, hrest]
        rw [bucket_del (n := n) (k := k), ← hl]
        exact htab
      · simp only [linkStep, Linkage.nodes, hrest]
        rcases List.mem_cons.mp hx with rfl | hx
        · exact ⟨fun h => (hsub x h).2 rfl, hnull⟩
        · obtain ⟨hxa, hxnull⟩ := hr.idle x hx
          exact ⟨fun h => hxa (hsub x h).1,
            (hpprev x fun h => hxa (mem_nodes h)).trans hxnull⟩
  · have hni := hn.resolve_left hna
    refine ⟨w, ?_, ?_⟩
    · simp [step, hr.hashed hn, hr.del_idle hni]
    · refine ⟨hr.bits_eq, hr.heads, ?_, hlinked, fun x hx => ?_⟩
      · simpa only [linkStep, del_unlinked hna] using hr.table
      · simp only [linkStep, Linkage.nodes, del_unlinked hna]
        rcases List.mem_cons.mp hx with rfl | hx
        · exact hr.idle x hni
        · exact hr.idle x hx

theorem next (hb : bits.toNat ≤ 30) (hr : Rep t bits w a) {o : Op α} (hl : Legal a o) :
    ∃ w', step t w o = some ((linkStep a o).1, w') ∧ Rep t bits w' (linkStep a o).2 := by
  cases o with
  | init n => exact hr.init hl
  | add n k => exact hr.add hb hl
  | del n => exact hr.del hl

omit [DecidableEq α] in
theorem visited_perm (hr : Rep t bits w a) : (visited bits a.linked).Perm a.nodes := by
  have hnd : (visited bits a.linked).Nodup := hr.table.nodup_flatMap List.nodup_range
  refine (List.perm_ext_iff_of_nodup hnd hr.nodup).mpr fun x => ⟨fun hx => ?_, fun hx => ?_⟩
  · obtain ⟨b, -, hxb⟩ := List.mem_flatMap.mp hx
    exact mem_nodes hxb
  · obtain ⟨b, hb, hxb⟩ := mem_bkt bits hx
    exact List.mem_flatMap.mpr ⟨b, List.mem_range.mpr hb, hxb⟩

end Rep

/-- What the operations and the traversal macros see of a table whose linked nodes are
those of `a`. -/
structure Faithful (t : Target) (bits : UInt32) (w : World α) (a : Linkage α) : Prop where
  /-- Each linked node is once in the table, in bucket `key mod 2 ^ bits`, newest first. -/
  chains : IsTable (· < 2 ^ bits.toNat) w.mem (bucket bits a.linked)
  nodup : a.nodes.Nodup
  /-- The two-level iteration is one loop over every linked node, and a break ends all of it
  with the cursor at the node where it broke. -/
  iteration : ∀ {σ : Type} (body : σ → α → Option (σ × Bool)) (s : σ) (fuel : ℕ),
    a.linked.length < fuel →
      hashForEachBits (fun _ => loadFirst (w.headOk t) w.mem) (fun _ => loadNext nodeOk w.mem)
        body fuel w.ht.bits s = foldUntil body s (visited bits a.linked)
  visits : (visited bits a.linked).Perm a.nodes
  count : ∀ fuel, a.linked.length < fuel →
    countEntriesInHashtable (w.headOk t) nodeOk w.mem fuel w.ht.bits = some a.linked.length
  /-- The iteration for one key meets at least the nodes added with it. -/
  possible : ∀ {σ : Type} (body : σ → α → Option (σ × Bool)) (s : σ) (key : UInt32) (fuel : ℕ),
    a.linked.length < fuel →
      hashForEachPossibleBits (fun _ => loadFirst (w.headOk t) w.mem)
        (fun _ => loadNext nodeOk w.mem) body fuel w.ht.bits key s =
          foldUntil body s (bucket bits a.linked (key.toNat % 2 ^ bits.toNat))
  possible_mem : ∀ n key, (n, key) ∈ a.linked →
    n ∈ bucket bits a.linked (key.toNat % 2 ^ bits.toNat)
  hashed : ∀ n, n ∈ a.nodes ∨ n ∈ a.idle →
    hashHashed nodeOk w.mem n = some (decide (n ∈ a.nodes))
  del_idle : ∀ n ∈ a.idle, hashDel (w.headOk t) nodeOk w.mem n = some w.mem

theorem Rep.faithful {t : Target} {bits : UInt32} {w : World α} {a : Linkage α}
    (hb : bits.toNat ≤ 30) (hr : Rep t bits w a) : Faithful t bits w a := by
  have hb' : bits.toNat < 32 := by omega
  have hf : ∀ {fuel : ℕ}, a.linked.length < fuel →
      ∀ b, (bucket bits a.linked b).length < fuel :=
    fun h b => lt_of_le_of_lt bucket_length_le h
  have hok : ∀ b, ∀ x ∈ bucket bits a.linked b, nodeOk x = true := fun _ x _ => nodeOk_eq x
  refine ⟨hr.table, hr.nodup, ?_, hr.visited_perm, ?_, ?_,
    fun n key hn => mem_bucket.mpr ⟨key, hn, rfl⟩, fun n => hr.hashed, fun n => hr.del_idle⟩
  · intro σ body s fuel hfuel
    rw [hr.bits_eq]
    exact hashForEachBits_eq_foldUntil hb' hr.table hr.heads hok body (hf hfuel) s
  · intro fuel hfuel
    rw [hr.bits_eq, countEntriesInHashtable_eq hb' hr.table hr.heads hok (hf hfuel)]
    have hlen := hr.visited_perm.length_eq
    rw [Linkage.nodes, List.length_map] at hlen
    exact congrArg some hlen
  · intro σ body s key fuel hfuel
    rw [hr.bits_eq]
    exact hashForEachPossibleBits_eq_foldUntil hb' hr.table hr.heads hok body (hf hfuel) key s

theorem htCreate_rep {t : Target} {h h' : Heap} {M M' : Buckets ℕ α} {bits : UInt32}
    {ht : HashtableT} (hb : bits.toNat ≤ 30)
    (hc : htCreate t h M bits = some (some ht, h', M')) :
    Rep t bits ⟨h', ht, M'⟩ ⟨[], []⟩ := by
  obtain ⟨hbits, -, -, -, hinit⟩ := htCreate_eq_some hc
  obtain ⟨hheads, -, htab⟩ := hashInit_isTable hinit
  rw [oneShl_toNat (by omega)] at hheads htab
  exact ⟨hbits, hheads, htab, List.nodup_nil, by simp⟩

theorem Rep.run_rep {t : Target} {bits : UInt32} {w : World α} {a : Linkage α}
    (hb : bits.toNat ≤ 30) (hr : Rep t bits w a) (ops : List (Op α)) (hl : LegalRun a ops) :
    ∃ rs w', run (step t) w ops = some (rs, w') ∧ rs = (runSpec linkStep a ops).1 ∧
      Rep t bits w' (runSpec linkStep a ops).2 := by
  obtain ⟨rs, w', hrun, hans, -, hend⟩ := run_simulates
    (R := fun w a (_ : Unit) os => Rep t bits w a ∧ LegalRun a os) linkStep id (fun _ _ _ => ())
    (fun w a _ o os hR => by
      obtain ⟨w', hs, hr⟩ := hR.1.next hb hR.2.1
      exact ⟨_, w', hs, rfl, hr, hR.2.2⟩) (g := ()) ⟨hr, hl⟩
  rw [List.map_id] at hans
  exact ⟨rs, w', hrun, hans, hend.1⟩

/-- Every legal run on a created table ends in a table that is faithful to the list of
the linked nodes, of which there are as many as additions less effective deletions. -/
theorem htCreate_run_faithful (t : Target) (h h' : Heap) (M M' : Buckets ℕ α) (bits : UInt32)
    (ht : HashtableT) (hb : bits.toNat ≤ 30)
    (hc : htCreate t h M bits = some (some ht, h', M')) (ops : List (Op α))
    (hl : LegalRun ⟨[], []⟩ ops) :
    ∃ rs w, run (step t) ⟨h', ht, M'⟩ ops = some (rs, w) ∧
      rs = (runSpec linkStep ⟨[], []⟩ ops).1 ∧
      Faithful t bits w (runSpec linkStep ⟨[], []⟩ ops).2 ∧
      (runSpec linkStep ⟨[], []⟩ ops).2.linked.length + rs.count true =
        ops.countP Op.isAdd := by
  obtain ⟨rs, w, hrun, hans, hr⟩ := (htCreate_rep hb hc).run_rep hb ops hl
  refine ⟨rs, w, hrun, hans, hr.faithful hb, ?_⟩
  rw [hans, linkRun_balance (by exact List.nodup_nil) hl]
  exact Nat.zero_add _

theorem htCreate_run_two_buckets : ∃ h' M' ht,
    htCreate lp64 (Heap.start fun _ _ => true) ⟨fun _ => .null, fun _ => .null, fun _ => .null⟩ 1 =
      some (some ht, h', M') ∧
    ∃ rs w, run (step lp64) ⟨h', ht, M'⟩ [.init 9, .add 5 7, .add 6 1, .add 4 2, .del 6, .del 9] =
        some (rs, w) ∧
      rs = [false, false, false, false, true, false] ∧
      Faithful lp64 1 w ⟨[(4, 2), (5, 7)], [9, 6, 9]⟩ ∧ 2 + rs.count true = 3 := by
  obtain ⟨h', M', ht, hc⟩ : ∃ h', ∃ M' : Buckets ℕ ℕ, ∃ ht,
      htCreate lp64 (Heap.start fun _ _ => true)
        ⟨fun _ => .null, fun _ => .null, fun _ => .null⟩ 1 = some (some ht, h', M') :=
    ⟨_, _, _, rfl⟩
  exact ⟨h', M', ht, hc, htCreate_run_faithful (α := ℕ) lp64 _ h' _ M' 1 ht (by decide) hc
    [.init 9, .add 5 7, .add 6 1, .add 4 2, .del 6, .del 9]
    (by simp [LegalRun, Legal, linkStep, Linkage.nodes])⟩

end KernelHashtable.Hashtable
