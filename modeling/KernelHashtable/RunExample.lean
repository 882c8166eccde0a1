import KernelHashtable.AssocMultimap
import KernelHashtable.AssocPercent
import KernelHashtable.AssocLedger

/-!
# The example of main.c

`run_example_code` fills an array with nodes of its own, prints some of them, and frees the
array. Node `i` is the one of the `i`-th turn of the loop. Its two blocks belong to the caller;
they are live until the array frees them. The clock does not go back, and the text of the time
that has passed is left out.
-/

namespace KernelHashtable.Example
open Assoc Multimap

/-- What `malloc`, `strdup` and `random` come to for each node. -/
structure Supply where
  node : ℕ → Bool
  hostname : ℕ → Bool
  mac : ℕ → List UInt8
  mac_length : ∀ i, (mac i).length = 6

/-- The arithmetic on the two numbers in floating point, with no value where the result of a
conversion does not fit an `int`. -/
structure FloatOps (F : Type) where
  positive : F → Bool
  reciprocal : F → Option Int32
  scaled : Int32 → F → Option Int32

namespace FloatOps
variable {F : Type} (ops : FloatOps F)

def printDivisor (printFreqDensity : F) : Option Int32 :=
  if ops.positive printFreqDensity then ops.reciprocal printFreqDensity else some 1

def entriesToAdd (bits : UInt32) (density : F) : Option Int32 := do
  guard (bits < 31)
  ops.scaled (Int32.ofNat (2 ^ bits.toNat)) density

end FloatOps

def ethAlen : UInt8 := 6

def nodeAt (i : ℕ) : ℕ := 2 * i + 1

namespace Supply

def hostnameField (sup : Supply) (d : ℕ) : ℕ := if sup.hostname (d / 2) then d + 1 else 0

def key (sup : Supply) (i : ℕ) : Key := ⟨sup.mac i, by rw [sup.mac_length i]; decide⟩

end Supply

inductive Title where
  | entry (i : ℕ)
  | last
  | new
  | byKey
  | first
  deriving DecidableEq

abbrev Line := Title × ℕ

structure State where
  arr : AssocArray
  out : List Line

/-- The number on the first line, the nodes, and the percentage on the last line. -/
structure Output where
  printDivisor : Int32
  nodes : List Line
  collisions : Int32

/-- A null hostname has no meaning under `%s`. -/
def printMacNode (sup : Supply) (h : Heap) (d : ℕ) : Option Unit := do
  guard (Block.foreign d ∉ h.freed)
  guard (sup.hostnameField d ≠ 0 ∧ Block.foreign (sup.hostnameField d) ∉ h.freed)

def State.print (sup : Supply) (s : State) (title : Title) (d : ℕ) : Option State := do
  printMacNode sup s.arr.store.heap d
  return { s with out := s.out ++ [(title, d)] }

def intMod (a b : Int32) : Option Int32 :=
  if b = 0 ∨ a = Int32.minValue ∧ b = -1 then none else some (a % b)

def entryData (arr : AssocArray) : Ptr (Loc ℕ) → Option ℕ
  | .addr (.node e) => if arr.store.heap.live e then some (arr.store.data e) else none
  | _ => none

section
variable (past : ℕ → Bool) (sup : Supply)

def addNode (s : State) (i : ℕ) : Option State := do
  let (_, arr) ← arrayAddReplace past s.arr (nodeAt i) (sup.key i).ptr ethAlen
  return { s with arr := arr }

def fill (printDivisor : Int32) : ℕ → ℕ → State → Option State
  | 0, _, s => some s
  | todo + 1, i, s =>
    if sup.node i then do
      let s ← addNode past sup s i
      let r ← intMod (Int32.ofNat i) printDivisor
      let s ← if r = 0 then s.print sup (.entry i) (nodeAt i) else some s
      fill printDivisor todo (i + 1) s
    else fill printDivisor todo (i + 1) s

def printEntry (s : State) (title : Title) : Ptr (Loc ℕ) → Option State
  | .null => some s
  | e => do
    let node ← entryData s.arr e
    s.print sup title node

/-- The answer of `malloc` is written to without a check. -/
def diffTimespec (h : Heap) : Option (ℕ × Heap) := do
  let (retstr, h) := h.malloc 128
  let retstr ← retstr
  return (retstr, h)

/-- The array is freed and the last line printed. -/
def finish (s : State) : Option (List Line × Int32 × Heap) := do
  let coll ← arrayCollisionPercent s.arr
  let (_, h) ← arrayFree s.arr
  let (t, h) ← diffTimespec h
  let h ← h.free t
  return (s.out, coll, h)

/-- The new node takes its place and is looked up. -/
def addAndShow (n : ℕ) (s : State) : Option (List Line × Int32 × Heap) := do
  let s ← addNode past sup s n
  let e ← arrayGetByKey past s.arr (sup.key n).ptr ethAlen
  let s ← printEntry sup s .byKey (entryPtr e)
  let e ← arrayGetFirst s.arr
  let s ← printEntry sup s .first e
  finish s

/-- What follows the loop. The data of the last entry is read before the check for null. -/
def afterLoop (n : ℕ) (s : State) : Option (List Line × Int32 × Heap) := do
  let lastEntry ← arrayGetLast s.arr
  let node ← entryData s.arr lastEntry
  let s ← s.print sup .last node
  let (_, arr) ← arrayDelFirst s.arr
  guard (sup.node n)
  let s ← State.print sup ⟨arr, s.out⟩ .new (nodeAt n)
  addAndShow past sup n s

def turns (entriesToAdd : Int32) : ℕ := entriesToAdd.toInt.toNat

/-- With no array there is no last entry either, whose data is read all the same. -/
def runExampleCode {F : Type} (ops : FloatOps F) (h : Heap) (raw : Raw) (bits : UInt32)
    (density printFreqDensity : F) : Option (Output × Heap) := do
  let (arr, _) ← arrayCreate h raw bits (.mac sup.hostnameField)
  let printDivisor ← ops.printDivisor printFreqDensity
  let entriesToAdd ← ops.entriesToAdd bits density
  let arr ← arr
  let s ← fill past sup printDivisor (turns entriesToAdd) 0 ⟨arr, []⟩
  let (nodes, coll, h) ← afterLoop past sup (turns entriesToAdd) s
  return (⟨printDivisor, nodes, coll⟩, h)

end

namespace Supply
variable (sup : Supply) (entry timed : ℕ → Bool)

/-- An older node with the same address makes room, and node `i` is stored if it is given an
entry. -/
def place (l : List ℕ) (i : ℕ) : List ℕ :=
  (l.filter fun j => decide (sup.mac j ≠ sup.mac i)) ++ if entry i then [i] else []

def contents (n : ℕ) : List ℕ := ((List.range n).filter sup.node).foldl (sup.place entry) []

def shown (printDivisor : Int32) (n : ℕ) : List ℕ :=
  (List.range n).filter fun i => sup.node i && decide (Int32.ofNat i % printDivisor = 0)

def atEnd (n : ℕ) : List ℕ := sup.place entry (sup.contents entry n).tail n

def closingLines (last n : ℕ) : List Line :=
  [(.last, nodeAt last), (.new, nodeAt n)] ++
    (if entry n then [(.byKey, nodeAt n)] else []) ++
    (sup.atEnd entry n).head?.toList.map fun i => (.first, nodeAt i)

def closing (n : ℕ) : Option (List Line) := do
  let last ← (sup.contents entry n).getLast?
  guard (sup.hostname last)
  guard (sup.node n ∧ sup.hostname n)
  guard (∀ i ∈ (sup.atEnd entry n).head?, sup.hostname i = true)
  guard (timed n)
  return sup.closingLines entry last n

/-- The nodes that the example prints for `n` entries. -/
def transcript (printDivisor : Int32) (n : ℕ) : Option (List Line) := do
  guard (printDivisor ≠ 0 ∨ ∀ i ∈ List.range n, sup.node i = false)
  guard (∀ i ∈ sup.shown printDivisor n, sup.hostname i = true)
  let lines ← sup.closing entry timed n
  return (sup.shown printDivisor n).map (fun i => (.entry i, nodeAt i)) ++ lines

def pair (i : ℕ) : Key × ℕ := (sup.key i, nodeAt i)

def blocks (i : ℕ) : List ℕ := (Callbacks.mac sup.hostnameField).dataBlocks (nodeAt i)

end Supply

section
variable {sup : Supply} {i j d : ℕ} {st : List ℕ}

theorem hostnameField_nodeAt (sup : Supply) (i : ℕ) :
    sup.hostnameField (nodeAt i) = if sup.hostname i then 2 * i + 2 else 0 := by
  have hhalf : nodeAt i / 2 = i := by
    rw [nodeAt]
    omega
  rw [Supply.hostnameField, hhalf]
  rfl

theorem mem_blocks : d ∈ sup.blocks i ↔
    d = nodeAt i ∨ sup.hostname i = true ∧ d = 2 * i + 2 := by
  have hne : nodeAt i ≠ 0 := Nat.succ_ne_zero _
  rw [Supply.blocks, Callbacks.dataBlocks, if_neg hne, hostnameField_nodeAt]
  cases sup.hostname i with
  | true => simp [or_comm]
  | false => simp

theorem blocks_nodup (i : ℕ) : (sup.blocks i).Nodup := by
  have hne : nodeAt i ≠ 0 := Nat.succ_ne_zero _
  rw [Supply.blocks, Callbacks.dataBlocks, if_neg hne, hostnameField_nodeAt]
  cases sup.hostname i with
  | true => simp [nodeAt]
  | false => simp

theorem blocks_disjoint (hij : i ≠ j) (hi : d ∈ sup.blocks i) : d ∉ sup.blocks j := by
  intro hj
  simp only [mem_blocks, nodeAt] at hi hj
  omega

theorem count_blocks (hst : st.Nodup) (hi : d ∈ sup.blocks i) :
    (st.flatMap sup.blocks).count d = if i ∈ st then 1 else 0 := by
  by_cases hmem : i ∈ st
  · have hnd : (st.flatMap sup.blocks).Nodup :=
      List.nodup_flatMap.mpr ⟨fun j _ => blocks_nodup j,
        hst.imp fun hab _ ha hb => blocks_disjoint hab ha hb⟩
    rw [if_pos hmem]
    exact List.count_eq_one_of_mem hnd (List.mem_flatMap.mpr ⟨i, hmem, hi⟩)
  · rw [if_neg hmem]
    refine List.count_eq_zero.mpr fun hd => ?_
    obtain ⟨j, hj, hdj⟩ := List.mem_flatMap.mp hd
    have hij : i ≠ j := fun h => hmem (h ▸ hj)
    exact blocks_disjoint hij hi hdj

end

/-- The array holds the nodes `l`, of all the nodes `st` that have ever been stored. -/
structure Holding (sup : Supply) (grants : ℕ → ℕ → Bool) (bits : UInt32) (arr : AssocArray)
    (l st : List ℕ) (calls : ℕ) : Prop where
  items : ∃ cs, Rep arr cs ∧ cs.map Item.pair = l.map sup.pair ∧
    ∀ d, charge arr cs d = (st.flatMap sup.blocks).count d
  cb : arr.cb = .mac sup.hostnameField
  bits : arr.ht.bits = bits
  grants : arr.store.heap.grants = grants
  calls : arr.store.heap.calls = calls
  distinct : (l.map sup.mac).Nodup
  stored : l ⊆ st
  nodup : st.Nodup

section
variable {sup : Supply} {grants : ℕ → ℕ → Bool} {bits : UInt32} {arr : AssocArray}
  {l st : List ℕ} {calls i : ℕ} {past : ℕ → Bool} {cs : List Item}

theorem Holding.not_freed (hh : Holding sup grants bits arr l st calls) (hi : i ∈ l ∨ i ∉ st)
    {d : ℕ} (hd : d ∈ sup.blocks i) : Block.foreign d ∉ arr.store.heap.freed := by
  obtain ⟨cs, hr, hpairs, hcharge⟩ := hh.items
  have hcount := hcharge d
  rw [count_blocks hh.nodup hd, charge, hh.cb] at hcount
  refine List.count_eq_zero.mp ?_
  rcases hi with hl | hst
  · obtain ⟨c, hc, hpair⟩ := List.mem_map.mp (hpairs ▸ List.mem_map_of_mem hl)
    have hdata : c.data = nodeAt i := congrArg Prod.snd hpair
    have hpos : 0 < (cs.flatMap fun c =>
        (Callbacks.mac sup.hostnameField).dataBlocks c.data).count d :=
      List.count_pos_iff.mpr (List.mem_flatMap.mpr ⟨c, hc, hdata ▸ hd⟩)
    rw [if_pos (hh.stored hl)] at hcount
    omega
  · rw [if_neg hst] at hcount
    omega

theorem Holding.print_eq (hh : Holding sup grants bits arr l st calls) (hi : i ∈ l ∨ i ∉ st)
    (out : List Line) (title : Title) : State.print sup ⟨arr, out⟩ title (nodeAt i) =
      if sup.hostname i then some ⟨arr, out ++ [(title, nodeAt i)]⟩ else none := by
  have hnode := hh.not_freed hi (mem_blocks.mpr (Or.inl rfl))
  cases hhost : sup.hostname i with
  | false =>
    simp [State.print, printMacNode, guard, hnode, hostnameField_nodeAt, hhost]
  | true =>
    have hname := hh.not_freed hi (mem_blocks.mpr (Or.inr ⟨hhost, rfl⟩))
    simp [State.print, printMacNode, guard, hnode, hostnameField_nodeAt, hhost, hname]

theorem arrayDel_calls (hr : Rep arr cs) {k : Key} {r : Int} {arr' : AssocArray}
    (hdel : arrayDel past arr k.ptr k.size = some (r, arr')) :
    arr'.store.heap.calls = arr.store.heap.calls := by
  cases hf : found past arr.ht.bits cs k with
  | none =>
    obtain ⟨-, rfl⟩ := Prod.mk.inj (Option.some.inj ((hr.del_none hf).symm.trans hdel))
    rfl
  | some c =>
    obtain ⟨A, B, rfl, -⟩ := erase_split hr (Rep.found_mem hf).1
    obtain ⟨arr₁, hdel₁, -, -, -, -, hrel⟩ := hr.del_some hf
    obtain ⟨-, rfl⟩ := Prod.mk.inj (Option.some.inj (hdel₁.symm.trans hdel))
    exact hrel.calls

theorem arrayAdd_calls {hostname : ℕ → ℕ} (hcb : arr.cb = .mac hostname) {data : ℕ} {k : KeyPtr}
    {n : UInt8} {r : Int} {arr' : AssocArray} (hadd : arrayAdd arr data k n = some (r, arr')) :
    arr'.store.heap.calls = arr.store.heap.calls + 1 := by
  cases hg : arr.store.heap.grants arr.store.heap.calls sizeofAssocArrayEntry with
  | false =>
    rw [arrayAdd, Heap.malloc_deny hg] at hadd
    obtain ⟨-, rfl⟩ := Prod.mk.inj (Option.some.inj hadd)
    rfl
  | true =>
    simp only [arrayAdd, Heap.malloc_grant hg, hcb, Callbacks.fillEntry, fillMacEntry, guard,
      Heap.grant_live, decide_true, Bool.or_true, if_true, Option.bind_eq_bind, Option.pure_def,
      Option.bind_some, ne_eq, not_true_eq_false, if_false, Option.bind_eq_some_iff,
      Option.some_inj] at hadd
    obtain ⟨_, _, _, _, _, _, _, _, heq⟩ := hadd
    obtain ⟨-, rfl⟩ := Prod.mk.inj heq
    rfl

theorem key_eq_iff {i j : ℕ} : sup.key j = sup.key i ↔ sup.mac j = sup.mac i :=
  ⟨congrArg Key.bytes, fun h => Key.ext_bytes h⟩

theorem key_size (i : ℕ) : (sup.key i).size = ethAlen := by
  change UInt8.ofNat (sup.mac i).length = ethAlen
  rw [sup.mac_length]
  rfl

theorem pairs_fst : (l.map sup.pair).map Prod.fst = l.map sup.key := by
  rw [List.map_map]
  rfl

theorem keys_nodup (hl : (l.map sup.mac).Nodup) : (l.map sup.key).Nodup := by
  have hmac : (l.map sup.key).map Key.bytes = l.map sup.mac := by
    rw [List.map_map]
    rfl
  exact List.Nodup.of_map Key.bytes (hmac ▸ hl)

theorem key_length (hpairs : cs.map Item.pair = l.map sup.pair) :
    ∀ c ∈ cs, c.key.bytes.length = 6 := by
  intro c hc
  obtain ⟨j, -, hj⟩ := List.mem_map.mp (hpairs ▸ List.mem_map_of_mem (f := Item.pair) hc)
  have hkey : sup.key j = c.key := congrArg Prod.fst hj
  rw [← hkey]
  exact sup.mac_length j

theorem clear_pairs (hpairs : cs.map Item.pair = l.map sup.pair) (i : ℕ) :
    clear past (sup.key i) ((candidates arr.ht.bits cs (sup.key i)).map Item.stored) = true := by
  apply clear_of_length
  intro e he
  obtain ⟨c, hc, rfl⟩ := List.mem_map.mp he
  exact (key_length hpairs c (mem_chain.mp hc).1).trans (sup.mac_length i).symm

theorem without_place (hr : Rep arr cs) (hpairs : cs.map Item.pair = l.map sup.pair)
    (hl : (l.map sup.mac).Nodup) (i : ℕ) :
    (without past arr.ht.bits cs (sup.key i)).map Item.pair =
      (l.filter fun j => decide (sup.mac j ≠ sup.mac i)).map sup.pair := by
  rw [without_pairs hr.nodup (clear_pairs hpairs i), hpairs,
    removeNewest_distinct (pairs_fst ▸ keys_nodup hl), List.filter_map]
  refine congrArg (List.map sup.pair) (List.filter_congr fun j _ => ?_)
  exact decide_eq_decide.mpr (not_congr key_eq_iff)

theorem Holding.addNode (hh : Holding sup grants bits arr l st calls) (hi : i ∉ st)
    {entry : ℕ → Bool} (hentry : grants calls sizeofAssocArrayEntry = entry i)
    (out : List Line) : ∃ arr', addNode past sup ⟨arr, out⟩ i = some ⟨arr', out⟩ ∧
      Holding sup grants bits arr' (sup.place entry l i) (st ++ if entry i then [i] else [])
        (calls + 1) := by
  obtain ⟨cs, hr, hpairs, hcharge⟩ := hh.items
  obtain ⟨arr₁, hdel, hm₁⟩ := hr.del past (sup.key i)
  have hcalls₁ := arrayDel_calls hr hdel
  have hcb₁ : arr₁.cb = .mac sup.hostnameField := hm₁.cb.trans hh.cb
  have haccept : arr₁.cb.Accepts (nodeAt i) := by
    rw [hcb₁]
    exact Nat.succ_ne_zero _
  obtain ⟨code, arr₂, cs₂, hadd, hcase⟩ := hm₁.rep.add (k := sup.key i) haccept
  have hcalls₂ := arrayAdd_calls hcb₁ hadd
  have hgranted : arr₁.cb.FillGranted arr₁.store.heap (sup.key i) ↔ entry i = true := by
    rw [Callbacks.FillGranted.eq_def, hcb₁, hm₁.grants, hh.grants, hcalls₁, hh.calls, hentry]
    exact and_iff_left trivial
  have hrun : Example.addNode past sup ⟨arr, out⟩ i = some ⟨arr₂, out⟩ := by
    rw [key_size] at hdel hadd
    simp [Example.addNode, arrayAddReplace, hdel, hadd]
  refine ⟨arr₂, hrun, ?_⟩
  have hwithout : (without past arr.ht.bits cs (sup.key i)).map Item.pair = _ :=
    without_place hr hpairs hh.distinct i
  have hdistinct : ((l.filter fun j => decide (sup.mac j ≠ sup.mac i)).map sup.mac).Nodup :=
    hh.distinct.sublist ((List.filter_sublist).map sup.mac)
  have hstored : (l.filter fun j => decide (sup.mac j ≠ sup.mac i)) ⊆ st :=
    fun j hj => hh.stored (List.mem_of_mem_filter hj)
  rcases hcase with ⟨hg, -, hm₂, c, hkey, hdata, rfl⟩ | ⟨hg, -, hm₂, rfl⟩
  · have he : entry i = true := hgranted.mp hg
    have hbits₂ : arr₂.ht.bits = bits := by rw [hm₂.ht, hm₁.ht, hh.bits]
    have hc : c.pair = sup.pair i := Prod.ext hkey hdata
    simp only [Supply.place, he, if_true]
    refine ⟨⟨_, hm₂.rep, ?_, fun d => ?_⟩, hm₂.cb.trans hcb₁, hbits₂, ?_, ?_, ?_, ?_, ?_⟩
    · rw [List.map_append, List.map_append, hwithout, List.map_singleton, List.map_singleton, hc]
    · rw [hm₂.charge, hm₁.charge, hcharge, hcb₁, List.flatMap_append, List.count_append]
      simp [Supply.blocks]
    · rw [hm₂.grants, hm₁.grants, hh.grants]
    · rw [hcalls₂, hcalls₁, hh.calls]
    · rw [List.map_append, List.map_singleton]
      refine List.nodup_append.mpr ⟨hdistinct, List.nodup_singleton _, ?_⟩
      rintro m hm m' hm' rfl
      obtain ⟨j, hj, rfl⟩ := List.mem_map.mp hm
      exact of_decide_eq_true (List.mem_filter.mp hj).2 (List.mem_singleton.mp hm')
    · exact List.append_subset.mpr ⟨fun j hj => List.mem_append_left _ (hstored hj), by simp⟩
    · exact List.nodup_append.mpr ⟨hh.nodup, List.nodup_singleton i, by
        rintro a ha b hb rfl
        exact hi (List.mem_singleton.mp hb ▸ ha)⟩
  · have he : entry i = false := by
      rw [← Bool.not_eq_true, ← hgranted]
      exact hg
    have hbits₂ : arr₂.ht.bits = bits := by rw [hm₂.ht, hm₁.ht, hh.bits]
    simp only [Supply.place, he, Bool.false_eq_true, if_false, List.append_nil]
    refine ⟨⟨_, hm₂.rep, hwithout, fun d => ?_⟩, hm₂.cb.trans hcb₁, hbits₂, ?_, ?_, hdistinct,
      hstored, hh.nodup⟩
    · rw [hm₂.charge, hm₁.charge, hcharge]
      simp
    · rw [hm₂.grants, hm₁.grants, hh.grants]
    · rw [hcalls₂, hcalls₁, hh.calls]

/-- The request for the entry of node `i` comes after the three of `array_create` and one for each
earlier node. -/
def entryGranted (sup : Supply) (grants : ℕ → ℕ → Bool) (i : ℕ) : Bool :=
  grants (3 + (List.range i).countP sup.node) sizeofAssocArrayEntry

def storedBy (sup : Supply) (grants : ℕ → ℕ → Bool) (n : ℕ) : List ℕ :=
  (List.range n).filter fun i => sup.node i && entryGranted sup grants i

def AtTurn (sup : Supply) (grants : ℕ → ℕ → Bool) (bits : UInt32) (arr : AssocArray) (i : ℕ) :
    Prop :=
  Holding sup grants bits arr (sup.contents (entryGranted sup grants) i) (storedBy sup grants i)
    (3 + (List.range i).countP sup.node)

theorem contents_succ (entry : ℕ → Bool) (i : ℕ) : sup.contents entry (i + 1) =
    if sup.node i then sup.place entry (sup.contents entry i) i else sup.contents entry i := by
  rw [Supply.contents, List.range_succ, List.filter_append, List.foldl_append]
  cases hn : sup.node i with
  | true => simp [hn, Supply.contents]
  | false => simp [hn, Supply.contents]

theorem storedBy_succ (i : ℕ) : storedBy sup grants (i + 1) = storedBy sup grants i ++
    if sup.node i && entryGranted sup grants i then [i] else [] := by
  rw [storedBy, List.range_succ, List.filter_append]
  cases h : sup.node i && entryGranted sup grants i with
  | true => simp [h, storedBy]
  | false => simp [h, storedBy]

theorem notMem_storedBy (i : ℕ) : i ∉ storedBy sup grants i := fun hi =>
  absurd (List.mem_range.mp (List.mem_of_mem_filter hi)) (Nat.lt_irrefl i)

theorem AtTurn.skip (hh : AtTurn sup grants bits arr i) (hn : sup.node i = false) :
    AtTurn sup grants bits arr (i + 1) := by
  rw [AtTurn] at hh ⊢
  rw [contents_succ, storedBy_succ, List.range_succ, List.countP_append]
  simpa [hn] using hh

theorem AtTurn.add (hh : AtTurn sup grants bits arr i) (hn : sup.node i = true) (out : List Line) :
    ∃ arr', addNode past sup ⟨arr, out⟩ i = some ⟨arr', out⟩ ∧
      AtTurn sup grants bits arr' (i + 1) := by
  have hentry : grants (3 + (List.range i).countP sup.node) sizeofAssocArrayEntry =
      entryGranted sup grants i := rfl
  obtain ⟨arr', hadd, hh'⟩ := Holding.addNode hh (notMem_storedBy i) hentry out
  refine ⟨arr', hadd, ?_⟩
  rw [AtTurn, contents_succ, storedBy_succ, List.range_succ, List.countP_append]
  simpa [hn, Nat.add_assoc] using hh'

theorem mem_contents_succ (hn : sup.node i = true) :
    i ∈ sup.contents (entryGranted sup grants) (i + 1) ∨ i ∉ storedBy sup grants (i + 1) := by
  rw [contents_succ, storedBy_succ, hn, if_pos rfl, Bool.true_and]
  cases he : entryGranted sup grants i with
  | true => exact Or.inl (by simp [Supply.place, he])
  | false => exact Or.inr (by simpa using notMem_storedBy i)

theorem intMod_eq {b : Int32} (hi : i < 2 ^ 31) : intMod (Int32.ofNat i) b =
    if b = 0 then none else some (Int32.ofNat i % b) := by
  have hmin : Int32.ofNat i ≠ Int32.minValue := by
    intro h
    have hval : (Int32.ofNat i).toInt = Int32.minValue.toInt := congrArg Int32.toInt h
    have hpos : (Int32.ofNat i).toInt = i := Int32.toInt_ofNat_of_lt (by omega)
    have hneg : Int32.minValue.toInt = -2147483648 := rfl
    omega
  simp [intMod, hmin]

def Printable (sup : Supply) (printDivisor : Int32) (js : List ℕ) : Prop :=
  ∀ j ∈ js, sup.node j = true →
    printDivisor ≠ 0 ∧ (Int32.ofNat j % printDivisor = 0 → sup.hostname j = true)

def linesOf (sup : Supply) (printDivisor : Int32) (js : List ℕ) : List Line :=
  (js.filter fun j => sup.node j && decide (Int32.ofNat j % printDivisor = 0)).map
    fun j => (.entry j, nodeAt j)

theorem printable_cons {printDivisor : Int32} {js : List ℕ} :
    Printable sup printDivisor (i :: js) ↔ (sup.node i = true →
      printDivisor ≠ 0 ∧ (Int32.ofNat i % printDivisor = 0 → sup.hostname i = true)) ∧
        Printable sup printDivisor js :=
  List.forall_mem_cons

theorem fill_eq {printDivisor : Int32} (todo : ℕ) (hh : AtTurn sup grants bits arr i)
    (hlt : i + todo ≤ 2 ^ 31) (out : List Line) :
    (Printable sup printDivisor (List.range' i todo) →
      ∃ arr', fill past sup printDivisor todo i ⟨arr, out⟩ =
          some ⟨arr', out ++ linesOf sup printDivisor (List.range' i todo)⟩ ∧
        AtTurn sup grants bits arr' (i + todo)) ∧
    (¬ Printable sup printDivisor (List.range' i todo) →
      fill past sup printDivisor todo i ⟨arr, out⟩ = none) := by
  induction todo generalizing i arr out with
  | zero =>
    refine ⟨fun _ => ⟨arr, by simp [fill, linesOf], hh⟩, fun h => ?_⟩
    exact absurd (fun j hj => absurd hj (by simp)) h
  | succ todo ih =>
    rw [List.range'_succ, printable_cons]
    have hturn : i + (todo + 1) = i + 1 + todo := by omega
    cases hn : sup.node i with
    | false =>
      have hlines : linesOf sup printDivisor (i :: List.range' (i + 1) todo) =
          linesOf sup printDivisor (List.range' (i + 1) todo) := by simp [linesOf, hn]
      have hskip : fill past sup printDivisor (todo + 1) i ⟨arr, out⟩ =
          fill past sup printDivisor todo (i + 1) ⟨arr, out⟩ := by simp [fill, hn]
      rw [hlines, hskip, hturn]
      simpa using ih (hh.skip hn) (by omega) out
    | true =>
      obtain ⟨arr₁, hadd, hh₁⟩ : ∃ arr₁, addNode past sup ⟨arr, out⟩ i = some ⟨arr₁, out⟩ ∧
          AtTurn sup grants bits arr₁ (i + 1) := hh.add hn out
      have hprint := Holding.print_eq hh₁ (mem_contents_succ hn) out (.entry i)
      have hmod := intMod_eq (i := i) (b := printDivisor) (by omega)
      by_cases hd : printDivisor = 0
      · have hzero : intMod (Int32.ofNat i) printDivisor = none := by rw [hmod, if_pos hd]
        refine ⟨fun h => absurd hd (h.1 rfl).1, fun _ => ?_⟩
        simp [fill, hn, hadd, hzero]
      · by_cases hr : Int32.ofNat i % printDivisor = 0
        · cases hhost : sup.hostname i with
          | false =>
            refine ⟨fun h => ?_, fun _ => ?_⟩
            · simpa [hhost] using (h.1 rfl).2 hr
            · simp [fill, hn, hadd, hmod, hd, hr, hprint, hhost]
          | true =>
            have hlines : linesOf sup printDivisor (i :: List.range' (i + 1) todo) =
                (.entry i, nodeAt i) :: linesOf sup printDivisor (List.range' (i + 1) todo) := by
              simp [linesOf, hn, hr]
            have hstep : fill past sup printDivisor (todo + 1) i ⟨arr, out⟩ =
                fill past sup printDivisor todo (i + 1)
                  ⟨arr₁, out ++ [(.entry i, nodeAt i)]⟩ := by
              simp [fill, hn, hadd, hmod, hd, hr, hprint, hhost]
            have hask : (true = true → printDivisor ≠ 0 ∧
                (Int32.ofNat i % printDivisor = 0 → true = true)) := fun _ => ⟨hd, fun _ => rfl⟩
            rw [hlines, List.append_cons, hstep, hturn, and_iff_right hask]
            exact ih hh₁ (by omega) (out ++ [(.entry i, nodeAt i)])
        · have hlines : linesOf sup printDivisor (i :: List.range' (i + 1) todo) =
              linesOf sup printDivisor (List.range' (i + 1) todo) := by simp [linesOf, hr]
          have hstep : fill past sup printDivisor (todo + 1) i ⟨arr, out⟩ =
              fill past sup printDivisor todo (i + 1) ⟨arr₁, out⟩ := by
            simp [fill, hn, hadd, hmod, hd, hr]
          rw [hlines, hstep, hturn]
          simpa [hd, hr] using ih hh₁ (by omega) out

def PointsTo (arr : AssocArray) (p : Ptr (Loc ℕ)) : Option ℕ → Prop
  | none => p = .null
  | some i => ∃ e, p = .addr (.node e) ∧ entryData arr p = some (nodeAt i)

theorem pointsTo_item (hr : Rep arr cs) {o : Option Item} {o' : Option ℕ} (ho : ∀ c ∈ o, c ∈ cs)
    (hdata : o.map Item.data = o'.map nodeAt) :
    PointsTo arr (entryPtr (o.map Item.entry)) o' := by
  cases o with
  | none =>
    rw [Option.map_eq_none_iff.mp hdata.symm]
    rfl
  | some c =>
    obtain ⟨i, rfl, hi⟩ := Option.map_eq_some_iff.mp hdata.symm
    have hc := hr.items c (ho c rfl)
    exact ⟨c.entry, rfl, by simp [entryPtr, entryData, hc.live, hc.data, hi]⟩

theorem data_map (hpairs : cs.map Item.pair = l.map sup.pair) :
    cs.map Item.data = l.map nodeAt := by
  have hsnd := congrArg (List.map Prod.snd) hpairs
  rwa [List.map_map, List.map_map] at hsnd

theorem Holding.getLast (hh : Holding sup grants bits arr l st calls) : ∃ p,
    arrayGetLast arr = some p ∧ PointsTo arr p l.getLast? := by
  obtain ⟨cs, hr, hpairs, -⟩ := hh.items
  refine ⟨_, hr.getLast, pointsTo_item hr (fun c hc => List.mem_of_getLast? hc) ?_⟩
  rw [← List.getLast?_map, ← List.getLast?_map, data_map hpairs]

theorem Holding.getFirst (hh : Holding sup grants bits arr l st calls) : ∃ p,
    arrayGetFirst arr = some p ∧ PointsTo arr p l.head? := by
  obtain ⟨cs, hr, hpairs, -⟩ := hh.items
  refine ⟨_, hr.getFirst, pointsTo_item hr (fun c hc => List.mem_of_head? hc) ?_⟩
  rw [← List.head?_map, ← List.head?_map, data_map hpairs]

theorem newest_place (entry : ℕ → Bool) (l : List ℕ) (i : ℕ) :
    newest ((sup.place entry l i).map sup.pair) (sup.key i) =
      if entry i then some (sup.pair i) else none := by
  cases he : entry i with
  | true => simp [Supply.place, he, newest, hasKey, Supply.pair]
  | false =>
    rw [if_neg (by simp), newest_eq_none]
    intro p hp
    simp only [Supply.place, he, Bool.false_eq_true, if_false, List.append_nil] at hp
    obtain ⟨j, hj, rfl⟩ := List.mem_map.mp hp
    exact fun hkey => of_decide_eq_true (List.mem_filter.mp hj).2 (key_eq_iff.mp hkey)

theorem Holding.getByKey {entry : ℕ → Bool}
    (hh : Holding sup grants bits arr (sup.place entry l i) st calls) (past : ℕ → Bool) : ∃ e,
    arrayGetByKey past arr (sup.key i).ptr ethAlen = some e ∧
      PointsTo arr (entryPtr e) (if entry i then some i else none) := by
  obtain ⟨cs, hr, hpairs, -⟩ := hh.items
  have hget : arrayGetByKey past arr (sup.key i).ptr (sup.key i).size = some _ := hr.getByKey
  rw [key_size] at hget
  refine ⟨_, hget, pointsTo_item hr (fun c hc => (Rep.found_mem hc).1) ?_⟩
  have hfound : (found past arr.ht.bits cs (sup.key i)).map Item.pair = _ :=
    found_pair (clear_pairs hpairs i)
  rw [hpairs, newest_place] at hfound
  have hsnd := congrArg (Option.map Prod.snd) hfound
  rw [Option.map_map] at hsnd
  refine hsnd.trans ?_
  cases entry i <;> rfl

theorem Holding.printEntry_eq (hh : Holding sup grants bits arr l st calls) {o : Option ℕ}
    {p : Ptr (Loc ℕ)} (hp : PointsTo arr p o) (ho : ∀ i ∈ o, i ∈ l) (out : List Line)
    (title : Title) : printEntry sup ⟨arr, out⟩ title p =
      if ∀ i ∈ o, sup.hostname i = true then
        some ⟨arr, out ++ o.toList.map fun i => (title, nodeAt i)⟩
      else none := by
  cases o with
  | none =>
    obtain rfl : p = .null := hp
    simp [printEntry]
  | some i =>
    obtain ⟨e, rfl, hdata⟩ := hp
    simp [printEntry, hdata, hh.print_eq (Or.inl (ho i rfl))]

theorem Holding.delFirst (hh : Holding sup grants bits arr l st calls) (hne : l ≠ []) : ∃ arr',
    arrayDelFirst arr = some (0, arr') ∧ Holding sup grants bits arr' l.tail st calls := by
  obtain ⟨cs, hr, hpairs, hcharge⟩ := hh.items
  cases cs with
  | nil => exact absurd (List.map_eq_nil_iff.mp hpairs.symm) hne
  | cons c cs =>
    obtain ⟨arr', hdel, hrep, hself, hht, hcb, hrel⟩ := hr.delFirst_cons
    have hm := hrel.moved (A := []) hrep hself hht hcb
    refine ⟨arr', hdel, ⟨cs, hrep, ?_, fun d => ?_⟩, hcb.trans hh.cb, hht ▸ hh.bits,
      hm.grants.trans hh.grants, hrel.calls.trans hh.calls, ?_,
      fun i hi => hh.stored (List.mem_of_mem_tail hi), hh.nodup⟩
    · have htail := congrArg List.tail hpairs
      rwa [← List.map_tail, ← List.map_tail] at htail
    · have hd := hm.charge d
      rw [List.nil_append, List.nil_append, hcharge] at hd
      exact hd
    · rw [List.map_tail]
      exact hh.distinct.tail

theorem arrayCreate_atTurn (sup : Supply) (raw : Raw) (hb : bits.toNat ≤ 30)
    (hg : CreateGranted (Heap.start grants) bits) : ∃ arr,
    arrayCreate (Heap.start grants) raw bits (.mac sup.hostnameField) =
      some (some arr, arr.store.heap) ∧ AtTurn sup grants bits arr 0 := by
  obtain ⟨arr, hc, hrep, hcb, hbits, hgrants, hfreed⟩ :=
    arrayCreate_granted raw (.mac sup.hostnameField) hb (Heap.Balanced.start grants)
      (fun _ => rfl) hg
  refine ⟨arr, hc, ⟨[], hrep, rfl, fun d => ?_⟩, hcb, hbits, hgrants, ?_, List.nodup_nil,
    List.nil_subset _, List.nodup_nil⟩
  · simp [charge, hfreed, Heap.start, storedBy]
  · obtain ⟨mem, hht, -⟩ := Hashtable.htCreate_granted (M := raw.mem)
      (h := (Heap.start grants).grant sizeofAssocArray) hb hg.2.1 hg.2.2
    rw [arrayCreate, Heap.malloc_grant hg.1] at hc
    simp only [hht, Option.bind_eq_bind, Option.bind_some, Option.pure_def,
      Option.bind_eq_some_iff, Option.some_inj, Prod.mk.injEq] at hc
    obtain ⟨ring, -, -, hheap⟩ := hc
    rw [← hheap]
    rfl

theorem Holding.collisionPercent (hh : Holding sup grants bits arr l st calls)
    (hlen : 100 * l.length < 2 ^ 64) : ∃ r, arrayCollisionPercent arr = some r ∧
      r.toInt = (100 * (l.length - bucketsOf bits (l.map sup.mac)) / l.length : ℕ) := by
  obtain ⟨cs, hr, hpairs, -⟩ := hh.items
  have hsize : arr.size = l.length := by
    have hcs := congrArg List.length hpairs
    rwa [List.length_map, List.length_map, ← hr.size] at hcs
  have hkeys : cs.map (fun c => c.key.bytes) = l.map sup.mac := by
    have hfst := congrArg (List.map fun p => p.1.bytes) hpairs
    rwa [List.map_map, List.map_map] at hfst
  obtain ⟨r, hres, hval, -⟩ := hr.collisionPercent (hsize ▸ hlen)
  refine ⟨r, hres, ?_⟩
  rw [hval, hr.usedBuckets_eq, hkeys, hsize, hh.bits]

theorem Holding.arrayFree_eq (hh : Holding sup grants bits arr l st calls) : ∃ h,
    arrayFree arr = some (0, h) ∧ h.Balanced ∧ (∀ b, h.live b = false) ∧
      (∀ d, h.freed.count (.foreign d) = (st.flatMap sup.blocks).count d) ∧
      h.calls = calls ∧ h.grants = grants := by
  obtain ⟨cs, hr, -, hcharge⟩ := hh.items
  obtain ⟨h, hfree, hbal, hlive, hforeign, hcalls, hgrants⟩ := hr.arrayFree_eq
  exact ⟨h, hfree, hbal, hlive, fun d => (hforeign d).trans (hcharge d), hcalls.trans hh.calls,
    hgrants.trans hh.grants⟩

theorem diffTimespec_granted {h : Heap} (hbal : h.Balanced) (hlive : ∀ b, h.live b = false)
    (hg : h.grants h.calls 128 = true) : ∃ t h₁ h₂, diffTimespec h = some (t, h₁) ∧
      h₁.free t = some h₂ ∧ AllFreedOnce h₂ ∧
      ∀ d, h₂.freed.count (.foreign d) = h.freed.count (.foreign d) := by
  have hl : (h.grant 128).live h.fresh = true := by simp
  refine ⟨h.fresh, h.grant 128, (h.grant 128).release h.fresh, ?_, Heap.free_live hl,
    allFreedOnce_of_balanced ((hbal.grant 128).release hl) fun b => ?_, fun d => by simp⟩
  · simp [diffTimespec, Heap.malloc_grant hg]
  · rw [hbal.release_grant 128 rfl]
    exact hlive b

theorem diffTimespec_denied {h : Heap} (hg : h.grants h.calls 128 = false) :
    diffTimespec h = none := by
  simp [diffTimespec, Heap.malloc_deny hg]

/-- What the example makes of the nodes that are left and of the memory. -/
structure Ending (sup : Supply) (entry : ℕ → Bool) (bits : UInt32) (n : ℕ) (coll : Int32)
    (h : Heap) : Prop where
  percent : coll.toInt = (100 * ((sup.atEnd entry n).length -
    bucketsOf bits ((sup.atEnd entry n).map sup.mac)) / (sup.atEnd entry n).length : ℕ)
  freed : AllFreedOnce h
  blocks : ∀ i, ∀ d ∈ sup.blocks i, h.freed.count (.foreign d) =
    if i ≤ n ∧ sup.node i = true ∧ entry i = true then 1 else 0

theorem length_place_le (entry : ℕ → Bool) (l : List ℕ) (i : ℕ) :
    (sup.place entry l i).length ≤ l.length + 1 := by
  have hfilter := List.length_filter_le (fun j => decide (sup.mac j ≠ sup.mac i)) l
  rw [Supply.place, List.length_append]
  split_ifs <;> simp only [List.length_cons, List.length_nil] <;> omega

theorem length_contents_le (entry : ℕ → Bool) (n : ℕ) : (sup.contents entry n).length ≤ n := by
  induction n with
  | zero => exact Nat.le_refl 0
  | succ n ih =>
    rw [contents_succ]
    split_ifs with hn
    · exact (length_place_le entry _ n).trans (Nat.succ_le_succ ih)
    · exact ih.trans (Nat.le_succ n)

theorem mem_atEnd {n : ℕ} {entry : ℕ → Bool} :
    ∀ i ∈ (if entry n then some n else none), i ∈ sup.atEnd entry n := by
  intro i hi
  cases he : entry n with
  | false => simp [he] at hi
  | true =>
    obtain rfl : n = i := by simpa [he] using hi
    simp [Supply.atEnd, Supply.place, he]

def timeGranted (sup : Supply) (grants : ℕ → ℕ → Bool) (n : ℕ) : Bool :=
  grants (3 + (List.range n).countP sup.node + 1) 128

theorem Holding.finish_cases {n : ℕ}
    (hh : Holding sup grants bits arr (sup.atEnd (entryGranted sup grants) n)
      (storedBy sup grants n ++ if entryGranted sup grants n then [n] else [])
      (3 + (List.range n).countP sup.node + 1))
    (hnode : sup.node n = true) (hn : n ≤ 2 ^ 31) (out : List Line) :
    (timeGranted sup grants n = false ∧ finish ⟨arr, out⟩ = none) ∨
      ∃ coll h, timeGranted sup grants n = true ∧ finish ⟨arr, out⟩ = some (out, coll, h) ∧
        Ending sup (entryGranted sup grants) bits n coll h := by
  have hlen : (sup.atEnd (entryGranted sup grants) n).length ≤ n + 1 := by
    have hcontents : (sup.contents (entryGranted sup grants) n).length ≤ n :=
      length_contents_le _ n
    have hplace : (sup.atEnd (entryGranted sup grants) n).length ≤ _ :=
      length_place_le (entryGranted sup grants) (sup.contents (entryGranted sup grants) n).tail n
    rw [List.length_tail] at hplace
    exact hplace.trans (by omega)
  obtain ⟨coll, hcoll, hval⟩ := hh.collisionPercent (by omega)
  obtain ⟨h, hfree, hbal, hlive, hcount, hcalls, hgrants⟩ := hh.arrayFree_eq
  have hrequest : h.grants h.calls 128 = timeGranted sup grants n := by
    rw [hgrants, hcalls]
    rfl
  cases ht : timeGranted sup grants n with
  | false =>
    have htime := diffTimespec_denied (hrequest.trans ht)
    exact Or.inl ⟨rfl, by simp [finish, hcoll, hfree, htime]⟩
  | true =>
    obtain ⟨t, h₁, h₂, htime, hfree₂, hall, hforeign⟩ :=
      diffTimespec_granted hbal hlive (hrequest.trans ht)
    refine Or.inr ⟨coll, h₂, rfl, by simp [finish, hcoll, hfree, htime, hfree₂], hval, hall,
      fun i d hd => ?_⟩
    rw [hforeign, hcount, count_blocks hh.nodup hd]
    refine if_congr ?_ rfl rfl
    have hsucc : (storedBy sup grants n ++ if entryGranted sup grants n then [n] else []) =
        storedBy sup grants (n + 1) := by rw [storedBy_succ, hnode, Bool.true_and]
    rw [hsucc, storedBy, List.mem_filter, List.mem_range, Nat.lt_succ_iff, Bool.and_eq_true]

theorem Holding.addAndShow_cases {n : ℕ}
    (hh : Holding sup grants bits arr (sup.contents (entryGranted sup grants) n).tail
      (storedBy sup grants n) (3 + (List.range n).countP sup.node))
    (hnode : sup.node n = true) (hhost : sup.hostname n = true) (hn : n ≤ 2 ^ 31)
    (past : ℕ → Bool) (out : List Line) :
    (addAndShow past sup n ⟨arr, out⟩ = none ∧
        ¬ ((∀ i ∈ (sup.atEnd (entryGranted sup grants) n).head?, sup.hostname i = true) ∧
          timeGranted sup grants n = true)) ∨
      ∃ coll h, addAndShow past sup n ⟨arr, out⟩ = some (out ++
          (if entryGranted sup grants n then [(.byKey, nodeAt n)] else []) ++
          (sup.atEnd (entryGranted sup grants) n).head?.toList.map fun i => (.first, nodeAt i),
            coll, h) ∧
        ((∀ i ∈ (sup.atEnd (entryGranted sup grants) n).head?, sup.hostname i = true) ∧
          timeGranted sup grants n = true) ∧
        Ending sup (entryGranted sup grants) bits n coll h := by
  obtain ⟨arr', hadd, hh'⟩ : ∃ arr', Example.addNode past sup ⟨arr, out⟩ n = some ⟨arr', out⟩ ∧
      Holding sup grants bits arr' (sup.atEnd (entryGranted sup grants) n) _ _ :=
    hh.addNode (notMem_storedBy n) (show _ = entryGranted sup grants n from rfl) out
  obtain ⟨k, hget, hk⟩ := hh'.getByKey past
  have hbyKey := hh'.printEntry_eq hk mem_atEnd out .byKey
  have hnamed : ∀ i ∈ (if entryGranted sup grants n then some n else none),
      sup.hostname i = true := by
    intro i hi
    split_ifs at hi
    · exact Option.mem_some.mp hi ▸ hhost
    · exact absurd hi (by simp)
  have hlines : (if entryGranted sup grants n then some n else none).toList.map
      (fun i => (Title.byKey, nodeAt i)) =
        if entryGranted sup grants n then [(.byKey, nodeAt n)] else [] := by
    cases entryGranted sup grants n <;> rfl
  rw [if_pos hnamed, hlines] at hbyKey
  obtain ⟨q, hfirst, hq⟩ := hh'.getFirst
  have hprint (out : List Line) :=
    hh'.printEntry_eq hq (fun i hi => List.mem_of_head? hi) out .first
  have hrun : addAndShow past sup n ⟨arr, out⟩ = (printEntry sup ⟨arr', out ++
      if entryGranted sup grants n then [(.byKey, nodeAt n)] else []⟩ .first q).bind finish := by
    simp only [addAndShow, hadd, hget, hbyKey, hfirst, Option.bind_eq_bind, Option.bind_some]
  rw [hrun, hprint]
  by_cases hheads : ∀ i ∈ (sup.atEnd (entryGranted sup grants) n).head?, sup.hostname i = true
  · rw [if_pos hheads, Option.bind_some]
    rcases hh'.finish_cases hnode hn _ with ⟨ht, hnone⟩ | ⟨coll, h, ht, hsome, hend⟩
    · exact Or.inl ⟨hnone, fun h => Bool.false_ne_true (ht.symm.trans h.2)⟩
    · exact Or.inr ⟨coll, h, hsome, ⟨hheads, ht⟩, hend⟩
  · rw [if_neg hheads]
    exact Or.inl ⟨rfl, fun h => hheads h.1⟩

theorem guard_bind {α : Type} (p : Prop) [Decidable p] (f : Unit → Option α) :
    (guard p : Option Unit).bind f = if p then f () else none := by
  by_cases hp : p <;> simp [guard, hp]

theorem closing_eq {n last : ℕ} {entry timed : ℕ → Bool}
    (hl : (sup.contents entry n).getLast? = some last) : sup.closing entry timed n =
      if sup.hostname last = true ∧ (sup.node n = true ∧ sup.hostname n = true) ∧
          (∀ i ∈ (sup.atEnd entry n).head?, sup.hostname i = true) ∧ timed n = true then
        some (sup.closingLines entry last n)
      else none := by
  simp only [Supply.closing, hl, Option.bind_eq_bind, Option.bind_some, Option.pure_def,
    guard_bind, ite_and]

theorem afterLoop_cases {n : ℕ} (hh : AtTurn sup grants bits arr n) (hn : n ≤ 2 ^ 31)
    (past : ℕ → Bool) (out : List Line) :
    (afterLoop past sup n ⟨arr, out⟩ = none ∧
        sup.closing (entryGranted sup grants) (timeGranted sup grants) n = none) ∨
      ∃ lines coll h, afterLoop past sup n ⟨arr, out⟩ = some (out ++ lines, coll, h) ∧
        sup.closing (entryGranted sup grants) (timeGranted sup grants) n = some lines ∧
        Ending sup (entryGranted sup grants) bits n coll h := by
  obtain ⟨p, hlast, hp⟩ := Holding.getLast hh
  cases hl : (sup.contents (entryGranted sup grants) n).getLast? with
  | none =>
    rw [hl] at hp
    obtain rfl : p = .null := hp
    exact Or.inl ⟨by simp [afterLoop, hlast, entryData], by simp [Supply.closing, hl]⟩
  | some last =>
    rw [hl] at hp
    obtain ⟨e, rfl, hdata⟩ := hp
    have hmem := List.mem_of_getLast? hl
    have hprint := Holding.print_eq hh (Or.inl hmem) out .last
    obtain ⟨arr₁, hdel, hh₁⟩ := Holding.delFirst hh (List.ne_nil_of_mem hmem)
    have hnew := hh₁.print_eq (Or.inr (notMem_storedBy n)) (out ++ [(.last, nodeAt last)]) .new
    rw [closing_eq hl]
    by_cases hhost : sup.hostname last = true
    · rw [if_pos hhost] at hprint
      by_cases hnode : sup.node n = true ∧ sup.hostname n = true
      · rw [if_pos hnode.2] at hnew
        have hrun : afterLoop past sup n ⟨arr, out⟩ = addAndShow past sup n
            ⟨arr₁, out ++ [(.last, nodeAt last)] ++ [(.new, nodeAt n)]⟩ := by
          simp only [afterLoop, hlast, hdata, hprint, hdel, hnode.1, hnew, guard, if_true,
            Option.bind_eq_bind, Option.bind_some, Option.pure_def]
        rw [hrun]
        rcases hh₁.addAndShow_cases hnode.1 hnode.2 hn past _ with
          ⟨hnone, hno⟩ | ⟨coll, h, hsome, hshown, hend⟩
        · exact Or.inl ⟨hnone, if_neg fun h => hno h.2.2⟩
        · refine Or.inr ⟨sup.closingLines (entryGranted sup grants) last n, coll, h, ?_,
            if_pos ⟨hhost, hnode, hshown⟩, hend⟩
          rw [hsome, Supply.closingLines]
          simp only [List.append_assoc, List.cons_append, List.nil_append]
      · refine Or.inl ⟨?_, if_neg fun h => hnode h.2.1⟩
        cases hn₁ : sup.node n with
        | false => simp [afterLoop, hn₁, guard]
        | true =>
          have hn₂ : sup.hostname n ≠ true := fun h => hnode ⟨hn₁, h⟩
          rw [if_neg hn₂] at hnew
          simp [afterLoop, hlast, hdata, hprint, hdel, hn₁, hnew, guard]
    · rw [if_neg hhost] at hprint
      exact Or.inl ⟨by simp [afterLoop, hlast, hdata, hprint], if_neg fun h => hhost h.1⟩

theorem printable_range {printDivisor : Int32} {n : ℕ} :
    Printable sup printDivisor (List.range n) ↔
      (printDivisor ≠ 0 ∨ ∀ i ∈ List.range n, sup.node i = false) ∧
        ∀ i ∈ sup.shown printDivisor n, sup.hostname i = true := by
  simp only [Printable, Supply.shown, List.mem_filter, Bool.and_eq_true, decide_eq_true_eq]
  constructor
  · intro h
    refine ⟨?_, fun i hi => (h i hi.1 hi.2.1).2 hi.2.2⟩
    by_cases hd : printDivisor = 0
    · exact Or.inr fun i hi => Bool.eq_false_iff.mpr fun hn => (h i hi hn).1 hd
    · exact Or.inl hd
  · rintro ⟨hd, hshown⟩ i hi hn
    refine ⟨hd.resolve_right fun hno => ?_, fun hr => hshown i ⟨hi, hn, hr⟩⟩
    exact Bool.false_ne_true ((hno i hi).symm.trans hn)

theorem transcript_of_printable {entry timed : ℕ → Bool} {printDivisor : Int32} {n : ℕ}
    (hp : Printable sup printDivisor (List.range n)) : sup.transcript entry timed printDivisor n =
      (sup.closing entry timed n).map (linesOf sup printDivisor (List.range n) ++ ·) := by
  obtain ⟨hd, hshown⟩ := printable_range.mp hp
  simp only [Supply.transcript, guard, if_pos hd, if_pos hshown, Option.pure_def,
    Option.bind_eq_bind, Option.bind_some, Option.map_eq_bind]
  rfl

theorem transcript_of_not_printable {entry timed : ℕ → Bool} {printDivisor : Int32} {n : ℕ}
    (hp : ¬ Printable sup printDivisor (List.range n)) :
    sup.transcript entry timed printDivisor n = none := by
  rw [printable_range, not_and] at hp
  by_cases hd : printDivisor ≠ 0 ∨ ∀ i ∈ List.range n, sup.node i = false
  · simp only [Supply.transcript, guard, if_pos hd, if_neg (hp hd), Option.pure_def,
      Option.bind_eq_bind, Option.bind_some, Option.failure_eq_none, Option.bind_none]
  · simp only [Supply.transcript, guard, if_neg hd, Option.bind_eq_bind, Option.failure_eq_none,
      Option.bind_none]

theorem turns_le (entriesToAdd : Int32) : turns entriesToAdd ≤ 2 ^ 31 := by
  have hlt := entriesToAdd.toInt_lt
  rw [turns]
  omega

theorem fill_afterLoop {n : ℕ} (hh : AtTurn sup grants bits arr 0) (hn : n ≤ 2 ^ 31)
    (past : ℕ → Bool) (printDivisor : Int32) :
    ((fill past sup printDivisor n 0 ⟨arr, []⟩ >>= afterLoop past sup n).map Prod.fst =
        sup.transcript (entryGranted sup grants) (timeGranted sup grants) printDivisor n) ∧
      ∀ nodes coll h, fill past sup printDivisor n 0 ⟨arr, []⟩ >>= afterLoop past sup n =
          some (nodes, coll, h) → Ending sup (entryGranted sup grants) bits n coll h := by
  obtain ⟨hprints, hstops⟩ : (Printable sup printDivisor (List.range' 0 n) → ∃ arr',
      fill past sup printDivisor n 0 ⟨arr, []⟩ = some ⟨arr', _⟩ ∧ _) ∧ (_ → _) :=
    fill_eq n hh (by omega) []
  rw [← List.range_eq_range'] at hprints hstops
  by_cases hp : Printable sup printDivisor (List.range n)
  · obtain ⟨arr', hfill, hh'⟩ := hprints hp
    rw [Nat.zero_add] at hh'
    rw [List.nil_append] at hfill
    rw [transcript_of_printable hp, hfill, Option.bind_eq_bind, Option.bind_some]
    rcases afterLoop_cases hh' hn past (linesOf sup printDivisor (List.range n)) with
      ⟨hnone, hspec⟩ | ⟨lines, coll, h, hsome, hspec, hend⟩
    · rw [hnone, hspec]
      exact ⟨rfl, fun _ _ _ h => absurd h (by simp)⟩
    · rw [hsome, hspec]
      refine ⟨rfl, fun nodes' coll' h' heq => ?_⟩
      obtain ⟨-, rfl, rfl⟩ := by simpa using heq
      exact hend
  · rw [transcript_of_not_printable hp, hstops hp]
    exact ⟨rfl, fun _ _ _ h => absurd h (by simp)⟩

/-- The example prints the transcript of its nodes, or fails where there is none, and when it
is over nothing is left but the nodes that were refused an entry. -/
theorem runExampleCode_transcript {F : Type} (ops : FloatOps F) (grants : ℕ → ℕ → Bool)
    (raw : Raw) (bits : UInt32) (hb : bits.toNat ≤ 30) (past : ℕ → Bool) (sup : Supply)
    (density printFreqDensity : F) :
    (¬ CreateGranted (Heap.start grants) bits → runExampleCode past sup ops (Heap.start grants)
        raw bits density printFreqDensity = none) ∧
      (CreateGranted (Heap.start grants) bits →
        (runExampleCode past sup ops (Heap.start grants) raw bits density printFreqDensity).map
            (fun r => (r.1.printDivisor, r.1.nodes)) = do
          let printDivisor ← ops.printDivisor printFreqDensity
          let entriesToAdd ← ops.entriesToAdd bits density
          let nodes ← sup.transcript (entryGranted sup grants) (timeGranted sup grants)
            printDivisor (turns entriesToAdd)
          return (printDivisor, nodes)) ∧
      ∀ out h, runExampleCode past sup ops (Heap.start grants) raw bits density
          printFreqDensity = some (out, h) →
        ∃ entriesToAdd, ops.entriesToAdd bits density = some entriesToAdd ∧
          Ending sup (entryGranted sup grants) bits (turns entriesToAdd) out.collisions h := by
  by_cases hg : CreateGranted (Heap.start grants) bits
  · refine ⟨fun hno => absurd hg hno, ?_⟩
    obtain ⟨arr, hc, hh⟩ := arrayCreate_atTurn sup raw hb hg
    cases hd : ops.printDivisor printFreqDensity with
    | none => simp [runExampleCode, hc, hd]
    | some printDivisor =>
      cases hk : ops.entriesToAdd bits density with
      | none => simp [runExampleCode, hc, hd, hk]
      | some entriesToAdd =>
        obtain ⟨hlines, hend⟩ :=
          fill_afterLoop hh (turns_le entriesToAdd) past printDivisor
        have hrun : runExampleCode past sup ops (Heap.start grants) raw bits density
            printFreqDensity = (fill past sup printDivisor (turns entriesToAdd) 0 ⟨arr, []⟩ >>=
              afterLoop past sup (turns entriesToAdd)).map fun r => (⟨printDivisor, r.1, r.2.1⟩,
                r.2.2) := by
          simp [runExampleCode, hc, hd, hk, Option.map_eq_bind, Option.bind_assoc]
        rw [hrun]
        refine ⟨fun _ => ?_, fun out h heq => ?_⟩
        · simp only [Option.bind_eq_bind, Option.bind_some] at hlines ⊢
          rw [← hlines]
          simp [Option.map_eq_bind, Option.bind_assoc]
        · obtain ⟨⟨nodes, coll, h'⟩, hsome, heq⟩ := Option.map_eq_some_iff.mp heq
          obtain ⟨rfl, rfl⟩ := Prod.mk.inj heq
          exact ⟨entriesToAdd, rfl, hend nodes coll h' hsome⟩
  · obtain ⟨h, hc, -⟩ := arrayCreate_denied raw (.mac sup.hostnameField) hb
      (Heap.Balanced.start grants) hg
    have hnone : runExampleCode past sup ops (Heap.start grants) raw bits density
        printFreqDensity = none := by simp [runExampleCode, hc]
    exact ⟨fun _ => hnone, fun hg' => absurd hg' hg,
      fun _ _ h => absurd (hnone.symm.trans h) (by simp)⟩

def truncated (num den : ℤ) : Option Int32 :=
  if -2 ^ 31 ≤ num.tdiv den ∧ num.tdiv den < 2 ^ 31 then some (Int32.ofInt (num.tdiv den)) else none

def fractionOps : FloatOps (ℤ × ℕ) where
  positive x := decide (0 < x.1)
  reciprocal x := truncated (2 ^ x.2) x.1
  scaled n x := truncated (n.toInt * x.1) (2 ^ x.2)

/-- No memory for node 1 and for the entry of node 3, and the last two nodes that are given
an entry have one address. -/
def scarce : Supply :=
  ⟨fun i => i != 1, fun _ => true, fun i => List.replicate 6 (if i = 4 then 2 else UInt8.ofNat i),
    fun _ => List.length_replicate⟩

theorem runExampleCode_transcript_scarce : ∃ coll h,
    runExampleCode (fun _ => false) scarce fractionOps (Heap.start fun i _ => i != 5) .zero 1
        (2, 0) (1, 1) =
      some (⟨2, [(.entry 0, 1), (.entry 2, 5), (.last, 5), (.new, 9), (.byKey, 9), (.first, 9)],
        coll⟩, h) ∧
      coll = 0 ∧ AllFreedOnce h ∧ h.freed.count (.foreign 9) = 1 ∧
        h.freed.count (.foreign 7) = 0 := by
  obtain ⟨-, hlines, hending⟩ := runExampleCode_transcript fractionOps (fun i _ => i != 5) .zero
    1 (by decide) (fun _ => false) scarce (2, 0) (1, 1)
  have hdivisor : fractionOps.printDivisor (1, 1) = some 2 := by decide
  have hentries : fractionOps.entriesToAdd 1 (2, 0) = some 4 := by decide
  have hspec : scarce.transcript (entryGranted scarce fun i _ => i != 5)
      (timeGranted scarce fun i _ => i != 5) 2 (turns 4) =
      some [(.entry 0, 1), (.entry 2, 5), (.last, 5), (.new, 9), (.byKey, 9), (.first, 9)] := by
    decide
  have hprinted := hlines ⟨rfl, rfl, rfl⟩
  simp only [hdivisor, hentries, hspec, Option.bind_eq_bind, Option.bind_some,
    Option.pure_def] at hprinted
  obtain ⟨⟨⟨printDivisor, nodes, coll⟩, h⟩, hrun, hout⟩ := Option.map_eq_some_iff.mp hprinted
  obtain ⟨rfl, rfl⟩ := Prod.mk.inj hout
  obtain ⟨entriesToAdd, hk, hend⟩ := hending _ h hrun
  obtain rfl : 4 = entriesToAdd := Option.some.inj (hentries.symm.trans hk)
  refine ⟨coll, h, hrun, ?_, hend.freed, ?_, ?_⟩
  · have hzero : coll.toInt = 0 := hend.percent.trans (by decide)
    exact Int32.toInt_inj.mp hzero
  · rw [hend.blocks 4 9 (by decide)]
    decide
  · rw [hend.blocks 3 7 (by decide)]
    decide

end
end KernelHashtable.Example
