import KernelHashtable.StringTable
import Mathlib.Data.Multiset.AddSub

/-!
# Runs of the table of strings

Strings are added, deleted, looked up and counted in any order. The table is a bag of strings,
and `HT_FREE` returns every block that the run has taken.
-/

namespace KernelHashtable.Strings
open Hash Hashtable HList

inductive Op where
  | add (str : CString)
  | delete (str : CString)
  | find (str : CString)
  | count

inductive Answer where
  | done
  | code (result : ℕ)
  | text (bytes : Option (List UInt8))
  | entries (count : ℕ)

def step (char : CharKind) (s : StringTable) : Op → Option (Answer × StringTable)
  | .add str => do
    let s ← s.addStringToHashtable char str
    return (.done, s)
  | .delete str => do
    let (result, s) ← s.deleteStringFromHashtable char str
    return (.code result, s)
  | .find str => do
    match ← s.findStringInHashtable char str with
    | none => return (.text none, s)
    | some e =>
      let bytes ← s.text e
      return (.text (some bytes), s)
  | .count => do
    let count ← s.countEntries
    return (.entries count, s)

def bagStep (bag : Multiset CString) : Op → Answer × Multiset CString
  | .add str => (.done, str ::ₘ bag)
  | .delete str => (.code (if str ∈ bag then 0 else 1), bag.erase str)
  | .find str => (.text (if str ∈ bag then some str.bytes else none), bag)
  | .count => (.entries bag.card, bag)

def Granted (s : StringTable) : Op → Prop
  | .add str => s.heap.grants s.heap.calls sizeofStringEntry = true ∧
      s.heap.grants (s.heap.calls + 1) (str.strlen + 1) = true
  | _ => True

def Filed (char : CharKind) (es : List Entry) : Prop :=
  ∀ e ∈ es, hashOf char e.text (toInt e.text.strlen) = some e.key

def Holds (char : CharKind) (s : StringTable) (bag : Multiset CString) : Prop :=
  ∃ es, Rep s es ∧ Filed char es ∧ ((es.map Entry.text : List CString) : Multiset CString) = bag

section
variable {char : CharKind} {s : StringTable} {es : List Entry} {str : CString}
  {bag : Multiset CString} {bits key : UInt32}

theorem Filed.hits_iff (hfiled : Filed char es)
    (hkey : hashOf char str (toInt str.strlen) = some key) {e : Entry} (he : e ∈ es) :
    e.hits bits key str = true ↔ e.text = str := by
  simp only [Entry.hits, Bool.and_eq_true, decide_eq_true_eq, and_iff_right_iff_imp]
  rintro rfl
  rw [Option.some.inj ((hfiled e he).symm.trans hkey)]

theorem Filed.find_cases (bits : UInt32) (hfiled : Filed char es)
    (hkey : hashOf char str (toInt str.strlen) = some key) :
    (es.find? (Entry.hits bits key str) = none ∧ str ∉ es.map Entry.text ∧
      es.eraseP (Entry.hits bits key str) = es) ∨
    ∃ A d B, es = A ++ d :: B ∧ d.text = str ∧ es.find? (Entry.hits bits key str) = some d ∧
      es.eraseP (Entry.hits bits key str) = A ++ B := by
  cases hfind : es.find? (Entry.hits bits key str) with
  | none =>
    have hnone := List.find?_eq_none.mp hfind
    refine Or.inl ⟨rfl, fun hmem => ?_, List.eraseP_of_forall_not hnone⟩
    obtain ⟨e, he, htext⟩ := List.mem_map.mp hmem
    exact hnone e he ((hfiled.hits_iff hkey he).mpr htext)
  | some d =>
    obtain ⟨hhit, A, B, rfl, hA⟩ := List.find?_eq_some_iff_append.mp hfind
    refine Or.inr ⟨A, d, B, rfl, (hfiled.hits_iff hkey (by simp)).mp hhit, rfl, ?_⟩
    rw [List.eraseP_append_right _ fun x hx => by simpa using hA x hx,
      List.eraseP_cons_of_pos hhit]

theorem Filed.eraseP (hfiled : Filed char es) (p : Entry → Bool) : Filed char (es.eraseP p) :=
  fun e he => hfiled e (List.mem_of_mem_eraseP he)

theorem coe_text_split (A B : List Entry) (d : Entry) :
    (((A ++ d :: B).map Entry.text : List CString) : Multiset CString) =
      d.text ::ₘ (((A ++ B).map Entry.text : List CString) : Multiset CString) := by
  rw [List.map_append, List.map_append, List.map_cons]
  exact Multiset.coe_eq_coe.mpr List.perm_middle

theorem Holds.add (hs : Holds char s bag) (hg : Granted s (.add str)) :
    ∃ s', step char s (.add str) = some (.done, s') ∧ Holds char s' (str ::ₘ bag) ∧
      s'.ht = s.ht ∧ s'.heap.grants = s.heap.grants := by
  obtain ⟨es, hr, hfiled, rfl⟩ := hs
  obtain ⟨key, hkey⟩ := hashOf_strlen char str
  have hfit : str.bytes.length ≤ str.strlen + 1 := by
    rw [CString.bytes, List.length_append]
    rfl
  obtain ⟨s', hadd, hr', hkept⟩ := hr.addEntry hkey hfit hg.1 hg.2
  refine ⟨s', ?_, ⟨_, hr', ?_, rfl⟩, hkept⟩
  · simp [step, StringTable.addStringToHashtable, hadd]
  · intro e he
    rcases List.mem_cons.mp he with rfl | he
    · exact hkey
    · exact hfiled e he

theorem Holds.delete (hs : Holds char s bag) (str : CString) :
    ∃ s', step char s (.delete str) = some ((bagStep bag (.delete str)).1, s') ∧
      Holds char s' (bag.erase str) ∧ s'.ht = s.ht ∧ s'.heap.grants = s.heap.grants := by
  obtain ⟨es, hr, hfiled, rfl⟩ := hs
  obtain ⟨key, hkey⟩ := hashOf_strlen char str
  obtain ⟨s', hdel, hr', hkept⟩ := hr.delete hkey
  refine ⟨s', ?_, ⟨_, hr', hfiled.eraseP _, ?_⟩, hkept⟩
  · simp only [step, hdel, bagStep, Multiset.mem_coe]
    rcases hfiled.find_cases s.ht.bits hkey with
      ⟨hfind, hmem, -⟩ | ⟨A, d, B, rfl, rfl, hfind, -⟩
    · simp [hfind, hmem]
    · simp [hfind]
  · rcases hfiled.find_cases s.ht.bits hkey with
      ⟨-, hmem, hsame⟩ | ⟨A, d, B, rfl, rfl, -, hrest⟩
    · rw [hsame, Multiset.erase_of_notMem hmem]
    · rw [hrest, coe_text_split, Multiset.erase_cons_head]

theorem Holds.find (hs : Holds char s bag) (str : CString) :
    step char s (.find str) = some ((bagStep bag (.find str)).1, s) := by
  obtain ⟨es, hr, hfiled, rfl⟩ := hs
  obtain ⟨key, hkey⟩ := hashOf_strlen char str
  simp only [step, hr.find hkey, bagStep, Multiset.mem_coe]
  rcases hfiled.find_cases s.ht.bits hkey with
    ⟨hfind, hmem, -⟩ | ⟨A, d, B, rfl, rfl, hfind, -⟩
  · simp [hfind, hmem]
  · simp [hfind, hr.text_eq (show d ∈ A ++ d :: B by simp)]

theorem Holds.next (hs : Holds char s bag) {o : Op} (hg : Granted s o) :
    ∃ r s', step char s o = some (r, s') ∧ r = (bagStep bag o).1 ∧
      Holds char s' (bagStep bag o).2 ∧ s'.ht = s.ht ∧ s'.heap.grants = s.heap.grants := by
  cases o with
  | add str =>
    obtain ⟨s', hstep, hs', hkept⟩ := hs.add hg
    exact ⟨_, s', hstep, rfl, hs', hkept⟩
  | delete str =>
    obtain ⟨s', hstep, hs', hkept⟩ := hs.delete str
    exact ⟨_, s', hstep, rfl, hs', hkept⟩
  | find str => exact ⟨_, s, hs.find str, rfl, hs, rfl, rfl⟩
  | count =>
    refine ⟨_, s, ?_, rfl, hs, rfl, rfl⟩
    obtain ⟨es, hr, -, rfl⟩ := hs
    simp [step, hr.count, bagStep]

theorem step_denied {o : Op} (hg : ¬ Granted s o) : step char s o = none := by
  cases o with
  | add str => simp [step, StringTable.addStringToHashtable, addEntry_denied hg]
  | delete str => exact absurd trivial hg
  | find str => exact absurd trivial hg
  | count => exact absurd trivial hg

def AllFreedOnce (h : Heap) : Prop :=
  (∀ b, h.live b = false) ∧ ∀ b < h.fresh, h.freed.count (.own b) = 1

theorem Holds.htFree (hs : Holds char s bag) : ∃ h, s.htFree = some h ∧ AllFreedOnce h := by
  obtain ⟨es, hr, -, -⟩ := hs
  obtain ⟨h, hfree, hbal, hlive⟩ := hr.htFree
  exact ⟨h, hfree, hlive, fun b hb => hbal.freed_once hlive hb⟩

theorem htCreate_holds {h h' : Heap} {M M' : Buckets ℕ ℕ} {ht : HashtableT} (hbal : h.Balanced)
    (hempty : ∀ b, h.live b = false) (hb : bits.toNat ≤ 30)
    (hc : htCreate lp64 h M bits = some (some ht, h', M')) (str : ℕ → ℕ) :
    Holds char ⟨h', ht, M', str⟩ 0 := by
  obtain ⟨hbits, hh, hself, htable, -⟩ := htCreate_eq_some hc
  have htab := (htCreate_rep hb hc).table
  refine ⟨[], ⟨?_, ?_, ?_, by simp, ?_, fun b => ?_, ?_⟩, by simp [Filed], rfl⟩
  · simpa only [hbits] using hb
  · simp only [hbits, hh, htable]
    rw [← tableBytes_lp64 hb]
    simp [Heap.grant]
  · simpa only [hbits, links, List.map_nil] using htab
  · simp [owned, hself, htable]
  · simp only [owned, hh, hself, htable, Heap.grant_live, Heap.grant_fresh, hempty,
      List.flatMap_nil, List.mem_cons, List.not_mem_nil, or_false, Bool.or_eq_true,
      Bool.false_eq_true, false_or, decide_eq_true_iff]
    exact or_congr_right decide_eq_true_iff
  · simp only [hh]
    exact (hbal.grant _).grant _

theorem Holds.run (hs : Holds char s bag) {ops : List Op}
    (hg : AllSteps (step char) Granted s ops) :
    ∃ rs s', KernelHashtable.run (step char) s ops = some (rs, s') ∧
      rs = (runSpec bagStep bag ops).1 ∧ Holds char s' (runSpec bagStep bag ops).2 ∧
      s'.ht = s.ht ∧ s'.heap.grants = s.heap.grants := by
  obtain ⟨rs, s', hrun, hans, -, hs'⟩ := run_refines
    (R := fun s' bag (_ : Unit) => Holds char s' bag ∧ s'.ht = s.ht ∧
      s'.heap.grants = s.heap.grants) bagStep id (fun _ _ _ => ())
    (fun s₁ bag _ o hs₁ hg => by
      obtain ⟨r, s₂, hstep, hans, hs₂, hht, hgr⟩ := hs₁.1.next hg
      exact ⟨r, s₂, hstep, hans, hs₂, hht.trans hs₁.2.1, hgr.trans hs₁.2.2⟩)
    (g := ()) ⟨hs, rfl, rfl⟩ hg
  rw [List.map_id] at hans
  exact ⟨rs, s', hrun, hans, hs'⟩

theorem Holds.allSteps (hs : Holds char s bag) (hg : ∀ i n, s.heap.grants i n = true)
    (ops : List Op) : AllSteps (step char) Granted s ops := by
  have hall : ∀ {s : StringTable}, (∀ i n, s.heap.grants i n = true) → ∀ o, Granted s o := by
    intro s hg o
    cases o with
    | add str => exact ⟨hg _ _, hg _ _⟩
    | delete str => trivial
    | find str => trivial
    | count => trivial
  refine allSteps_of_invariant (Q := fun _ => True)
    (I := fun s => (∃ bag, Holds char s bag) ∧ ∀ i n, s.heap.grants i n = true)
    (fun s o hI _ => hall hI.2 o) ?_ ⟨⟨bag, hs⟩, hg⟩ fun _ _ => trivial
  rintro s o r s' ⟨⟨bag, hs⟩, hg⟩ - hstep
  obtain ⟨r', s'', hstep', -, hs', -, hgr⟩ := hs.next (hall hg o)
  obtain ⟨-, rfl⟩ := Prod.mk.inj (Option.some.inj (hstep.symm.trans hstep'))
  exact ⟨⟨_, hs'⟩, by rwa [hgr]⟩

theorem Holds.run_defined_iff (hs : Holds char s bag) (ops : List Op) :
    (KernelHashtable.run (step char) s ops).isSome = true ↔
      AllSteps (step char) Granted s ops := by
  refine run_isSome_iff (I := fun s => ∃ bag, Holds char s bag) ?_ ?_ ⟨bag, hs⟩ ops
  · rintro s o ⟨bag, hs⟩ hg
    obtain ⟨r, s', hstep, -, hs', -⟩ := hs.next hg
    exact ⟨r, s', hstep, _, hs'⟩
  · exact fun s o _ hg => step_denied hg

theorem Holds.run_of_eq (hs : Holds char s bag) {ops : List Op} {rs : List Answer}
    {s' : StringTable} (hrun : KernelHashtable.run (step char) s ops = some (rs, s')) :
    rs = (runSpec bagStep bag ops).1 ∧ Holds char s' (runSpec bagStep bag ops).2 ∧
      s'.ht = s.ht ∧ s'.heap.grants = s.heap.grants := by
  obtain ⟨rs', s'', hrun', hend⟩ := hs.run ((hs.run_defined_iff ops).mp (by simp [hrun]))
  obtain ⟨rfl, rfl⟩ := Prod.mk.inj (Option.some.inj (hrun.symm.trans hrun'))
  exact hend

/-- A run has a meaning exactly when no request for memory is refused. It is then answered like
a bag of strings, and `HT_FREE` gives everything back. -/
theorem stringTable_run_bag (char : CharKind) {h h' : Heap} {M M' : Buckets ℕ ℕ} {bits : UInt32}
    {ht : HashtableT} (hbal : h.Balanced) (hempty : ∀ b, h.live b = false) (hb : bits.toNat ≤ 30)
    (hc : htCreate lp64 h M bits = some (some ht, h', M')) (str : ℕ → ℕ) (ops : List Op) :
    ((KernelHashtable.run (step char) ⟨h', ht, M', str⟩ ops).isSome = true ↔
      AllSteps (step char) Granted ⟨h', ht, M', str⟩ ops) ∧
    ∀ rs s, KernelHashtable.run (step char) ⟨h', ht, M', str⟩ ops = some (rs, s) →
      rs = (runSpec bagStep 0 ops).1 ∧ ∃ h, s.htFree = some h ∧ AllFreedOnce h := by
  have hstart : Holds char ⟨h', ht, M', str⟩ 0 := htCreate_holds hbal hempty hb hc str
  refine ⟨hstart.run_defined_iff ops, fun rs s hrun => ?_⟩
  obtain ⟨hans, hs, -⟩ := hstart.run_of_eq hrun
  exact ⟨hans, hs.htFree⟩

def strA : CString := ⟨[97], by decide⟩
def strB : CString := ⟨[98], by decide⟩

theorem stringTable_run_bag_twice : ∃ h' M' ht,
    htCreate lp64 (Heap.start fun _ _ => true) ⟨fun _ => .null, fun _ => .null, fun _ => .null⟩ 1 =
      some (some ht, h', M') ∧
    ∃ rs s, KernelHashtable.run (step .signed) ⟨h', ht, M', fun _ => 0⟩
        [.add strA, .add strB, .add strA, .delete strA, .find strA, .find strB, .count] =
        some (rs, s) ∧
      rs = [.done, .done, .done, .code 0, .text (some [97, 0]), .text (some [98, 0]),
        .entries 2] ∧
      ∃ h, s.htFree = some h ∧ AllFreedOnce h := by
  obtain ⟨h', M', ht, hc, hgr⟩ : ∃ h', ∃ M' : Buckets ℕ ℕ, ∃ ht,
      htCreate lp64 (Heap.start fun _ _ => true)
        ⟨fun _ => .null, fun _ => .null, fun _ => .null⟩ 1 = some (some ht, h', M') ∧
      ∀ i n, h'.grants i n = true := ⟨_, _, _, rfl, fun _ _ => rfl⟩
  have hstart : Holds .signed ⟨h', ht, M', fun _ => 0⟩ 0 :=
    htCreate_holds (Heap.Balanced.start _) (fun _ => rfl) (by decide) hc _
  obtain ⟨hdef, hbag⟩ := stringTable_run_bag .signed (Heap.Balanced.start _) (fun _ => rfl)
    (by decide) hc (fun _ => 0)
    [.add strA, .add strB, .add strA, .delete strA, .find strA, .find strB, .count]
  obtain ⟨⟨rs, s⟩, hrun⟩ := Option.isSome_iff_exists.mp (hdef.mpr (hstart.allSteps hgr _))
  obtain ⟨hans, hfree⟩ := hbag rs s hrun
  refine ⟨h', M', ht, hc, rs, s, hrun, hans.trans ?_, hfree⟩
  rfl

/-- `test_add_to_ht` hashes `sizeof(TEST_STRING)` characters, with the terminator. -/
def addSizeof (char : CharKind) (s : StringTable) (str : CString) : Option StringTable :=
  s.addEntry char str (str.strlen + 2) (toInt (str.strlen + 1))

theorem toInt_of_lt {n : ℕ} (hn : n < 2 ^ 31) : toInt n = n := by
  have hbv : toInt n = (n : ℤ).bmod (2 ^ 32) := BitVec.toInt_ofNat n
  rw [hbv, Int.bmod_def]
  split_ifs <;> omega

theorem hashOf_terminator (hlen : str.strlen + 1 < 2 ^ 31)
    (hkey : hashOf char str (toInt str.strlen) = some key) :
    hashOf char str (toInt (str.strlen + 1)) = some (33 * key) := by
  have hlength : str.bytes.length = str.strlen + 1 := by
    rw [CString.bytes, List.length_append]
    rfl
  have htake : str.bytes.take str.strlen = str.chars := List.take_left
  have htake' : str.bytes.take (str.strlen + 1) = str.chars ++ [0] := by
    rw [← hlength, List.take_length, CString.bytes]
  have hzero : char.values [0] = [0] := by
    cases char with
    | signed => rfl
    | unsigned => rfl
  rw [toInt_of_lt (by omega)] at hkey ⊢
  rw [hashOf, hashTime33_take (by omega), htake, Option.map_some] at hkey
  rw [hashOf, hashTime33_take hlength.ge, htake', Option.map_some, ← Option.some.inj hkey]
  rw [CharKind.values, List.map_append, ← CharKind.values, ← CharKind.values, hzero,
    horner_append, horner_cons, horner_nil, add_zero, Int32.ofInt_mul, Int32.toUInt32_mul]
  rfl

theorem mod_mul_33_iff (hb : bits.toNat ≤ 30) :
    (33 * key).toNat % 2 ^ bits.toNat = key.toNat % 2 ^ bits.toNat ↔
      2 ^ bits.toNat ∣ 32 * key.toNat := by
  have hdvd : 2 ^ bits.toNat ∣ 2 ^ 32 := Nat.pow_dvd_pow 2 (by omega)
  have hmul : (33 * key).toNat % 2 ^ bits.toNat = 33 * key.toNat % 2 ^ bits.toNat := by
    rw [UInt32.toNat_mul, Nat.mod_mod_of_dvd _ hdvd]
    rfl
  have hsub : 33 * key.toNat - key.toNat = 32 * key.toNat := by omega
  have hiff := Nat.modEq_iff_dvd' (n := 2 ^ bits.toNat)
    (show key.toNat ≤ 33 * key.toNat by omega)
  rw [hsub] at hiff
  rw [hmul, eq_comm]
  exact hiff

theorem Holds.addSizeof (hs : Holds char s bag) (hlen : str.strlen + 1 < 2 ^ 31)
    (hkey : hashOf char str (toInt str.strlen) = some key)
    (hg : s.heap.grants s.heap.calls sizeofStringEntry = true)
    (hg' : s.heap.grants (s.heap.calls + 1) (str.strlen + 2) = true) :
    ∃ s', addSizeof char s str = some s' ∧
      (s'.findStringInHashtable char str = some (some s.heap.fresh) ↔
        2 ^ s.ht.bits.toNat ∣ 32 * key.toNat) ∧
      (s'.findStringInHashtable char str = some none ↔
        ¬ 2 ^ s.ht.bits.toNat ∣ 32 * key.toNat ∧ str ∉ bag) ∧
      s'.countEntries = some (bag.card + 1) ∧ ∃ h, s'.htFree = some h ∧ AllFreedOnce h := by
  obtain ⟨es, hr, hfiled, rfl⟩ := hs
  have hlong : str.bytes.length ≤ str.strlen + 2 := by
    rw [CString.bytes, List.length_append]
    exact Nat.le_succ _
  obtain ⟨s', hadd, hr', hht, -⟩ := hr.addEntry (hashOf_terminator hlen hkey) hlong hg hg'
  have hhit : Entry.hits s.ht.bits key str ⟨s.heap.fresh, s.heap.fresh + 1, str, 33 * key⟩ =
      decide (2 ^ s.ht.bits.toNat ∣ 32 * key.toNat) := by
    simp only [Entry.hits, decide_true, Bool.and_true]
    exact decide_eq_decide.mpr (mod_mul_33_iff hr.bits_le)
  have hfind := hr'.find hkey
  rw [hht, List.find?_cons, hhit] at hfind
  obtain ⟨h, hfree, hbal, hlive⟩ := hr'.htFree
  have hcount : s'.countEntries = some (es.length + 1) := hr'.count
  refine ⟨s', hadd, ?_, ?_, by simpa using hcount, h, hfree, hlive,
    fun b hb => hbal.freed_once hlive hb⟩
  · by_cases hd : 2 ^ s.ht.bits.toNat ∣ 32 * key.toNat
    · simp [hfind, hd]
    · simp only [hfind, hd, decide_false, Option.some_inj, iff_false, Option.map_eq_some_iff,
        not_exists, not_and]
      intro e he heq
      have hlt := hr.balanced.lt_fresh (hr.live_entry (List.mem_of_find?_eq_some he)).1
      omega
  · by_cases hd : 2 ^ s.ht.bits.toNat ∣ 32 * key.toNat
    · simp [hfind, hd]
    · simp only [hfind, hd, decide_false, not_false_eq_true, true_and, Option.some_inj,
        Option.map_eq_none_iff, Multiset.mem_coe]
      rcases hfiled.find_cases s.ht.bits hkey with
        ⟨hnone, hmem, -⟩ | ⟨A, d, B, rfl, rfl, hsome, -⟩
      · simp [hnone, hmem]
      · simp [hsome]

/-- After any run, the entry that `test_add_to_ht` adds is found exactly when the two hashes
fall into one bucket; the bucket sizes up to 32 do not tell them apart. -/
theorem stringTable_run_addSizeof (char : CharKind) {h h' : Heap} {M M' : Buckets ℕ ℕ}
    {bits : UInt32} {ht : HashtableT} (hbal : h.Balanced) (hempty : ∀ b, h.live b = false)
    (hb : bits.toNat ≤ 30) (hc : htCreate lp64 h M bits = some (some ht, h', M')) (strs : ℕ → ℕ)
    (ops : List Op) {rs : List Answer} {s : StringTable}
    (hrun : KernelHashtable.run (step char) ⟨h', ht, M', strs⟩ ops = some (rs, s))
    (str : CString) (hlen : str.strlen + 1 < 2 ^ 31)
    (hg : s.heap.grants s.heap.calls sizeofStringEntry = true)
    (hg' : s.heap.grants (s.heap.calls + 1) (str.strlen + 2) = true) :
    ∃ key s', hashOf char str (toInt str.strlen) = some key ∧ addSizeof char s str = some s' ∧
      (s'.findStringInHashtable char str = some (some s.heap.fresh) ↔
        2 ^ bits.toNat ∣ 32 * key.toNat) ∧
      (s'.findStringInHashtable char str = some none ↔
        ¬ 2 ^ bits.toNat ∣ 32 * key.toNat ∧ str ∉ (runSpec bagStep 0 ops).2) ∧
      s'.countEntries = some ((runSpec bagStep 0 ops).2.card + 1) ∧
      ∃ h, s'.htFree = some h ∧ AllFreedOnce h := by
  have hstart : Holds char ⟨h', ht, M', strs⟩ 0 := htCreate_holds hbal hempty hb hc strs
  obtain ⟨-, hs, hht, -⟩ := hstart.run_of_eq hrun
  have hbits : s.ht.bits = bits := (congrArg HashtableT.bits hht).trans (htCreate_eq_some hc).1
  obtain ⟨key, hkey⟩ := hashOf_strlen char str
  obtain ⟨s', hadd, hrest⟩ := hs.addSizeof hlen hkey hg hg'
  rw [hbits] at hrest
  exact ⟨key, s', hkey, hadd, hrest⟩

/-- The string of `test_add_to_ht`. -/
def testString : CString :=
  ⟨[106, 117, 115, 116, 95, 116, 101, 115, 116, 95, 115, 116, 114, 105, 110, 103], by decide⟩

theorem testString_key {key : UInt32}
    (hkey : hashOf .signed testString (toInt testString.strlen) = some key) :
    key = 942015456 := by
  have hval : hashOf .signed testString (toInt testString.strlen) = some 942015456 := by decide
  exact Option.some.inj (hkey.symm.trans hval)

theorem stringTable_run_addSizeof_testString : ∃ h' M' ht,
    htCreate lp64 (Heap.start fun _ _ => true) ⟨fun _ => .null, fun _ => .null, fun _ => .null⟩ 10 =
      some (some ht, h', M') ∧
    ∃ rs s s', KernelHashtable.run (step .signed) ⟨h', ht, M', fun _ => 0⟩ [.add strA] =
        some (rs, s) ∧ addSizeof .signed s testString = some s' ∧
      s'.findStringInHashtable .signed testString = some (some s.heap.fresh) ∧
      s'.countEntries = some 2 := by
  obtain ⟨h', M', ht, hc, hgr'⟩ : ∃ h', ∃ M' : Buckets ℕ ℕ, ∃ ht,
      htCreate lp64 (Heap.start fun _ _ => true)
        ⟨fun _ => .null, fun _ => .null, fun _ => .null⟩ 10 = some (some ht, h', M') ∧
      h'.grants = fun _ _ => true := by
    have hb : (10 : UInt32).toNat ≤ 30 := by decide
    obtain ⟨M', hc, -⟩ := htCreate_granted (h := Heap.start fun _ _ => true)
      (M := (⟨fun _ => .null, fun _ => .null, fun _ => .null⟩ : Buckets ℕ ℕ)) hb rfl rfl
    exact ⟨_, M', _, hc, rfl⟩
  have hstart : Holds .signed ⟨h', ht, M', fun _ => 0⟩ 0 :=
    htCreate_holds (Heap.Balanced.start _) (fun _ => rfl) (by decide) hc _
  obtain ⟨rs, s, hrun, -, -, -, hgr⟩ := hstart.run
    (hstart.allSteps (fun i n => by rw [hgr']) [.add strA])
  obtain ⟨key, s', hkey, hadd, hfound, -, hcount, -⟩ := stringTable_run_addSizeof .signed
    (Heap.Balanced.start _) (fun _ => rfl) (by decide) hc (fun _ => 0) [.add strA] hrun testString
    (by decide) (by rw [hgr, hgr']) (by rw [hgr, hgr'])
  refine ⟨h', M', ht, hc, rs, s, s', hrun, hadd, hfound.mpr ?_, hcount⟩
  rw [testString_key hkey]
  decide

end
end KernelHashtable.Strings
