import KernelHashtable.HashtableRuns

/-!
# Clearing a hash table

`CLEAR_HASHTABLE_BITS` with an arbitrary `free_func`. An entry that has been released can no
longer be touched, and every call of `free_func` is put on record.
-/

namespace KernelHashtable.Hashtable
open HList

structure Entries (α ρ : Type) where
  mem : Buckets ℕ α
  live : α → Bool
  other : ρ

/-- `free_func` releases the entry that it is given, whose fields it may overwrite. -/
structure ReleasesOnly {α ρ : Type} [DecidableEq α]
    (freeFunc : Entries α ρ → α → Option (Entries α ρ)) : Prop where
  release : ∀ s x, s.live x = true → ∃ s', freeFunc s x = some s' ∧
    s'.live = Function.update s.live x false ∧ s'.mem.first = s.mem.first ∧
    ∀ y, y ≠ x → s'.mem.next y = s.mem.next y ∧ s'.mem.pprev y = s.mem.pprev y

variable {α ρ : Type} [DecidableEq α]

section
variable (okHead : ℕ → Bool) (freeFunc : Entries α ρ → α → Option (Entries α ρ))

def delEntry (s : Entries α ρ × List α) (x : α) : Option (Entries α ρ × List α) := do
  let mem ← hashDel okHead s.1.live s.1.mem x
  return ({ s.1 with mem := mem }, s.2)

def callFree (s : Entries α ρ × List α) (x : α) : Option (Entries α ρ × List α) := do
  let s' ← freeFunc s.1 x
  return (s', s.2 ++ [x])

def clearTable (fuel : ℕ) (bits : UInt32) (s : Entries α ρ) :
    Option (Entries α ρ × List α) :=
  clearHashtableBits (fun s b => loadFirst okHead s.1.mem b)
    (fun s p => loadNext s.1.live s.1.mem p) fuel (delEntry okHead) (callFree freeFunc) bits
    (s, [])

end

structure Left (n : ℕ) (bkt₀ : ℕ → List α) (live : α → Bool) (bkt : ℕ → List α)
    (s : Entries α ρ × List α) : Prop where
  table : IsTable (· < n) s.1.mem bkt
  touchable : ∀ b < n, ∀ x ∈ bkt b, s.1.live x = true
  calls : (s.2 ++ (List.range n).flatMap bkt).Perm ((List.range n).flatMap bkt₀)
  live : ∀ x, s.1.live x = (live x && decide (x ∉ s.2))

omit [DecidableEq α] in
theorem flatMap_update_perm {n b : ℕ} (hb : b < n) {bkt : ℕ → List α} {x : α} {xs : List α}
    (hx : bkt b = x :: xs) : ((List.range n).flatMap bkt).Perm
      (x :: (List.range n).flatMap (Function.update bkt b xs)) := by
  obtain ⟨A, C, hsplit⟩ := List.append_of_mem (List.mem_range.mpr hb)
  have hnd : (A ++ b :: C).Nodup := hsplit ▸ List.nodup_range
  obtain ⟨hA, hC⟩ : b ∉ A ∧ b ∉ C := by
    obtain ⟨-, hnd', hdisj⟩ := List.nodup_append.mp hnd
    exact ⟨fun h => hdisj b h b (by simp) rfl, (List.nodup_cons.mp hnd').1⟩
  have hsame : ∀ L : List ℕ, b ∉ L → L.flatMap (Function.update bkt b xs) = L.flatMap bkt := by
    intro L hL
    apply List.flatMap_congr
    intro c hc
    have hcb : c ≠ b := fun e => hL (e ▸ hc)
    exact Function.update_of_ne hcb xs bkt
  rw [hsplit, List.flatMap_append, List.flatMap_append, List.flatMap_cons, List.flatMap_cons,
    hsame A hA, hsame C hC, hx, Function.update_self]
  exact List.perm_middle

theorem left_clears {okHead : ℕ → Bool} {freeFunc : Entries α ρ → α → Option (Entries α ρ)}
    (hfree : ReleasesOnly freeFunc) {n : ℕ} (hheads : ∀ b < n, okHead b = true)
    (bkt₀ : ℕ → List α) (live : α → Bool) :
    Clears (fun s b => loadFirst okHead s.1.mem b) (fun s p => loadNext s.1.live s.1.mem p)
      (delEntry okHead) (callFree freeFunc) n (Left n bkt₀ live) := by
  constructor
  · intro bkt s hI b hb
    have hhead := (hI.table.threads b hb).get_eq
    rw [Buckets.get_first] at hhead
    rw [loadFirst, if_pos (hheads b hb), hhead]
  · intro bkt s hI b hb x xs hx
    have hthreads := hI.table.threads b hb
    have hok := hI.touchable b hb x (by simp [hx])
    rw [hx] at hthreads
    rw [loadNext_addr hok]
    exact congrArg some hthreads.2.2.get_eq
  · intro bkt s hI b hb x xs hx
    have hxb : x ∈ bkt b := by simp [hx]
    have hlive := hI.touchable b hb x hxb
    have hfront : bkt b = [] ++ x :: xs := hx
    obtain ⟨mem, hmem, -, -, htab⟩ := hlistDelInit_isTable hI.table hheads hb
      (hI.touchable b hb) hfront
    rw [List.nil_append] at htab
    obtain ⟨s', hrel, hlive', hfirst, hother⟩ :=
      hfree.release { s.1 with mem := mem } x hlive
    have hrest : ∀ c y, y ∈ Function.update bkt b xs c → y ∈ bkt c ∧ y ≠ x := fun c y hy =>
      (hI.table.mem_update_iff hfront).mp hy
    refine ⟨(s', s.2 ++ [x]), ?_, ?_, ?_, ?_, ?_⟩
    · simp [clearEntry, delEntry, hashDel, hmem, callFree, hrel]
    · exact htab.congr hfirst fun c y hy => hother y (hrest c y hy).2
    · intro c hc y hy
      obtain ⟨hyc, hyx⟩ := hrest c y hy
      rw [hlive', Function.update_of_ne hyx]
      exact hI.touchable c hc y hyc
    · rw [List.append_assoc]
      exact ((flatMap_update_perm hb hx).symm.append_left s.2).trans hI.calls
    · intro y
      by_cases hyx : y = x
      · subst hyx
        simp [hlive']
      · simp [hlive', hI.live, hyx]

/-- The loop calls `free_func` once for every linked entry and for nothing else, touches no
entry after that, and leaves a table that is as good as new. -/
theorem clearTable_frees_all (t : Target) {bits : UInt32} (hb : bits.toNat ≤ 30) {w : World α}
    (hbits : w.ht.bits = bits) (hheads : ∀ b < 2 ^ bits.toNat, w.headOk t b = true)
    {bkt : ℕ → List α} (htab : IsTable (· < 2 ^ bits.toNat) w.mem bkt)
    {freeFunc : Entries α ρ → α → Option (Entries α ρ)} (hfree : ReleasesOnly freeFunc)
    {live : α → Bool} (hlive : ∀ b < 2 ^ bits.toNat, ∀ x ∈ bkt b, live x = true) (other : ρ)
    (fuel : ℕ) (hf : ∀ b < 2 ^ bits.toNat, (bkt b).length < fuel) :
    ∃ s calls, clearTable (w.headOk t) freeFunc fuel bits ⟨w.mem, live, other⟩ =
        some (s, calls) ∧
      calls.Perm ((List.range (2 ^ bits.toNat)).flatMap bkt) ∧ calls.Nodup ∧
      (∀ x, s.live x = (live x && decide (x ∉ calls))) ∧
      (∀ b < 2 ^ bits.toNat, s.mem.first b = .null) ∧
      ∀ ops, LegalRun ⟨[], []⟩ ops →
        ∃ rs w', run (step t) { w with mem := s.mem } ops = some (rs, w') ∧
          rs = (runSpec linkStep ⟨[], []⟩ ops).1 ∧
          Faithful t bits w' (runSpec linkStep ⟨[], []⟩ ops).2 := by
  have hstart : Left (2 ^ bits.toNat) bkt live bkt ((⟨w.mem, live, other⟩ : Entries α ρ), []) :=
    ⟨htab, hlive, .refl _, fun x => by simp⟩
  obtain ⟨⟨s, calls⟩, hloop, hI⟩ := (left_clears hfree hheads bkt live).all (by omega) hstart hf
  have hempty : ((List.range (2 ^ bits.toNat)).flatMap
      fun c => if c < 2 ^ bits.toNat then [] else bkt c) = [] := by
    apply List.flatMap_eq_nil_iff.mpr
    intro c hc
    exact if_pos (List.mem_range.mp hc)
  have hcalls := hI.calls
  rw [hempty, List.append_nil] at hcalls
  refine ⟨s, calls, hloop, hcalls, ?_, hI.live, ?_, ?_⟩
  · exact hcalls.nodup_iff.mpr (htab.nodup_flatMap List.nodup_range)
  · intro b hb
    have hnull := (hI.table.threads b hb).get_eq
    rwa [if_pos hb] at hnull
  · intro ops hl
    have hrep : Rep t bits { w with mem := s.mem } ⟨[], []⟩ := by
      refine ⟨hbits, hheads, ?_, List.nodup_nil, by simp⟩
      refine ⟨fun b hb => ?_, by simp [bucket], by simp [bucket]⟩
      have hthreads := hI.table.threads b hb
      rwa [if_pos hb] at hthreads
    obtain ⟨rs, w', hrun, hans, hr'⟩ := hrep.run_rep hb ops hl
    exact ⟨rs, w', hrun, hans, hr'.faithful hb⟩

def poisonEntry (s : Entries ℕ ℕ) (x : ℕ) : Option (Entries ℕ ℕ) :=
  if s.live x then
    some ⟨(s.mem.set (.next x) (.poison 0)).setPprev x (.poison 1),
      Function.update s.live x false, s.other + 1⟩
  else none

theorem poisonEntry_releasesOnly : ReleasesOnly poisonEntry := by
  constructor
  intro s x hx
  refine ⟨_, if_pos hx, rfl, rfl, fun y hy => ⟨?_, ?_⟩⟩
  · exact Function.update_of_ne hy _ _
  · exact Buckets.pprev_setPprev_of_ne _ hy _

theorem clearTable_frees_three : ∃ h' M' ht,
    htCreate lp64 (Heap.start fun _ _ => true) ⟨fun _ => .null, fun _ => .null, fun _ => .null⟩ 1 =
      some (some ht, h', M') ∧
    ∃ rs w, run (step lp64) ⟨h', ht, M'⟩ [.add 5 7, .add 6 1, .add 4 2] = some (rs, w) ∧
    ∃ s calls, clearTable (w.headOk lp64) poisonEntry 3 1 ⟨w.mem, fun _ => true, 0⟩ =
        some (s, calls) ∧
      calls.Perm [4, 6, 5] ∧ s.live 6 = false ∧
      ∃ rs' w', run (step lp64) { w with mem := s.mem } [.add 6 3] = some (rs', w') ∧
        Faithful lp64 1 w' ⟨[(6, 3)], []⟩ := by
  obtain ⟨h', ht, M', hc⟩ : ∃ h', ∃ ht, ∃ M' : Buckets ℕ ℕ,
      htCreate lp64 (Heap.start fun _ _ => true)
        ⟨fun _ => .null, fun _ => .null, fun _ => .null⟩ 1 = some (some ht, h', M') :=
    ⟨_, _, _, rfl⟩
  obtain ⟨rs, w, hrun, -, hw⟩ := (htCreate_rep (by decide) hc).run_rep (by decide)
    [.add 5 7, .add 6 1, .add 4 2] (by simp [LegalRun, Legal, linkStep, Linkage.nodes])
  obtain ⟨s, calls, hclear, hcalls, -, hlive, -, hnew⟩ :=
    clearTable_frees_all lp64 (by decide) hw.bits_eq hw.heads hw.table
      poisonEntry_releasesOnly (fun _ _ _ _ => rfl) 0 3 (by decide)
  have hperm : calls.Perm [4, 6, 5] := hcalls
  obtain ⟨rs', w', hrun', -, hfaithful⟩ :=
    hnew [.add 6 3] (by simp [LegalRun, Legal, Linkage.nodes])
  refine ⟨h', M', ht, hc, rs, w, hrun, s, calls, hclear, hperm, ?_, rs', w', hrun', hfaithful⟩
  rw [hlive 6]
  simp [hperm.mem_iff]

end KernelHashtable.Hashtable
