import KernelHashtable.Lib.Ring

/-!
# Loops along one link field

Two loops of C code over a circular list. `traverse` runs a body on the current node and
goes on to its successor, which was read before, until that successor is the sentinel.
`search` goes on to the successor first and stops at a node that a test accepts. A `Walk`
says how the loop comes to its end, with a null link that is followed, any other access
without a meaning, and fuel that runs out kept apart.
-/

namespace KernelHashtable

inductive Walk (ρ : Type*) where
  | ended (r : ρ)
  | nullNext
  | stray
  | endless

def Walk.result {ρ : Type*} : Walk ρ → Option ρ
  | .ended r => some r
  | _ => none

theorem Walk.result_eq_some {ρ : Type*} {w : Walk ρ} {r : ρ} :
    w.result = some r ↔ w = .ended r := by
  cases w with
  | ended r' => simp [Walk.result]
  | nullNext => simp [Walk.result]
  | stray => simp [Walk.result]
  | endless => simp [Walk.result]

namespace Links
variable {α σ : Type*} [DecidableEq α]

/-- `while (curr->next != h) { next = curr->next; body (curr); curr = next; }`. What may be
accessed depends on what the body has done so far. -/
def traverse (ok : σ → α → Bool) (next : α → Ptr α) (h : α) (body : σ → α → Option σ) :
    ℕ → σ → Ptr α → Walk σ
  | 0, _, _ => .endless
  | _ + 1, _, .null => .nullNext
  | _ + 1, _, .poison _ => .stray
  | fuel + 1, s, .addr a =>
    if ok s a then
      if next a = .addr h then .ended s else
        match body s a with
        | none => .stray
        | some s => traverse ok next h body fuel s (next a)
    else .stray

/-- `while (curr->next != h) { curr = curr->next; if (accept (curr)) return curr; }`. -/
def search (ok : α → Bool) (next : α → Ptr α) (h : α) (accept : α → Bool) :
    ℕ → α → Walk (Option α)
  | 0, _ => .endless
  | fuel + 1, a =>
    if ok a then
      match next a with
      | .null => .nullNext
      | .poison _ => .stray
      | .addr b =>
        if b = h then .ended none else
          if ok b then
            if accept b then .ended (some b) else search ok next h accept fuel b
          else .stray
    else .stray

section
variable {ok : σ → α → Bool} {next : α → Ptr α} {h a : α} {body : σ → α → Option σ}

theorem traverse_result_succ (fuel : ℕ) (s : σ) (p : Ptr α) :
    (traverse ok next h body (fuel + 1) s p).result = (p.deref (ok s)).bind fun a =>
      if next a = .addr h then some s else
        (body s a).bind fun s => (traverse ok next h body fuel s (next a)).result := by
  cases p with
  | null => rfl
  | poison n => rfl
  | addr a =>
    cases ha : ok s a with
    | false => simp [traverse, Ptr.deref, ha, Walk.result]
    | true =>
      rw [Ptr.deref_addr ha, Option.bind_some, traverse, if_pos ha]
      by_cases hn : next a = .addr h
      · rw [if_pos hn, if_pos hn]
        rfl
      · rw [if_neg hn, if_neg hn]
        cases body s a with
        | none => rfl
        | some s => rfl

theorem traverse_null (fuel : ℕ) (s r : σ) :
    traverse ok next h body fuel s .null ≠ .ended r := by
  cases fuel with
  | zero => simp [traverse]
  | succ fuel => simp [traverse]

theorem traverse_next_null (hn : next a = .null) (fuel : ℕ) (s r : σ) :
    traverse ok next h body fuel s (.addr a) ≠ .ended r := by
  cases fuel with
  | zero => simp [traverse]
  | succ fuel =>
    rw [traverse, hn]
    split
    · rw [if_neg (by simp)]
      cases body s a with
      | none => simp
      | some s => exact traverse_null fuel s r
    · simp

/-- The loop rule: `I` speaks of the nodes from the current one on. The body runs on all of
them but the last. -/
theorem traverse_chain {I : List α → σ → Prop}
    (hok : ∀ x rest s, I (x :: rest) s → ok s x = true)
    (hbody : ∀ x y rest s, I (x :: y :: rest) s → ∃ s', body s x = some s' ∧ I (y :: rest) s')
    {l : List α} (hc : List.IsChain (fun x y => next x = .addr y) (a :: l ++ [h]))
    (hh : h ∉ l) {s : σ} (hI : I (a :: l) s) {fuel : ℕ} (hf : l.length < fuel) :
    ∃ s', traverse ok next h body fuel s (.addr a) = .ended s' ∧ I [l.getLastD a] s' := by
  induction l generalizing a s fuel with
  | nil =>
    obtain ⟨f, rfl⟩ : ∃ f, fuel = f + 1 := ⟨fuel - 1, by simp at hf; omega⟩
    have hn : next a = .addr h := by simpa using hc
    exact ⟨s, by simp [traverse, hok a [] s hI, hn], hI⟩
  | cons b l ih =>
    obtain ⟨f, rfl⟩ : ∃ f, fuel = f + 1 := ⟨fuel - 1, by simp at hf; omega⟩
    have hlt : l.length < f := by simpa using hf
    simp only [List.cons_append, List.isChain_cons_cons] at hc
    simp only [List.mem_cons, not_or] at hh
    have hbh : b ≠ h := fun e => hh.1 e.symm
    obtain ⟨s₁, hs₁, hI₁⟩ := hbody a b l s hI
    obtain ⟨s', hs', hI'⟩ := ih hc.2 hh.2 hI₁ hlt
    refine ⟨s', ?_, by rwa [List.getLastD_cons]⟩
    simp [traverse, hok a (b :: l) s hI, hc.1, hbh, hs₁, hs']

theorem traverse_map {τ : Type*} {ok' : τ → α → Bool} {body' : τ → α → Option τ} (f : σ → τ)
    (hok : ∀ s x, ok s x = true → ok' (f s) x = true)
    (hbody : ∀ s x s', body s x = some s' → body' (f s) x = some (f s')) {fuel : ℕ} {s r : σ}
    {p : Ptr α} (hw : traverse ok next h body fuel s p = .ended r) :
    traverse ok' next h body' fuel (f s) p = .ended (f r) := by
  induction fuel generalizing s p with
  | zero => simp [traverse] at hw
  | succ fuel ih =>
    cases p with
    | null => simp [traverse] at hw
    | poison n => simp [traverse] at hw
    | addr a =>
      rw [traverse] at hw
      split_ifs at hw with ha hn
      · obtain rfl : s = r := Walk.ended.inj hw
        simp [traverse, hok s a ha, hn]
      · cases hs : body s a with
        | none => simp [hs] at hw
        | some s₁ =>
          simp only [hs] at hw
          have hrec := ih hw
          simp [traverse, hok s a ha, hn, hbody s a s₁ hs, hrec]

theorem traverse_eq_foldlM {ok : α → Bool} (body : σ → α → Option σ) {l : List α}
    (hc : List.IsChain (fun x y => next x = .addr y) (a :: l ++ [h])) (hh : h ∉ l)
    (hok : ∀ x ∈ a :: l, ok x = true) (s : σ) {fuel : ℕ} (hf : l.length < fuel) :
    (traverse (fun _ => ok) next h body fuel s (.addr a)).result =
      (a :: l).dropLast.foldlM body s := by
  induction l generalizing a s fuel with
  | nil =>
    obtain ⟨f, rfl⟩ : ∃ f, fuel = f + 1 := ⟨fuel - 1, by simp at hf; omega⟩
    have hn : next a = .addr h := by simpa using hc
    simp [traverse, hok a (by simp), hn, Walk.result]
  | cons b l ih =>
    obtain ⟨f, rfl⟩ : ∃ f, fuel = f + 1 := ⟨fuel - 1, by simp at hf; omega⟩
    have hlt : l.length < f := by simpa using hf
    simp only [List.cons_append, List.isChain_cons_cons] at hc
    simp only [List.mem_cons, not_or] at hh
    have hbh : b ≠ h := fun e => hh.1 e.symm
    have hrec := fun s => ih hc.2 hh.2 (fun x hx => hok x (List.mem_cons_of_mem a hx)) s hlt
    rw [List.dropLast_cons_of_ne_nil (List.cons_ne_nil b l), List.foldlM_cons]
    cases hs : body s a with
    | none => simp [traverse, hok a (by simp), hc.1, hbh, hs, Walk.result]
    | some s₁ => simp [traverse, hok a (by simp), hc.1, hbh, hs, hrec s₁]

theorem traverse_ring {L : Links α} {xs : List α} {ok : α → Bool} (hr : IsRing L h xs)
    (body : σ → α → Option σ) (hok : ∀ x ∈ h :: xs, ok x = true) (s : σ) {fuel : ℕ}
    (hf : xs.length < fuel) :
    (traverse (fun _ => ok) L.next h body fuel s (L.next h)).result =
      xs.dropLast.foldlM body s := by
  have hnext := hr.chain.imp fun _ _ hab => hab.1
  have hh := (List.nodup_cons.mp hr.nodup).1
  rw [hr.next_head]
  cases xs with
  | nil => exact traverse_eq_foldlM body hnext hh hok s hf
  | cons a l =>
    exact traverse_eq_foldlM body hnext.tail (fun hl => hh (List.mem_cons_of_mem a hl))
      (fun x hx => hok x (List.mem_cons_of_mem h hx)) s (lt_trans (Nat.lt_succ_self _) hf)

end

section
variable {ok : α → Bool} {next : α → Ptr α} {h a : α} {accept : α → Bool}

theorem search_next_null (hn : next a = .null) (fuel : ℕ) (r : Option α) :
    search ok next h accept fuel a ≠ .ended r := by
  cases fuel with
  | zero => simp [search]
  | succ fuel =>
    rw [search, hn]
    split <;> simp

theorem search_chain (accept : α → Bool) {l : List α}
    (hc : List.IsChain (fun x y => next x = .addr y) (a :: l ++ [h])) (hh : h ∉ l)
    (hok : ∀ x ∈ a :: l, ok x = true) {fuel : ℕ} (hf : l.length < fuel) :
    search ok next h accept fuel a = .ended (l.find? accept) := by
  induction l generalizing a fuel with
  | nil =>
    obtain ⟨f, rfl⟩ : ∃ f, fuel = f + 1 := ⟨fuel - 1, by simp at hf; omega⟩
    have hn : next a = .addr h := by simpa using hc
    simp [search, hok a (by simp), hn]
  | cons b l ih =>
    obtain ⟨f, rfl⟩ : ∃ f, fuel = f + 1 := ⟨fuel - 1, by simp at hf; omega⟩
    have hlt : l.length < f := by simpa using hf
    simp only [List.cons_append, List.isChain_cons_cons] at hc
    simp only [List.mem_cons, not_or] at hh
    have hbh : b ≠ h := fun e => hh.1 e.symm
    have hrec := ih hc.2 hh.2 (fun x hx => hok x (List.mem_cons_of_mem a hx)) hlt
    cases hb : accept b with
    | true => simp [search, hok a (by simp), hc.1, hbh, hok b (by simp), hb]
    | false => simp [search, hok a (by simp), hc.1, hbh, hok b (by simp), hb, hrec]

end
end Links
end KernelHashtable
