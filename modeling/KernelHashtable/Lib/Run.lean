import Mathlib.Data.List.Basic
import Mathlib.Tactic.Common

/-!
# Runs of a partial step function

`run` feeds a list of operations to a step function and collects the results; it
is undefined as soon as one step is. The rules lift a fact about one step to every
run: an invariant that carries a ghost state along, and a simulation by a total
abstract step with the same results.
-/

namespace KernelHashtable

section
variable {σ ω ρ : Type*}

def run (step : σ → ω → Option (ρ × σ)) : σ → List ω → Option (List ρ × σ)
  | s, [] => some ([], s)
  | s, o :: os => do
    let (r, s₁) ← step s o
    let (rs, s₂) ← run step s₁ os
    return (r :: rs, s₂)

def AllSteps (step : σ → ω → Option (ρ × σ)) (P : σ → ω → Prop) : σ → List ω → Prop
  | _, [] => True
  | s, o :: os => P s o ∧ ∀ r s', step s o = some (r, s') → AllSteps step P s' os

variable {step : σ → ω → Option (ρ × σ)} {P : σ → ω → Prop} {s s' : σ} {o : ω} {os : List ω}

@[simp] theorem run_nil (s : σ) : run step s [] = some ([], s) := rfl

theorem run_cons {r : ρ} (hs : step s o = some (r, s')) :
    run step s (o :: os) = (run step s' os).map fun p => (r :: p.1, p.2) := by
  simp only [run, hs, Option.bind_eq_bind, Option.bind_some]
  cases run step s' os <;> rfl

theorem run_append_state {rs : List ρ} (hr : run step s os = some (rs, s')) (os' : List ω) :
    (run step s (os ++ os')).map Prod.snd = (run step s' os').map Prod.snd := by
  induction os generalizing s rs with
  | nil =>
    obtain ⟨-, rfl⟩ := Prod.mk.inj (Option.some.inj hr)
    rfl
  | cons o os ih =>
    cases hs : step s o with
    | none => simp [run, hs] at hr
    | some q =>
      obtain ⟨r, s₁⟩ := q
      rw [run_cons hs] at hr
      obtain ⟨⟨rs₁, s₂⟩, hr₁, heq⟩ := Option.map_eq_some_iff.mp hr
      obtain ⟨-, rfl⟩ := Prod.mk.inj heq
      rw [List.cons_append, run_cons hs, Option.map_map, ← ih hr₁]
      rfl

theorem allSteps_cons {r : ρ} (hs : step s o = some (r, s')) :
    AllSteps step P s (o :: os) ↔ P s o ∧ AllSteps step P s' os := by
  refine and_congr_right fun _ => ⟨fun h => h r s' hs, fun h r₁ s₁ hs₁ => ?_⟩
  obtain ⟨-, rfl⟩ := Prod.mk.inj (Option.some.inj (hs.symm.trans hs₁))
  exact h

theorem allSteps_true (hP : ∀ s o, P s o) (s : σ) (os : List ω) : AllSteps step P s os := by
  induction os generalizing s with
  | nil => trivial
  | cons o os ih => exact ⟨hP s o, fun _ s' _ => ih s'⟩

theorem AllSteps.of_append {os' : List ω} (h : AllSteps step P s (os ++ os')) :
    AllSteps step P s os := by
  induction os generalizing s with
  | nil => trivial
  | cons o os ih => exact ⟨h.1, fun r s' hs => ih (h.2 r s' hs)⟩

theorem allSteps_of_mem {Q : ω → Prop} (hQ : ∀ o ∈ os, Q o) (s : σ) :
    AllSteps step (fun _ o => Q o) s os := by
  induction os generalizing s with
  | nil => trivial
  | cons o os ih =>
    exact ⟨hQ o (by simp), fun _ s' _ => ih (fun p hp => hQ p (List.mem_cons_of_mem o hp)) s'⟩

instance decidableAllSteps [∀ s o, Decidable (P s o)] :
    (s : σ) → (os : List ω) → Decidable (AllSteps step P s os)
  | _, [] => isTrue trivial
  | s, o :: os =>
    match h : step s o with
    | none => decidable_of_iff (P s o) ⟨fun hp => ⟨hp, fun _ _ hs => nomatch h.symm.trans hs⟩,
        fun hp => hp.1⟩
    | some (_, s') =>
      have := decidableAllSteps s' os
      decidable_of_iff (P s o ∧ AllSteps step P s' os) (allSteps_cons h).symm

theorem allSteps_of_invariant {I : σ → Prop} {Q : ω → Prop} (hP : ∀ s o, I s → Q o → P s o)
    (hstep : ∀ s o r s', I s → Q o → step s o = some (r, s') → I s') (hI : I s)
    (hQ : ∀ o ∈ os, Q o) : AllSteps step P s os := by
  induction os generalizing s with
  | nil => trivial
  | cons o os ih =>
    have ho := hQ o (by simp)
    exact ⟨hP s o hI ho, fun r s' hs =>
      ih (hstep s o r s' hI ho hs) fun p hp => hQ p (List.mem_cons_of_mem o hp)⟩

/-- The states of a run, the first and the last included, all satisfy `I`, and no
step of the run is undefined. -/
def Always (step : σ → ω → Option (ρ × σ)) (I : σ → Prop) : σ → List ω → Prop
  | s, [] => I s
  | s, o :: os => I s ∧ ∃ r s', step s o = some (r, s') ∧ Always step I s' os

theorem always_cons {I : σ → Prop} {r : ρ} (hs : step s o = some (r, s')) :
    Always step I s (o :: os) ↔ I s ∧ Always step I s' os := by
  refine and_congr_right fun _ => ⟨?_, fun h => ⟨r, s', hs, h⟩⟩
  rintro ⟨r₁, s₁, hs₁, h⟩
  obtain ⟨-, rfl⟩ := Prod.mk.inj (Option.some.inj (hs.symm.trans hs₁))
  exact h

end

section
variable {σ τ ω ρ α γ : Type*}

def runSpec (astep : τ → ω → α × τ) : τ → List ω → List α × τ
  | t, [] => ([], t)
  | t, o :: os =>
    let (r, t₁) := astep t o
    let (rs, t₂) := runSpec astep t₁ os
    (r :: rs, t₂)

theorem runSpec_answers (ans : ω → α) (f : τ → ω → τ) (t : τ) (os : List ω) :
    runSpec (fun t o => (ans o, f t o)) t os = (os.map ans, os.foldl f t) := by
  induction os generalizing t with
  | nil => rfl
  | cons o os ih => simp only [runSpec, ih, List.map_cons, List.foldl_cons]

theorem runSpec_append_state (astep : τ → ω → α × τ) (t : τ) (os os' : List ω) :
    (runSpec astep t (os ++ os')).2 = (runSpec astep (runSpec astep t os).2 os').2 := by
  induction os generalizing t with
  | nil => rfl
  | cons o os ih => exact ih (astep t o).2

theorem runSpec_map {ω' : Type*} (astep : τ → ω → α × τ) (f : ω' → ω) (t : τ) (os : List ω') :
    runSpec astep t (os.map f) = runSpec (fun t o => astep t (f o)) t os := by
  induction os generalizing t with
  | nil => rfl
  | cons o os ih => simp only [List.map_cons, runSpec, ih]

theorem runSpec_simulates {τ' : Type*} (astep : τ → ω → α × τ) (bstep : τ' → ω → α × τ')
    {R : τ → τ' → Prop} (hstep : ∀ t t' o, R t t' →
      (astep t o).1 = (bstep t' o).1 ∧ R (astep t o).2 (bstep t' o).2)
    {t : τ} {t' : τ'} (hR : R t t') (os : List ω) :
    (runSpec astep t os).1 = (runSpec bstep t' os).1 ∧
      R (runSpec astep t os).2 (runSpec bstep t' os).2 := by
  induction os generalizing t t' with
  | nil => exact ⟨rfl, hR⟩
  | cons o os ih =>
    obtain ⟨ha, hR₁⟩ := hstep t t' o hR
    obtain ⟨has, hR₂⟩ := ih hR₁
    refine ⟨?_, hR₂⟩
    simp only [runSpec, ha, has]

variable {step : σ → ω → Option (ρ × σ)} {P : σ → ω → Prop} {s : σ} {os : List ω}

/-- The simulation rule. `R` relates the concrete state, the abstract state, a ghost
state and the operations still to come. When each step is defined, is answered by the
abstract step as far as `obs` can see, and re-establishes `R`, every run does so, with
the ghost state folded over the operations and their results. -/
theorem run_simulates (astep : τ → ω → α × τ) (obs : ρ → α) (ghost : γ → ω → ρ → γ)
    {R : σ → τ → γ → List ω → Prop}
    (hstep : ∀ s t g o os, R s t g (o :: os) → ∃ r s', step s o = some (r, s') ∧
      obs r = (astep t o).1 ∧ R s' (astep t o).2 (ghost g o r) os)
    {t : τ} {g : γ} (hR : R s t g os) :
    ∃ rs s', run step s os = some (rs, s') ∧ rs.map obs = (runSpec astep t os).1 ∧
      rs.length = os.length ∧ R s' (runSpec astep t os).2
        ((os.zip rs).foldl (fun g p => ghost g p.1 p.2) g) [] := by
  induction os generalizing s t g with
  | nil => exact ⟨[], s, rfl, rfl, rfl, hR⟩
  | cons o os ih =>
    obtain ⟨r, s₁, h₁, ho, hR₁⟩ := hstep s t g o os hR
    obtain ⟨rs, s₂, h₂, hos, hlen, hR₂⟩ := ih hR₁
    refine ⟨r :: rs, s₂, ?_, ?_, by simp [hlen], hR₂⟩
    · rw [run_cons h₁, h₂]
      rfl
    · rw [List.map_cons, ho, hos]
      rfl

theorem run_refines (astep : τ → ω → α × τ) (obs : ρ → α) (ghost : γ → ω → ρ → γ)
    {R : σ → τ → γ → Prop}
    (hstep : ∀ s t g o, R s t g → P s o → ∃ r s', step s o = some (r, s') ∧
      obs r = (astep t o).1 ∧ R s' (astep t o).2 (ghost g o r))
    {t : τ} {g : γ} (hR : R s t g) (hP : AllSteps step P s os) :
    ∃ rs s', run step s os = some (rs, s') ∧ rs.map obs = (runSpec astep t os).1 ∧
      rs.length = os.length ∧ R s' (runSpec astep t os).2
        ((os.zip rs).foldl (fun g p => ghost g p.1 p.2) g) := by
  obtain ⟨rs, s', hr, ho, hlen, hR', -⟩ := run_simulates
    (R := fun s t g os => R s t g ∧ AllSteps step P s os) astep obs ghost
    (fun s t g o os h => by
      obtain ⟨r, s', hs, ho, hR'⟩ := hstep s t g o h.1 h.2.1
      exact ⟨r, s', hs, ho, hR', h.2.2 r s' hs⟩) ⟨hR, hP⟩
  exact ⟨rs, s', hr, ho, hlen, hR'⟩

theorem run_isSome_iff {I : σ → Prop}
    (hstep : ∀ s o, I s → P s o → ∃ r s', step s o = some (r, s') ∧ I s')
    (hnone : ∀ s o, I s → ¬ P s o → step s o = none) (hI : I s) (os : List ω) :
    (run step s os).isSome = true ↔ AllSteps step P s os := by
  induction os generalizing s with
  | nil => exact iff_of_true rfl trivial
  | cons o os ih =>
    by_cases hp : P s o
    · obtain ⟨r, s', hs, hI'⟩ := hstep s o hI hp
      rw [run_cons hs, Option.isSome_map, allSteps_cons hs, ih hI']
      exact (and_iff_right hp).symm
    · refine iff_of_false ?_ fun h => hp h.1
      simp [run, hnone s o hI hp]

theorem run_history (ghost : γ → ω → ρ → γ) {R : σ → γ → Prop}
    (hstep : ∀ s g o, R s g → P s o → ∃ r s', step s o = some (r, s') ∧ R s' (ghost g o r))
    {g : γ} (hR : R s g) (hP : AllSteps step P s os) :
    ∃ rs s', run step s os = some (rs, s') ∧ rs.length = os.length ∧
      R s' ((os.zip rs).foldl (fun g p => ghost g p.1 p.2) g) := by
  obtain ⟨rs, s', hr, -, hlen, hR'⟩ := run_refines (R := fun s (_ : Unit) g => R s g)
    (fun _ _ => ((), ())) (fun _ => ()) ghost
    (fun s _ g o h hp => by
      obtain ⟨r, s', hs, hR'⟩ := hstep s g o h hp
      exact ⟨r, s', hs, rfl, hR'⟩) (t := ()) hR hP
  exact ⟨rs, s', hr, hlen, hR'⟩

theorem run_rel_ghost {vstep : τ → ω → Option (α × τ)} (obs : ρ → α) (ghost : γ → ω → ρ → γ)
    {R : σ → τ → γ → Prop} (hstep : ∀ s t g o, R s t g → Option.Rel
      (fun a b => obs a.1 = b.1 ∧ R a.2 b.2 (ghost g o a.1)) (step s o) (vstep t o))
    {t : τ} {g : γ} (hR : R s t g) (os : List ω) : Option.Rel (fun a b => a.1.map obs = b.1 ∧
      R a.2 b.2 ((os.zip a.1).foldl (fun g p => ghost g p.1 p.2) g))
      (run step s os) (run vstep t os) := by
  induction os generalizing s t g with
  | nil => exact .some ⟨rfl, hR⟩
  | cons o os ih =>
    have hone := hstep s t g o hR
    rw [run, run]
    generalize step s o = x at hone ⊢
    generalize vstep t o = y at hone ⊢
    cases hone with
    | none => exact .none
    | @some p q h =>
      have hrest := ih h.2
      change Option.Rel _ ((run step p.2 os).bind _) ((run vstep q.2 os).bind _)
      generalize run step p.2 os = x at hrest ⊢
      generalize run vstep q.2 os = y at hrest ⊢
      cases hrest with
      | none => exact .none
      | some h' => exact .some ⟨congrArg₂ List.cons h.1 h'.1, h'.2⟩

theorem run_rel {vstep : τ → ω → Option (ρ × τ)} {R : σ → τ → Prop}
    (hstep : ∀ s t o, R s t →
      Option.Rel (fun a b => a.1 = b.1 ∧ R a.2 b.2) (step s o) (vstep t o))
    {t : τ} (hR : R s t) (os : List ω) :
    Option.Rel (fun a b => a.1 = b.1 ∧ R a.2 b.2) (run step s os) (run vstep t os) := by
  have hrel := run_rel_ghost (R := fun s t (_ : Unit) => R s t) id (fun _ _ _ => ())
    (fun s t _ o h => hstep s t o h) (g := ()) hR os
  simpa only [List.map_id] using hrel

theorem run_of_some {vstep : τ → ω → Option (ρ × τ)} {R : σ → τ → List ω → Prop}
    (hstep : ∀ s t o os r s', R s t (o :: os) → step s o = some (r, s') →
      ∃ t', vstep t o = some (r, t') ∧ R s' t' os)
    {t : τ} {rs : List ρ} (hR : R s t os) (hrun : run step s os = some (rs, s')) :
    ∃ t', run vstep t os = some (rs, t') ∧ R s' t' [] := by
  induction os generalizing s t rs with
  | nil =>
    obtain ⟨rfl, rfl⟩ := Prod.mk.inj (Option.some.inj hrun)
    exact ⟨t, rfl, hR⟩
  | cons o os ih =>
    obtain ⟨⟨r, s₁⟩, hs, hrest⟩ := Option.bind_eq_some_iff.mp hrun
    obtain ⟨⟨rs₁, s₂⟩, hrun₁, hret⟩ := Option.bind_eq_some_iff.mp hrest
    obtain ⟨rfl, rfl⟩ := Prod.mk.inj (Option.some.inj hret)
    obtain ⟨t₁, hv, hR₁⟩ := hstep s t o os r s₁ hR hs
    obtain ⟨t', hrun', hR'⟩ := ih hR₁ hrun₁
    exact ⟨t', by rw [run_cons hv, hrun']; rfl, hR'⟩

theorem always_of_invariant {I J : σ → Prop} (hIJ : ∀ s, I s → J s)
    (hstep : ∀ s o, I s → P s o → ∃ r s', step s o = some (r, s') ∧ I s')
    (hI : I s) (hP : AllSteps step P s os) : Always step J s os := by
  induction os generalizing s with
  | nil => exact hIJ s hI
  | cons o os ih =>
    obtain ⟨r, s', hs, hI'⟩ := hstep s o hI hP.1
    exact ⟨hIJ s hI, r, s', hs, ih hI' (hP.2 r s' hs)⟩

end

section
variable {σ α : Type}

def foldUntil (body : σ → α → Option (σ × Bool)) : σ → List α → Option (Option α × σ)
  | s, [] => some (none, s)
  | s, x :: xs => do
    let (s, brk) ← body s x
    if brk then return (some x, s) else foldUntil body s xs

theorem foldUntil_append (body : σ → α → Option (σ × Bool)) (s : σ) (xs ys : List α) :
    foldUntil body s (xs ++ ys) = (foldUntil body s xs).bind fun r =>
      if r.1.isSome then some r else foldUntil body r.2 ys := by
  induction xs generalizing s with
  | nil => rfl
  | cons x xs ih =>
    cases hx : body s x with
    | none => simp [foldUntil, hx]
    | some r =>
      obtain ⟨s', brk⟩ := r
      cases brk with
      | true => simp [foldUntil, hx]
      | false => simp [foldUntil, hx, ih]

theorem foldUntil_total {β : Type} (body : σ → β → Option (σ × Bool)) (f : α → β)
    (g : σ → α → σ) (xs : List α)
    (hbody : ∀ x ∈ xs, ∀ s, body s (f x) = some (g s x, false)) (s : σ) :
    foldUntil body s (xs.map f) = some (none, xs.foldl g s) := by
  induction xs generalizing s with
  | nil => rfl
  | cons x xs ih =>
    have hrec := ih (fun y hy => hbody y (List.mem_cons_of_mem x hy))
    simp [foldUntil, hbody x (by simp), hrec]

theorem foldUntil_collect {β γ : Type} {body : List γ → β → Option (List γ × Bool)} (f : α → β)
    (g : α → γ) (xs : List α)
    (hbody : ∀ x ∈ xs, ∀ l, body l (f x) = some (l ++ [g x], false)) :
    foldUntil body [] (xs.map f) = some (none, xs.map g) := by
  have hfold := List.flatMap_eq_foldl (f := fun x => [g x]) (l := xs)
  rw [← List.map_eq_flatMap] at hfold
  rw [foldUntil_total body f (fun l x => l ++ [g x]) xs hbody, hfold]

theorem mapM_map_some {β γ : Type} {f : β → Option γ} {g : α → β} {h : α → γ} {l : List α}
    (hf : ∀ x ∈ l, f (g x) = some (h x)) : (l.map g).mapM f = some (l.map h) := by
  induction l with
  | nil => rfl
  | cons x l ih =>
    have hrest := ih fun y hy => hf y (List.mem_cons_of_mem x hy)
    rw [List.map_cons, List.mapM_cons, hf x (by simp), hrest]
    rfl

def upTo (p : α → Bool) : List α → List α
  | [] => []
  | x :: xs => if p x then [x] else x :: upTo p xs

theorem mem_of_mem_upTo {p : α → Bool} {l : List α} {x : α} (hx : x ∈ upTo p l) : x ∈ l := by
  induction l with
  | nil => exact hx
  | cons y l ih =>
    unfold upTo at hx
    split_ifs at hx
    · exact List.mem_cons.mpr (Or.inl (List.mem_singleton.mp hx))
    · exact List.mem_cons.mpr ((List.mem_cons.mp hx).imp_right ih)

theorem forall_mem_upTo_iff {p : α → Bool} {l : List α} (hl : l.Nodup) :
    (∀ x ∈ l, p x = true → x ∈ upTo p l) ↔ l.countP p ≤ 1 := by
  induction l with
  | nil => simp
  | cons y l ih =>
    obtain ⟨hy, hl'⟩ := List.nodup_cons.mp hl
    cases hp : p y with
    | true =>
      have hzero : (∀ x ∈ l, ¬ p x = true) ↔ l.countP p = 0 := List.countP_eq_zero.symm
      rw [List.countP_cons_of_pos hp, upTo, if_pos hp]
      constructor
      · intro h
        have hnone : ∀ x ∈ l, ¬ p x = true := fun x hx hpx =>
          hy (List.mem_singleton.mp (h x (List.mem_cons_of_mem y hx) hpx) ▸ hx)
        have hcount := hzero.mp hnone
        omega
      · intro h x hx hpx
        rcases List.mem_cons.mp hx with rfl | hx
        · exact List.mem_singleton_self x
        · exact absurd hpx (hzero.mpr (by omega) x hx)
    | false =>
      rw [List.countP_cons_of_neg (by simp [hp]), ← ih hl', upTo, if_neg (by simp [hp])]
      constructor
      · intro h x hx hpx
        refine (List.mem_cons.mp (h x (List.mem_cons_of_mem y hx) hpx)).resolve_left ?_
        rintro rfl
        exact hy hx
      · intro h x hx hpx
        rcases List.mem_cons.mp hx with rfl | hx
        · exact absurd hpx (by simp [hp])
        · exact List.mem_cons_of_mem y (h x hx hpx)

theorem upTo_map {β : Type} (p : β → Bool) (f : α → β) (l : List α) :
    upTo p (l.map f) = (upTo (fun x => p (f x)) l).map f := by
  induction l with
  | nil => rfl
  | cons x l ih =>
    by_cases hp : p (f x) = true
    · simp [upTo, hp]
    · simp [upTo, hp, ih]

theorem foldUntil_search {β : Type} (f : α → β) (p : α → Bool)
    {body : List β → β → Option (List β × Bool)} (xs : List α)
    (hbody : ∀ x ∈ xs, ∀ s, body s (f x) = some (f x :: s, p x)) (s : List β) :
    foldUntil body s (xs.map f) =
      some ((xs.find? p).map f, ((upTo p xs).map f).reverse ++ s) := by
  induction xs generalizing s with
  | nil => rfl
  | cons x xs ih =>
    have hrec := ih (fun y hy => hbody y (List.mem_cons_of_mem x hy))
    cases hp : p x with
    | true => simp [foldUntil, hbody x (by simp), hp, upTo]
    | false => simp [foldUntil, hbody x (by simp), hp, upTo, hrec]

theorem foldUntil_find {body : σ → α → Option (σ × Bool)} {s : σ} (p : α → Bool) {xs : List α}
    (hbody : ∀ x ∈ xs, body s x = some (s, p x)) : foldUntil body s xs = some (xs.find? p, s) := by
  induction xs with
  | nil => rfl
  | cons x xs ih =>
    have hrec := ih fun y hy => hbody y (List.mem_cons_of_mem x hy)
    cases hp : p x with
    | true => simp [foldUntil, hbody x (by simp), hp]
    | false => simp [foldUntil, hbody x (by simp), hp, hrec]

end
end KernelHashtable
