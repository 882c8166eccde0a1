import KernelHashtable.KListRuns

/-!
# Traversals of a list

The traversal macros of list.h that start in the middle of a list, go backwards, or let their
body work on the list they walk over. The macros for nodes and those for entries run the same
loops.
-/

namespace KernelHashtable.KList
variable {γ σ : Type} [DecidableEq γ]

section
variable (ok : γ → Bool) (L : Links γ)

/-- `((pos) ? : k_list_entry(head, typeof(*pos), member))` -/
def kListPrepareEntry (pos : Ptr γ) (head : γ) : Ptr γ := if pos = .null then .addr head else pos

def kListForEachEntryContinue (fuel : ℕ) (pos : Ptr γ) (head : γ) : Option (List γ) := do
  let pos ← L.loadNext ok pos
  Links.walk ok L.next head fuel pos

def kListForEachEntryContinueReverse (fuel : ℕ) (pos : Ptr γ) (head : γ) : Option (List γ) := do
  let pos ← L.loadPrev ok pos
  Links.walk ok L.prev head fuel pos

/-- Also `list_for_each_from`. -/
def kListForEachEntryFrom (fuel : ℕ) (pos : Ptr γ) (head : γ) : Option (List γ) :=
  Links.walk ok L.next head fuel pos

end

section
variable (load : σ → Ptr γ → Option (Ptr γ)) (body : σ → γ → Option σ) (head : γ)

def kListForEachEntrySafeContinue (fuel : ℕ) (pos : Ptr γ) (s : σ) : Option σ := do
  let pos ← load s pos
  let n ← load s pos
  kListForEachEntrySafeLoop load body head fuel pos n s

def kListForEachEntrySafeFrom (fuel : ℕ) (pos : Ptr γ) (s : σ) : Option σ := do
  let n ← load s pos
  kListForEachEntrySafeLoop load body head fuel pos n s

/-- The loop of `k_list_for_each` with a body: the successor is read when the body is done. -/
def kListForEachLoop : ℕ → Ptr γ → σ → Option σ
  | 0, _, _ => none
  | fuel + 1, .addr a, s =>
    if a = head then some s else do
      let s ← body s a
      let pos ← load s (.addr a)
      kListForEachLoop fuel pos s
  | _ + 1, _, _ => none

def kListForEachDo (fuel : ℕ) (s : σ) : Option σ := do
  let pos ← load s (.addr head)
  kListForEachLoop load body head fuel pos s

end

section
variable {ok : γ → Bool} {L : Links γ} {s : Circles γ} {h x : γ} {xs us vs : List γ}

theorem walk_arc {fuel : ℕ} (hr : IsRing L h (us ++ x :: vs)) (hok : ∀ z ∈ vs, ok z = true)
    (hf : vs.length < fuel) : Links.walk ok L.next h fuel (L.next x) = some vs := by
  have hcut := (IsRing.arc_cut_iff us (x :: vs) h h).mp hr.chain
  have hnot : h ∉ vs := fun hm => (List.nodup_cons.mp hr.nodup).1 (by simp [hm])
  exact IsRing.walk_chain x vs (hcut.2.2.imp fun _ _ hab => hab.1) hnot hok hf

theorem kListForEachEntry_cursors (hr : IsRing L h (us ++ x :: vs))
    (hok : ∀ z ∈ h :: (us ++ x :: vs), ok z = true) {fuel : ℕ}
    (hf : (us ++ x :: vs).length < fuel) :
    kListForEachEntryFrom ok L fuel (.addr x) h = some (x :: vs) ∧
      kListForEachEntryContinue ok L fuel (.addr x) h = some vs ∧
      kListForEachEntryContinueReverse ok L fuel (.addr x) h = some us.reverse := by
  have hlen : us.length < fuel ∧ vs.length < fuel - 1 := by
    simp at hf
    omega
  obtain ⟨f, rfl⟩ : ∃ f, fuel = f + 1 := ⟨fuel - 1, by omega⟩
  have hokx := hok x (by simp)
  have hokv : ∀ z ∈ vs, ok z = true := fun z hz => hok z (by simp [hz])
  have hxh : x ≠ h := fun e => (List.nodup_cons.mp hr.nodup).1 (by simp [e])
  have hrev : IsRing L.swap h (vs.reverse ++ x :: us.reverse) := by simpa using hr.swap
  refine ⟨?_, ?_, ?_⟩
  · rw [kListForEachEntryFrom, Links.walk, if_neg hxh, if_pos hokx,
      walk_arc hr hokv (by omega), Option.map_some]
  · simp only [kListForEachEntryContinue, Links.loadNext_addr L hokx, Option.bind_eq_bind,
      Option.bind_some]
    exact walk_arc hr hokv (by omega)
  · simp only [kListForEachEntryContinueReverse, Links.loadPrev_addr L hokx,
      Option.bind_eq_bind, Option.bind_some]
    exact walk_arc hrev (fun z hz => hok z (by simp [List.mem_reverse.mp hz]))
      (by simpa using hlen.1)

def twoLists : List (ListOp (Fin 6)) := [.init 0, .init 1, .addTail 2 0, .addTail 3 0, .addTail 4 0]

theorem twoLists_legal : LegalRun (fun _ => true) (fun _ => none) twoLists := by decide

theorem twoLists_run : ∃ answers L, run (listOpStep fun _ => true)
    ⟨fun _ => .null, fun _ => .null⟩ twoLists = some (answers, L) := by
  obtain ⟨L, hr, -⟩ := listOp_run (IsCircles.empty _ ⟨fun _ => .null, fun _ => .null⟩)
    twoLists_legal
  exact ⟨_, L, hr⟩

/-- After any run, a traversal may be taken up again at any member of any list, in either
direction, and one that is taken up at no member starts at the head. -/
theorem listOp_run_cursors (L₀ : Links γ) {os : List (ListOp γ)} {answers : List (ListAnswer γ)}
    (hos : LegalRun ok (fun _ => none) os) (hrun : run (listOpStep ok) L₀ os = some (answers, L))
    (hh : (runSpec listOpSpec (fun _ => none) os).2 h = some (us ++ x :: vs)) {fuel : ℕ}
    (hf : (us ++ x :: vs).length < fuel) :
    kListForEachEntryFrom ok L fuel (.addr x) h = some (x :: vs) ∧
      kListForEachEntryContinue ok L fuel (kListPrepareEntry (.addr x) h) h = some vs ∧
      kListForEachEntryContinueReverse ok L fuel (.addr x) h = some us.reverse ∧
      kListForEachEntryContinue ok L fuel (kListPrepareEntry .null h) h =
        some (us ++ x :: vs) := by
  obtain ⟨L', hr, hs⟩ := listOp_run (IsCircles.empty ok L₀) hos
  obtain ⟨-, rfl⟩ := Prod.mk.inj (Option.some.inj (hr.symm.trans hrun))
  have hring := hs.ring h _ hh
  have hok : ∀ z ∈ h :: (us ++ x :: vs), ok z = true := fun z hz => hs.live z ⟨h, _, hh, hz⟩
  obtain ⟨hfrom, hcont, hrev⟩ := kListForEachEntry_cursors hring hok hf
  refine ⟨hfrom, hcont, hrev, ?_⟩
  simp only [kListForEachEntryContinue, kListPrepareEntry, if_true,
    Links.loadNext_addr L' (hok h (by simp)), Option.bind_eq_bind, Option.bind_some]
  exact hring.walk_next (fun z hz => hok z (List.mem_cons_of_mem h hz)) hf

theorem listOp_run_cursors_twoLists : ∃ answers L, run (listOpStep fun _ => true)
      ⟨fun _ => .null, fun _ => .null⟩ twoLists = some (answers, L) ∧
    kListForEachEntryContinueReverse (fun _ => true) L 4 (.addr 4) 0 = some [3, 2] := by
  obtain ⟨answers, L, hrun⟩ := twoLists_run
  exact ⟨answers, L, hrun, (listOp_run_cursors _ twoLists_legal hrun
    (show _ = some ([2, 3] ++ 4 :: []) by decide) (by decide)).2.2.1⟩

end

section
variable {load : σ → Ptr γ → Option (Ptr γ)} {body : σ → γ → Option σ} {h : γ}

theorem safeLoop_rest (J : σ → List γ → Prop)
    (hload : ∀ s x rest, J s (x :: rest) → load s (.addr x) = some (.addr (rest.headD h)))
    (hpeek : ∀ s rest, J s rest → ∃ v, load s (.addr (rest.headD h)) = some v)
    (hnot : ∀ s rest, J s rest → h ∉ rest)
    (hbody : ∀ s x rest, J s (x :: rest) → ∃ s', body s x = some s' ∧ J s' rest)
    {s : σ} {rest : List γ} (hJ : J s rest) {n : Ptr γ}
    (hn : load s (.addr (rest.headD h)) = some n) {fuel : ℕ} (hf : rest.length < fuel) :
    ∃ s', kListForEachEntrySafeLoop load body h fuel (.addr (rest.headD h)) n s = some s' ∧
      J s' [] := by
  induction rest generalizing s n fuel with
  | nil =>
    obtain ⟨f, rfl⟩ : ∃ f, fuel = f + 1 := ⟨fuel - 1, by simp at hf; omega⟩
    exact ⟨s, by simp [kListForEachEntrySafeLoop], hJ⟩
  | cons x rest ih =>
    obtain ⟨f, rfl⟩ : ∃ f, fuel = f + 1 := ⟨fuel - 1, by simp at hf; omega⟩
    have hxh : x ≠ h := fun e => hnot s _ hJ (by simp [e])
    obtain rfl : .addr (rest.headD h) = n := Option.some.inj ((hload s x rest hJ).symm.trans hn)
    obtain ⟨s₁, hs₁, hJ₁⟩ := hbody s x rest hJ
    obtain ⟨n₁, hn₁⟩ := hpeek s₁ rest hJ₁
    obtain ⟨s₂, hs₂, hJ₂⟩ := ih hJ₁ hn₁ (show rest.length < f by simpa using hf)
    refine ⟨s₂, ?_, hJ₂⟩
    simp only [List.headD_cons, kListForEachEntrySafeLoop, if_neg hxh, hs₁, hn₁,
      Option.bind_eq_bind, Option.bind_some, hs₂]

end

/-- The direction of a traversal: the macros that end in `_reverse` go along `prev`. -/
def along (rev : Bool) (ok : γ → Bool) (L : Links γ) : Ptr γ → Option (Ptr γ) :=
  if rev then L.loadPrev ok else L.loadNext ok

def order (rev : Bool) (xs : List γ) : List γ := if rev then xs.reverse else xs

def listOpsBody (ok : γ → Bool) (ops : γ → List (ListOp γ)) (L : Links γ) (x : γ) :
    Option (Links γ) :=
  (run (listOpStep ok) L (ops x)).map Prod.snd

section
variable {ok : γ → Bool} {L : Links γ} {s : Circles γ} {h x : γ} {xs rest : List γ} {rev : Bool}

omit [DecidableEq γ] in
theorem along_mid (hr : IsRing L h xs) (hx : ok x = true) {done : List γ}
    (hxs : order rev xs = done ++ x :: rest) :
    along rev ok L (.addr x) = some (.addr (rest.headD h)) := by
  cases rev with
  | false =>
    have hr' : IsRing L h (done ++ x :: rest) := hxs ▸ hr
    exact (Links.loadNext_addr L hx).trans (congrArg some hr'.next_mid)
  | true =>
    have hr' : IsRing L.swap h (done ++ x :: rest) := hxs ▸ hr.swap
    exact (Links.loadPrev_addr L hx).trans (congrArg some hr'.next_mid)

omit [DecidableEq γ] in
theorem along_head (hr : IsRing L h xs) (hh : ok h = true) :
    along rev ok L (.addr h) = some (.addr ((order rev xs).headD h)) := by
  cases rev with
  | false => exact (Links.loadNext_addr L hh).trans (congrArg some hr.next_head)
  | true => exact (Links.loadPrev_addr L hh).trans (congrArg some hr.swap.next_head)

omit [DecidableEq γ] in
theorem mem_order : x ∈ order rev xs ↔ x ∈ xs := by
  cases rev <;> simp [order]

theorem safeLoop_runs {ops : γ → List (ListOp γ)} (I : Circles γ → List γ → Prop)
    (hI : ∀ t rest, I t rest → ∃ ys, t h = some ys ∧ rest <:+ order rev ys)
    (hbody : ∀ L t x rest, IsCircles ok L t → I t (x :: rest) →
      LegalRun ok t (ops x) ∧ I (runSpec listOpSpec t (ops x)).2 rest)
    (hs : IsCircles ok L s) (hrest : I s rest) {n : Ptr γ}
    (hn : along rev ok L (.addr (rest.headD h)) = some n) {fuel : ℕ} (hf : rest.length < fuel) :
    ∃ L', kListForEachEntrySafeLoop (along rev ok) (listOpsBody ok ops) h fuel
        (.addr (rest.headD h)) n L = some L' ∧
      (run (listOpStep ok) L (rest.flatMap ops)).map Prod.snd = some L' ∧
      IsCircles ok L' (runSpec listOpSpec s (rest.flatMap ops)).2 ∧
      I (runSpec listOpSpec s (rest.flatMap ops)).2 [] := by
  set F := (run (listOpStep ok) L (rest.flatMap ops)).map Prod.snd with hF
  set T := (runSpec listOpSpec s (rest.flatMap ops)).2 with hT
  have hring : ∀ {L t rest}, IsCircles ok L t → I t rest → ∃ ys, IsRing L h ys ∧
      (∀ z ∈ h :: ys, ok z = true) ∧ rest <:+ order rev ys := by
    intro L t rest ht hIt
    obtain ⟨ys, hy, hsuf⟩ := hI t rest hIt
    exact ⟨ys, ht.ring h ys hy, fun z hz => ht.live z ⟨h, ys, hy, hz⟩, hsuf⟩
  have hloop : ∃ L', kListForEachEntrySafeLoop (along rev ok) (listOpsBody ok ops) h fuel
      (.addr (rest.headD h)) n L = some L' ∧ ∃ t, IsCircles ok L' t ∧ I t [] ∧
        (run (listOpStep ok) L' []).map Prod.snd = F ∧ (runSpec listOpSpec t []).2 = T := by
    refine safeLoop_rest (fun L rest => ∃ t, IsCircles ok L t ∧ I t rest ∧
      (run (listOpStep ok) L (rest.flatMap ops)).map Prod.snd = F ∧
      (runSpec listOpSpec t (rest.flatMap ops)).2 = T) ?_ ?_ ?_ ?_ ⟨s, hs, hrest, rfl, rfl⟩ hn hf
    · rintro L x rest ⟨t, ht, hIt, -⟩
      obtain ⟨ys, hr, hok, done, hdone⟩ := hring ht hIt
      have hx : x ∈ ys := mem_order.mp (show x ∈ order rev ys by rw [← hdone]; simp)
      exact along_mid hr (hok x (List.mem_cons_of_mem h hx)) hdone.symm
    · rintro L rest ⟨t, ht, hIt, -⟩
      obtain ⟨ys, hr, hok, done, hdone⟩ := hring ht hIt
      cases rest with
      | nil => exact ⟨_, along_head hr (hok h (by simp))⟩
      | cons x rest =>
        have hx : x ∈ ys := mem_order.mp (show x ∈ order rev ys by rw [← hdone]; simp)
        exact ⟨_, along_mid hr (hok x (List.mem_cons_of_mem h hx)) hdone.symm⟩
    · rintro L rest ⟨t, ht, hIt, -⟩ hm
      obtain ⟨ys, hr, -, hsuf⟩ := hring ht hIt
      exact (List.nodup_cons.mp hr.nodup).1 (mem_order.mp (hsuf.subset hm))
    · rintro L x rest ⟨t, ht, hIt, hFt, hTt⟩
      obtain ⟨hlegal, hIt'⟩ := hbody L t x rest ht hIt
      obtain ⟨L₁, h₁, ht₁⟩ := listOp_run ht hlegal
      refine ⟨L₁, by rw [listOpsBody, h₁]; rfl, _, ht₁, hIt', ?_, ?_⟩
      · rw [← run_append_state h₁, ← List.flatMap_cons, hFt]
      · rw [← runSpec_append_state, ← List.flatMap_cons, hTt]
  obtain ⟨L', hL', t, ht, hIt, hFt, hTt⟩ := hloop
  obtain rfl : t = T := hTt
  exact ⟨L', hL', hFt.symm, ht, hIt⟩

omit [DecidableEq γ] in
theorem order_order (xs : List γ) : order rev (order rev xs) = xs := by
  cases rev <;> simp [order]

omit [DecidableEq γ] in
theorem order_mid (rev : Bool) (as : List γ) (x : γ) (rest : List γ) :
    ∃ us vs, order rev (as ++ x :: rest) = us ++ x :: vs ∧ order rev (as ++ rest) = us ++ vs := by
  cases rev with
  | false => exact ⟨as, rest, rfl, rfl⟩
  | true => exact ⟨rest.reverse, as.reverse, by simp [order], by simp [order]⟩

def moveTailOps (p : γ → Bool) (dst x : γ) : List (ListOp γ) :=
  if p x then [.moveTail x dst] else []

def partitioned (rev : Bool) (p : γ → Bool) (s : Circles γ) (src dst : γ)
    (ys done rest : List γ) : Circles γ :=
  Function.update (Function.update s src (some (order rev (done.filter (!p ·) ++ rest)))) dst
    (some (ys ++ done.filter p))

theorem partitioned_step {p : γ → Bool} {src dst : γ} {ys done : List γ} (hne : src ≠ dst)
    (ht : IsCircles ok L (partitioned rev p s src dst ys done (x :: rest))) :
    LegalRun ok (partitioned rev p s src dst ys done (x :: rest)) (moveTailOps p dst x) ∧
      (runSpec listOpSpec (partitioned rev p s src dst ys done (x :: rest))
        (moveTailOps p dst x)).2 = partitioned rev p s src dst ys (done ++ [x]) rest := by
  set t := partitioned rev p s src dst ys done (x :: rest) with htdef
  by_cases hp : p x = true
  · obtain ⟨us, vs, hsplit, hout⟩ := order_mid rev (done.filter (!p ·)) x rest
    have hsrc : t src = some (us ++ x :: vs) := by
      rw [htdef, partitioned, Function.update_of_ne hne, Function.update_self, hsplit]
    have hdst : Function.update t src (some (us ++ vs)) dst = some (ys ++ done.filter p ++ []) := by
      rw [Function.update_of_ne hne.symm, htdef, partitioned, Function.update_self,
        List.append_nil]
    have hwithout := ht.without_eq_of_mem hsrc
    have hown : t.Owns x := ⟨src, _, hsrc, by simp⟩
    obtain ⟨L₁, -, ht₁⟩ := listDelEntry_circles ht hown
    rw [hwithout] at ht₁
    have hbefore := ht₁.before_eq hdst [x]
    rw [List.headD_nil] at hbefore
    rw [moveTailOps, if_pos hp]
    refine ⟨⟨⟨hown, hwithout ▸ ⟨dst, _, hdst, by simp⟩⟩, fun _ _ _ => trivial⟩, ?_⟩
    change (t.without x).before dst [x] = _
    rw [hwithout, hbefore, htdef, ← hout]
    funext g
    obtain rfl | hgd := eq_or_ne g dst
    · simp [partitioned, hp]
    · by_cases hgs : g = src <;> simp [partitioned, hgd, hgs, hp, hne]
  · rw [moveTailOps, if_neg hp]
    refine ⟨trivial, ?_⟩
    rw [htdef]
    simp [runSpec, partitioned, hp]

def Partitioning (rev : Bool) (p : γ → Bool) (s : Circles γ) (src dst : γ) (ys l : List γ)
    (t : Circles γ) (rest : List γ) : Prop :=
  ∃ done, l = done ++ rest ∧ t = partitioned rev p s src dst ys done rest

section
variable {p : γ → Bool} {src dst : γ} {ys l : List γ} {t : Circles γ}

theorem Partitioning.rest_suffix (hne : src ≠ dst)
    (ht : Partitioning rev p s src dst ys l t rest) :
    ∃ zs, t src = some zs ∧ rest <:+ order rev zs := by
  obtain ⟨done, -, rfl⟩ := ht
  refine ⟨order rev (done.filter (!p ·) ++ rest), ?_, ?_⟩
  · rw [partitioned, Function.update_of_ne hne, Function.update_self]
  · rw [order_order]
    exact List.suffix_append _ _

theorem Partitioning.step (hne : src ≠ dst) (hc : IsCircles ok L t)
    (ht : Partitioning rev p s src dst ys l t (x :: rest)) :
    LegalRun ok t (moveTailOps p dst x) ∧ Partitioning rev p s src dst ys l
      (runSpec listOpSpec t (moveTailOps p dst x)).2 rest := by
  obtain ⟨done, hl, rfl⟩ := ht
  obtain ⟨hlegal, hnext⟩ := partitioned_step hne hc
  exact ⟨hlegal, done ++ [x], by simpa using hl, hnext⟩

end

theorem kListForEachEntrySafe_circles (rev : Bool) (hs : IsCircles ok L s) (hh : s h = some xs)
    (ops : γ → List (ListOp γ)) (I : Circles γ → List γ → Prop)
    (hI : ∀ t rest, I t rest → ∃ ys, t h = some ys ∧ rest <:+ order rev ys)
    (hbody : ∀ L t x rest, IsCircles ok L t → I t (x :: rest) →
      LegalRun ok t (ops x) ∧ I (runSpec listOpSpec t (ops x)).2 rest)
    (hstart : I s (order rev xs)) {fuel : ℕ} (hf : xs.length < fuel) :
    ∃ L', kListForEachEntrySafe (along rev ok) (listOpsBody ok ops) h fuel L = some L' ∧
      (run (listOpStep ok) L ((order rev xs).flatMap ops)).map Prod.snd = some L' ∧
      IsCircles ok L' (runSpec listOpSpec s ((order rev xs).flatMap ops)).2 ∧
      I (runSpec listOpSpec s ((order rev xs).flatMap ops)).2 [] := by
  have hring := hs.ring h xs hh
  have hlive : ∀ z ∈ h :: xs, ok z = true := fun z hz => hs.live z ⟨h, xs, hh, hz⟩
  have hfirst : along rev ok L (.addr h) = some (.addr ((order rev xs).headD h)) :=
    along_head hring (hlive h (by simp))
  obtain ⟨n, hn⟩ : ∃ n, along rev ok L (.addr ((order rev xs).headD h)) = some n := by
    cases horder : order rev xs with
    | nil => exact ⟨_, along_head hring (hlive h (by simp))⟩
    | cons x rest =>
      have hx : x ∈ xs := mem_order.mp (show x ∈ order rev xs by simp [horder])
      exact ⟨_, along_mid hring (hlive x (List.mem_cons_of_mem h hx))
        (show _ = [] ++ x :: rest from horder)⟩
  have hlen : (order rev xs).length = xs.length := by cases rev <;> simp [order]
  obtain ⟨L₁, hloop, hfold, hs₁, hI₁⟩ := safeLoop_runs I hI hbody hs hstart hn (by rwa [hlen])
  refine ⟨L₁, ?_, hfold, hs₁, hI₁⟩
  simp only [kListForEachEntrySafe, hfirst, hn, Option.bind_eq_bind, Option.bind_some, hloop]

/-- A traversal that is safe against removal does what its body asks for each of the members
that the list had at the start, in their order, one after the other. -/
theorem kListForEachEntrySafe_runs (rev : Bool) (L₀ : Links γ) {os : List (ListOp γ)}
    {answers : List (ListAnswer γ)} (hos : LegalRun ok (fun _ => none) os)
    (hrun : run (listOpStep ok) L₀ os = some (answers, L))
    (hs : (runSpec listOpSpec (fun _ => none) os).2 = s) (hh : s h = some xs)
    (ops : γ → List (ListOp γ)) (I : Circles γ → List γ → Prop)
    (hI : ∀ t rest, I t rest → ∃ ys, t h = some ys ∧ rest <:+ order rev ys)
    (hbody : ∀ L t x rest, IsCircles ok L t → I t (x :: rest) →
      LegalRun ok t (ops x) ∧ I (runSpec listOpSpec t (ops x)).2 rest)
    (hstart : I s (order rev xs)) {fuel : ℕ} (hf : xs.length < fuel) :
    ∃ L', kListForEachEntrySafe (along rev ok) (listOpsBody ok ops) h fuel L = some L' ∧
      (run (listOpStep ok) L ((order rev xs).flatMap ops)).map Prod.snd = some L' ∧
      IsCircles ok L' (runSpec listOpSpec s ((order rev xs).flatMap ops)).2 ∧
      I (runSpec listOpSpec s ((order rev xs).flatMap ops)).2 [] := by
  obtain ⟨L', hr, hcircles⟩ := listOp_run (IsCircles.empty ok L₀) hos
  obtain ⟨-, rfl⟩ := Prod.mk.inj (Option.some.inj (hr.symm.trans hrun))
  rw [hs] at hcircles
  exact kListForEachEntrySafe_circles rev hcircles hh ops I hI hbody hstart hf

theorem kListForEachEntrySafe_runs_twoLists : ∃ answers L L', run (listOpStep fun _ => true)
      ⟨fun _ => .null, fun _ => .null⟩ twoLists = some (answers, L) ∧
    kListForEachEntrySafe (along true fun _ => true)
      (listOpsBody (fun _ => true) (moveTailOps (· != 3) 1)) 0 4 L = some L' ∧
    (run (listOpStep fun _ => true) L [.moveTail 4 1, .moveTail 2 1]).map Prod.snd = some L' := by
  obtain ⟨answers, L, hrun⟩ := twoLists_run
  have hne : (0 : Fin 6) ≠ 1 := by decide
  obtain ⟨L', hloop, hfold, -⟩ := kListForEachEntrySafe_runs true _ twoLists_legal hrun rfl
    (show _ = some [2, 3, 4] by decide) (moveTailOps (· != 3) 1)
    (Partitioning true (· != 3) (runSpec listOpSpec (fun _ => none) twoLists).2 0 1 [] [4, 3, 2])
    (fun _ _ => Partitioning.rest_suffix hne) (fun _ _ _ _ => Partitioning.step hne)
    ⟨[], rfl, by decide⟩ (show 3 < 4 by decide)
  exact ⟨answers, L, L', hrun, hloop, hfold⟩

theorem kListForEachEntrySafe_cursors {ops : γ → List (ListOp γ)} (I : Circles γ → List γ → Prop)
    (hI : ∀ t rest, I t rest → ∃ ys, t h = some ys ∧ rest <:+ order rev ys)
    (hbody : ∀ L t x rest, IsCircles ok L t → I t (x :: rest) →
      LegalRun ok t (ops x) ∧ I (runSpec listOpSpec t (ops x)).2 rest)
    (hs : IsCircles ok L s) (hh : s h = some xs) {done : List γ}
    (hx : order rev xs = done ++ x :: rest) {fuel : ℕ} (hf : xs.length < fuel) :
    (I s (x :: rest) → ∃ L',
      kListForEachEntrySafeFrom (along rev ok) (listOpsBody ok ops) h fuel (.addr x) L = some L' ∧
      (run (listOpStep ok) L ((x :: rest).flatMap ops)).map Prod.snd = some L') ∧
    (I s rest → ∃ L', kListForEachEntrySafeContinue (along rev ok) (listOpsBody ok ops) h fuel
        (.addr x) L = some L' ∧
      (run (listOpStep ok) L (rest.flatMap ops)).map Prod.snd = some L') := by
  have hring := hs.ring h xs hh
  have hlive : ∀ z ∈ h :: xs, ok z = true := fun z hz => hs.live z ⟨h, xs, hh, hz⟩
  have hmem : ∀ z ∈ x :: rest, ok z = true := fun z hz => hlive z (List.mem_cons_of_mem h
    (mem_order.mp (show z ∈ order rev xs by rw [hx]; exact List.mem_append_right done hz)))
  have hlen : done.length + (rest.length + 1) = xs.length := by
    have horder : (order rev xs).length = xs.length := by cases rev <;> simp [order]
    rw [← horder, hx]
    simp
  have hnext := along_mid hring (hmem x (by simp)) hx
  constructor
  · intro hI₀
    obtain ⟨L', hloop, hfold, -⟩ := safeLoop_runs I hI hbody hs hI₀ (n := .addr (rest.headD h))
      hnext (show (x :: rest).length < fuel by simp; omega)
    exact ⟨L', by simpa [kListForEachEntrySafeFrom, hnext] using hloop, hfold⟩
  · intro hI₀
    obtain ⟨n, hn⟩ : ∃ n, along rev ok L (.addr (rest.headD h)) = some n := by
      cases rest with
      | nil => exact ⟨_, along_head hring (hlive h (by simp))⟩
      | cons y rest =>
        exact ⟨_, along_mid hring (hmem y (by simp)) (show _ = (done ++ [x]) ++ y :: rest by
          simpa using hx)⟩
    obtain ⟨L', hloop, hfold, -⟩ := safeLoop_runs I hI hbody hs hI₀ hn
      (show rest.length < fuel by omega)
    refine ⟨L', ?_, hfold⟩
    simp only [kListForEachEntrySafeContinue, hnext, hn, Option.bind_eq_bind, Option.bind_some,
      hloop]

/-- After any run, a safe traversal may be taken up at any member of any list, or right after
it, and does what its body asks for each member from there on. -/
theorem kListForEachEntrySafe_resumed (rev : Bool) (L₀ : Links γ) {os : List (ListOp γ)}
    {answers : List (ListAnswer γ)} (hos : LegalRun ok (fun _ => none) os)
    (hrun : run (listOpStep ok) L₀ os = some (answers, L))
    (hs : (runSpec listOpSpec (fun _ => none) os).2 = s) (hh : s h = some xs)
    {done rest : List γ} {x : γ} (hx : order rev xs = done ++ x :: rest)
    (ops : γ → List (ListOp γ)) (I : Circles γ → List γ → Prop)
    (hI : ∀ t rest, I t rest → ∃ ys, t h = some ys ∧ rest <:+ order rev ys)
    (hbody : ∀ L t x rest, IsCircles ok L t → I t (x :: rest) →
      LegalRun ok t (ops x) ∧ I (runSpec listOpSpec t (ops x)).2 rest)
    {fuel : ℕ} (hf : xs.length < fuel) :
    (I s (x :: rest) → ∃ L',
      kListForEachEntrySafeFrom (along rev ok) (listOpsBody ok ops) h fuel (.addr x) L = some L' ∧
      (run (listOpStep ok) L ((x :: rest).flatMap ops)).map Prod.snd = some L') ∧
    (I s rest → ∃ L', kListForEachEntrySafeContinue (along rev ok) (listOpsBody ok ops) h fuel
        (.addr x) L = some L' ∧
      (run (listOpStep ok) L (rest.flatMap ops)).map Prod.snd = some L') := by
  obtain ⟨L', hr, hcircles⟩ := listOp_run (IsCircles.empty ok L₀) hos
  obtain ⟨-, rfl⟩ := Prod.mk.inj (Option.some.inj (hr.symm.trans hrun))
  rw [hs] at hcircles
  exact kListForEachEntrySafe_cursors I hI hbody hcircles hh hx hf

theorem kListForEachEntrySafe_resumed_twoLists : ∃ answers L L', run (listOpStep fun _ => true)
      ⟨fun _ => .null, fun _ => .null⟩ twoLists = some (answers, L) ∧
    kListForEachEntrySafeFrom (along false fun _ => true)
      (listOpsBody (fun _ => true) (moveTailOps (· != 2) 1)) 0 4 (.addr 2) L = some L' ∧
    kListForEachEntrySafeContinue (along false fun _ => true)
      (listOpsBody (fun _ => true) (moveTailOps (· != 2) 1)) 0 4 (.addr 2) L = some L' ∧
    (run (listOpStep fun _ => true) L [.moveTail 3 1, .moveTail 4 1]).map Prod.snd = some L' := by
  obtain ⟨answers, L, hrun⟩ := twoLists_run
  have hne : (0 : Fin 6) ≠ 1 := by decide
  obtain ⟨hfrom, hcontinue⟩ := kListForEachEntrySafe_resumed false _ twoLists_legal hrun rfl
    (show _ = some [2, 3, 4] by decide) (show order false [2, 3, 4] = [] ++ 2 :: [3, 4] from rfl)
    (moveTailOps (· != 2) 1)
    (Partitioning false (· != 2) (runSpec listOpSpec (fun _ => none) twoLists).2 0 1 [] [2, 3, 4])
    (fun _ _ => Partitioning.rest_suffix hne) (fun _ _ _ _ => Partitioning.step hne)
    (show 3 < 4 by decide)
  obtain ⟨L₁, hloop₁, hfold₁⟩ := hfrom ⟨[], rfl, by decide⟩
  obtain ⟨L₂, hloop₂, hfold₂⟩ := hcontinue ⟨[2], rfl, by decide⟩
  obtain rfl : L₁ = L₂ := Option.some.inj (hfold₁.symm.trans hfold₂)
  exact ⟨answers, L, L₁, hrun, hloop₁, hloop₂, hfold₁⟩

/-- A safe traversal in either direction that moves what satisfies `p` to another list leaves the
rest in its order, hands the others over in the order of the traversal, and touches no further
list. -/
theorem kListForEachEntrySafe_partition (rev : Bool) (L₀ : Links γ) {os : List (ListOp γ)}
    {answers : List (ListAnswer γ)} (hos : LegalRun ok (fun _ => none) os)
    (hrun : run (listOpStep ok) L₀ os = some (answers, L))
    (hs : (runSpec listOpSpec (fun _ => none) os).2 = s) {src dst : γ} {ys : List γ}
    (hsrc : s src = some xs) (hdst : s dst = some ys) (hne : src ≠ dst) (p : γ → Bool)
    {fuel : ℕ} (hf : xs.length + ys.length < fuel) :
    ∃ L', kListForEachEntrySafe (along rev ok) (listOpsBody ok (moveTailOps p dst)) src fuel L =
        some L' ∧
      kListForEach ok L' fuel src = some (xs.filter (!p ·)) ∧
      kListForEach ok L' fuel dst = some (ys ++ (order rev xs).filter p) ∧
      ∀ g zs, s g = some zs → g ≠ src → g ≠ dst → zs.length < fuel →
        kListForEach ok L' fuel g = some zs := by
  have hstart : s = partitioned rev p s src dst ys [] (order rev xs) := by
    have hsrc' : Function.update s src (some xs) = s := by rw [← hsrc, Function.update_eq_self]
    have hdst' : Function.update s dst (some ys) = s := by rw [← hdst, Function.update_eq_self]
    simp [partitioned, order_order, hsrc', hdst']
  obtain ⟨L₁, hr, hcircles₁⟩ := listOp_run (IsCircles.empty ok L₀) hos
  obtain ⟨-, rfl⟩ := Prod.mk.inj (Option.some.inj (hr.symm.trans hrun))
  rw [hs] at hcircles₁
  obtain ⟨L', hloop, -, hcircles, done, hdone, hfinal⟩ := kListForEachEntrySafe_circles rev
    hcircles₁ hsrc (moveTailOps p dst) (Partitioning rev p s src dst ys (order rev xs))
    (fun _ _ => Partitioning.rest_suffix hne) (fun _ _ _ _ => Partitioning.step hne)
    ⟨[], rfl, hstart⟩ (show xs.length < fuel by omega)
  rw [hfinal] at hcircles
  obtain rfl : order rev xs = done := by simpa using hdone
  have hwalk : ∀ g zs, partitioned rev p s src dst ys (order rev xs) [] g = some zs →
      zs.length < fuel → kListForEach ok L' fuel g = some zs := fun g zs hg hlen =>
    (kListForEach_isRing (hcircles.ring g zs hg)
      (fun z hz => hcircles.live z ⟨g, zs, hg, hz⟩) hlen).1
  have hfilter : order rev ((order rev xs).filter (!p ·)) = xs.filter (!p ·) := by
    cases rev <;> simp [order, List.filter_reverse]
  have hlen : ((order rev xs).filter p).length ≤ xs.length := by
    have horder : (order rev xs).length = xs.length := by cases rev <;> simp [order]
    exact horder ▸ List.length_filter_le ..
  refine ⟨L', hloop, hwalk src _ ?_ ?_, hwalk dst _ ?_ ?_, fun g zs hg hgs hgd => hwalk g zs ?_⟩
  · simp [partitioned, hne, hfilter]
  · exact (List.length_filter_le ..).trans_lt (by omega)
  · simp [partitioned]
  · rw [List.length_append]
    omega
  · rw [partitioned, Function.update_of_ne hgd, Function.update_of_ne hgs, hg]

theorem kListForEachEntrySafe_partition_twoLists : ∃ answers L L', run (listOpStep fun _ => true)
      ⟨fun _ => .null, fun _ => .null⟩ twoLists = some (answers, L) ∧
    kListForEachEntrySafe (along true fun _ => true)
      (listOpsBody (fun _ => true) (moveTailOps (· != 3) 1)) 0 4 L = some L' ∧
    kListForEach (fun _ => true) L' 4 1 = some [4, 2] := by
  obtain ⟨answers, L, hrun⟩ := twoLists_run
  obtain ⟨L', hloop, -, hdst, -⟩ := kListForEachEntrySafe_partition true _ twoLists_legal
    hrun rfl (show _ = some [2, 3, 4] by decide) (show _ = some [] by decide)
    (show (0 : Fin 6) ≠ 1 by decide) (· != 3) (show 3 < 4 by decide)
  exact ⟨answers, L, L', hrun, hloop, hdst⟩

def deleteIf (ok : γ → Bool) (p : γ → Bool) (init : Bool) (L : Links γ) (pos : γ) :
    Option (Links γ) :=
  if p pos then if init then kListDelInit ok L (.addr pos) else kListDel ok L (.addr pos)
  else some L

theorem kListForEachLoop_solo {p : γ → Bool} (hp : p x = true) (hok : ok x = true) (hxh : x ≠ h)
    (hL : L.next x = .addr x ∧ L.prev x = .addr x) (fuel : ℕ) :
    kListForEachLoop (Links.loadNext ok) (deleteIf ok p true) h fuel (.addr x) L = none := by
  induction fuel generalizing L with
  | zero => rfl
  | succ fuel ih =>
    have hdel : kListDelInit ok L (.addr x) = some (L.solo x) := by
      simp only [kListDelInit, listDelEntry, listDel, Links.loadPrev_addr L hok,
        Links.loadNext_addr L hok, hL, Links.storePrev_addr _ hok, Links.storeNext_addr _ hok,
        kInitListHead_eq hok, Option.bind_eq_bind, Option.bind_some, Links.solo,
        Function.update_idem]
    have hself : (L.solo x).next x = .addr x ∧ (L.solo x).prev x = .addr x :=
      ⟨Function.update_self .., Function.update_self ..⟩
    simp only [kListForEachLoop, if_neg hxh, deleteIf, hp, if_true, hdel,
      Links.loadNext_addr _ hok, hself.1, Option.bind_eq_bind, Option.bind_some]
    exact ih hself

theorem kListForEachLoop_del {p : γ → Bool} {init : Bool} (hs : IsCircles ok L s)
    (hx : s.Owns x) (hxh : x ≠ h) (hp : p x = true) (fuel : ℕ) :
    kListForEachLoop (Links.loadNext ok) (deleteIf ok p init) h fuel (.addr x) L = none := by
  have hok := hs.live x hx
  cases fuel with
  | zero => rfl
  | succ fuel =>
    cases init with
    | true =>
      obtain ⟨L₁, h₁, hs₁⟩ := kListDelInit_circles hs hx
      have hsolo := IsRing.nil_iff.mp (hs₁.ring x [] (Function.update_self ..))
      simp only [kListForEachLoop, if_neg hxh, deleteIf, hp, if_true, h₁,
        Links.loadNext_addr _ hok, hsolo.1, Option.bind_eq_bind, Option.bind_some]
      exact kListForEachLoop_solo hp hok hxh hsolo fuel
    | false =>
      obtain ⟨L₁, h₁, -, hpoison⟩ := kListDel_circles hs hx
      simp only [kListForEachLoop, if_neg hxh, deleteIf, hp, if_true, Bool.false_eq_true,
        if_false, h₁, Links.loadNext_addr _ hok, hpoison, Option.bind_eq_bind, Option.bind_some]
      cases fuel <;> rfl

theorem kListForEachLoop_skip {p : γ → Bool} {init : Bool} {done : List γ}
    (hs : IsCircles ok L s) (hh : s h = some (done ++ x :: rest)) (hp : p x = false) (fuel : ℕ) :
    kListForEachLoop (Links.loadNext ok) (deleteIf ok p init) h (fuel + 1) (.addr x) L =
      kListForEachLoop (Links.loadNext ok) (deleteIf ok p init) h fuel (.addr (rest.headD h))
        L := by
  have hr := hs.ring h _ hh
  have hxh : x ≠ h := fun e => (List.nodup_cons.mp hr.nodup).1 (by simp [e])
  have hok := hs.live x ⟨h, _, hh, by simp⟩
  simp only [kListForEachLoop, if_neg hxh, deleteIf, hp, Bool.false_eq_true, if_false,
    Links.loadNext_addr _ hok, hr.next_mid, Option.bind_eq_bind, Option.bind_some]

theorem kListForEachLoop_never {p : γ → Bool} {init : Bool} {done : List γ}
    (hs : IsCircles ok L s) (hh : s h = some (done ++ (us ++ x :: rest)))
    (hus : ∀ z ∈ us, p z = false) (hp : p x = true) (fuel : ℕ) :
    kListForEachLoop (Links.loadNext ok) (deleteIf ok p init) h fuel
      (.addr ((us ++ x :: rest).headD h)) L = none := by
  induction us generalizing done fuel with
  | nil =>
    have hxh : x ≠ h := fun e => (List.nodup_cons.mp (hs.ring h _ hh).nodup).1 (by simp [e])
    exact kListForEachLoop_del hs ⟨h, _, hh, by simp⟩ hxh hp fuel
  | cons u us ih =>
    cases fuel with
    | zero => rfl
    | succ fuel =>
      have hh' : s h = some ((done ++ [u]) ++ (us ++ x :: rest)) := by simpa using hh
      exact (kListForEachLoop_skip hs hh (hus u (by simp)) fuel).trans
        (ih hh' (fun z hz => hus z (List.mem_cons_of_mem u hz)) fuel)

theorem kListForEachLoop_all {p : γ → Bool} {init : Bool} {done : List γ}
    (hs : IsCircles ok L s) (hh : s h = some (done ++ rest)) (hrest : ∀ z ∈ rest, p z = false) :
    kListForEachLoop (Links.loadNext ok) (deleteIf ok p init) h (rest.length + 1)
      (.addr (rest.headD h)) L = some L := by
  induction rest generalizing done with
  | nil => simp [kListForEachLoop]
  | cons x rest ih =>
    have hh' : s h = some ((done ++ [x]) ++ rest) := by simpa using hh
    exact (kListForEachLoop_skip hs hh (hrest x (by simp)) _).trans
      (ih hh' fun z hz => hrest z (List.mem_cons_of_mem x hz))

/-- The plain traversal comes to its end if and only if it deletes nothing: a deleted member
has no successor, and one that is deleted and initialised again is its own. -/
theorem kListForEachDo_iff (L₀ : Links γ) {os : List (ListOp γ)}
    {answers : List (ListAnswer γ)} (hos : LegalRun ok (fun _ => none) os)
    (hrun : run (listOpStep ok) L₀ os = some (answers, L))
    (hh : (runSpec listOpSpec (fun _ => none) os).2 h = some xs) (p : γ → Bool) (init : Bool) :
    (∃ fuel L', kListForEachDo (Links.loadNext ok) (deleteIf ok p init) h fuel L = some L') ↔
      ∀ x ∈ xs, p x = false := by
  obtain ⟨L', hr, hs⟩ := listOp_run (IsCircles.empty ok L₀) hos
  obtain ⟨-, rfl⟩ := Prod.mk.inj (Option.some.inj (hr.symm.trans hrun))
  have hcode : ∀ fuel, kListForEachDo (Links.loadNext ok) (deleteIf ok p init) h fuel L' =
      kListForEachLoop (Links.loadNext ok) (deleteIf ok p init) h fuel (.addr (xs.headD h)) L' := by
    intro fuel
    have hok := hs.live h ⟨h, xs, hh, by simp⟩
    simp only [kListForEachDo, Links.loadNext_addr _ hok, (hs.ring h xs hh).next_head,
      Option.bind_eq_bind, Option.bind_some]
  constructor
  · rintro ⟨fuel, L₁, h₁⟩
    by_contra hnot
    have hsome : (xs.find? p).isSome = true := by
      rw [List.find?_isSome]
      simpa using hnot
    obtain ⟨x, hx⟩ := Option.isSome_iff_exists.mp hsome
    obtain ⟨hp, us, rest, rfl, hus⟩ := List.find?_eq_some_iff_append.mp hx
    rw [hcode, kListForEachLoop_never hs (show _ = some ([] ++ (us ++ x :: rest)) from hh)
      (fun z hz => by simpa using hus z hz) hp fuel] at h₁
    cases h₁
  · intro hall
    exact ⟨xs.length + 1, L', (hcode _).trans
      (kListForEachLoop_all hs (show _ = some ([] ++ xs) from hh) hall)⟩

theorem kListForEachDo_iff_twoLists : ∃ answers L, run (listOpStep fun _ => true)
      ⟨fun _ => .null, fun _ => .null⟩ twoLists = some (answers, L) ∧
    ¬ ∃ fuel L', kListForEachDo (Links.loadNext fun _ => true)
      (deleteIf (fun _ => true) (· == 3) true) 0 fuel L = some L' := by
  obtain ⟨answers, L, hrun⟩ := twoLists_run
  refine ⟨answers, L, hrun, fun h => ?_⟩
  have hnone := (kListForEachDo_iff _ twoLists_legal hrun (show _ = some [2, 3, 4] by decide)
    (· == 3) true).mp h
  exact absurd (hnone 3 (by decide)) (by decide)

end
end KernelHashtable.KList
