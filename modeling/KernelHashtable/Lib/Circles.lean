import KernelHashtable.Lib.Exchange

/-!
# Families of circles

The circles of a memory are disjoint, and each goes under the name of one of its nodes. A
family is taken through every change of links by a few rules: a circle is forgotten or gets
another name, a node is closed upon itself, two circles are joined, a circle is cut. Putting
nodes next to a node, taking a node out and putting one in the place of another are stated for
the family as a whole, so that the circle a node is in need not be known.
-/

namespace KernelHashtable

/-- The circles of a memory, each under the name of one of its nodes. -/
abbrev Circles (α : Type*) := α → Option (List α)

def Circles.Owns {α : Type*} (s : Circles α) (x : α) : Prop :=
  ∃ h xs, s h = some xs ∧ x ∈ h :: xs

namespace Circles
variable {α : Type*} [DecidableEq α]

abbrev forget (s : Circles α) (x : α) : Circles α := Function.update s x none

theorem forget_of_ne {s : Circles α} {x g : α} (hg : g ≠ x) : s.forget x g = s g :=
  Function.update_of_ne hg _ _

def without (s : Circles α) (x : α) : Circles α :=
  fun g => if g = x then none else (s g).map (·.erase x)

def behind (s : Circles α) (x : α) (ins : List α) : Circles α := fun g => (s g).map fun xs =>
  if g = x then ins ++ xs else xs.flatMap fun y => if y = x then y :: ins else [y]

def before (s : Circles α) (x : α) (ins : List α) : Circles α := fun g => (s g).map fun xs =>
  if g = x then xs ++ ins else xs.flatMap fun y => if y = x then ins ++ [y] else [y]

def rename (s : Circles α) (x n : α) : Circles α :=
  fun g => if g = x then none else if g = n then s x else (s g).map (·.replace x n)

end Circles

def Circles.Free {α : Type*} (s : Circles α) (x : α) : Prop := ∀ g xs, s g = some xs → x ∉ xs

structure IsCircles {α : Type*} (ok : α → Bool) (L : Links α) (s : Circles α) : Prop where
  live : ∀ x, s.Owns x → ok x = true
  ring : ∀ h xs, s h = some xs → IsRing L h xs
  apart : ∀ h k xs ys x, s h = some xs → s k = some ys → x ∈ h :: xs → x ∈ k :: ys → h = k

namespace IsCircles
variable {α : Type*} {ok : α → Bool} {L L' : Links α} {s s' : Circles α} {h k : α}
  {us vs ys : List α}

theorem change (hs : IsCircles ok L s) (T : α → Prop)
    (hT : ∀ g xs x, s g = some xs → x ∈ g :: xs → T x → g = h ∨ g = k)
    (hlive : ∀ x, T x → ok x = true)
    (hsame : ∀ x, ¬ T x → L'.next x = L.next x ∧ L'.prev x = L.prev x)
    (hrest : ∀ g, g ≠ h → g ≠ k → s' g = s g)
    (hring : ∀ g xs, g = h ∨ g = k → s' g = some xs → IsRing L' g xs ∧ ∀ x ∈ g :: xs, T x)
    (hapart : ∀ xs ys x, s' h = some xs → s' k = some ys → x ∈ h :: xs → x ∈ k :: ys → h = k) :
    IsCircles ok L' s' := by
  have hold : ∀ g xs, ¬ (g = h ∨ g = k) → s' g = some xs → s g = some xs := by
    intro g xs hg hx
    obtain ⟨hgh, hgk⟩ := not_or.mp hg
    rwa [hrest g hgh hgk] at hx
  constructor
  · rintro x ⟨g, xs, hg, hx⟩
    by_cases hname : g = h ∨ g = k
    · exact hlive x ((hring g xs hname hg).2 x hx)
    · exact hs.live x ⟨g, xs, hold g xs hname hg, hx⟩
  · intro g xs hg
    by_cases hname : g = h ∨ g = k
    · exact (hring g xs hname hg).1
    · have hg' := hold g xs hname hg
      exact (hs.ring g xs hg').congr fun x hx =>
        hsame x fun hTx => hname (hT g xs x hg' hx hTx)
  · intro g g' xs xs' x hg hg' hx hx'
    by_cases hname : g = h ∨ g = k <;> by_cases hname' : g' = h ∨ g' = k
    · rcases hname with rfl | rfl <;> rcases hname' with rfl | rfl
      · rfl
      · exact hapart xs xs' x hg hg' hx hx'
      · exact (hapart xs' xs x hg' hg hx' hx).symm
      · rfl
    · have hTx := (hring g xs hname hg).2 x hx
      exact absurd (hT g' xs' x (hold g' xs' hname' hg') hx' hTx) hname'
    · have hTx := (hring g' xs' hname' hg').2 x hx'
      exact absurd (hT g xs x (hold g xs hname hg) hx hTx) hname
    · exact hs.apart g g' xs xs' x (hold g xs hname hg) (hold g' xs' hname' hg') hx hx'

theorem congr (hs : IsCircles ok L s)
    (hl : ∀ x, s.Owns x → L'.next x = L.next x ∧ L'.prev x = L.prev x) : IsCircles ok L' s :=
  ⟨hs.live, fun h xs hh => (hs.ring h xs hh).congr fun x hx => hl x ⟨h, xs, hh, hx⟩, hs.apart⟩

theorem empty (ok : α → Bool) (L : Links α) : IsCircles ok L fun _ => none := by
  constructor
  · rintro x ⟨h, xs, ⟨⟩, -⟩
  · rintro h xs ⟨⟩
  · rintro h k xs ys x ⟨⟩

section
variable [DecidableEq α]

theorem forget (hs : IsCircles ok L s) (h : α) : IsCircles ok L (s.forget h) := by
  have hold : ∀ g xs, Function.update s h none g = some xs → s g = some xs := by
    intro g xs hg
    by_cases hgh : g = h
    · rw [hgh, Function.update_self] at hg
      cases hg
    · rwa [Function.update_of_ne hgh] at hg
  exact ⟨fun x ⟨g, xs, hg, hx⟩ => hs.live x ⟨g, xs, hold g xs hg, hx⟩,
    fun g xs hg => hs.ring g xs (hold g xs hg),
    fun g g' xs xs' x hg hg' => hs.apart g g' xs xs' x (hold g xs hg) (hold g' xs' hg')⟩

theorem not_owns_forget {x : α} (hs : IsCircles ok L s) (hk : s k = some ys) (hx : x ∈ k :: ys) :
    ¬ (s.forget k).Owns x := by
  rintro ⟨g, zs, hg, hgx⟩
  obtain rfl | hgk := eq_or_ne g k
  · simp at hg
  · rw [Circles.forget_of_ne hgk] at hg
    exact hgk (hs.apart g k zs ys x hg hk hgx hx)

theorem not_owns_of_free (hk : s.Free k) : ¬ (s.forget k).Owns k := by
  rintro ⟨g, zs, hg, hm⟩
  obtain rfl | hgk := eq_or_ne g k
  · simp at hg
  · rw [Circles.forget_of_ne hgk] at hg
    exact hk g zs hg (List.mem_of_ne_of_mem hgk.symm hm)

theorem solo (hs : IsCircles ok L s) (hok : ok h = true) (hh : ¬ s.Owns h) :
    IsCircles ok (L.solo h) (Function.update s h (some [])) := by
  refine hs.change (h := h) (k := h) (· = h) (fun g xs x hg hx hxh => ?_)
    (fun x hx => hx ▸ hok) (fun x hx => ?_) (fun g hg _ => Function.update_of_ne hg _ _)
    (fun g xs hname hg => ?_) fun _ _ _ _ _ _ _ => rfl
  · exact absurd ⟨g, xs, hg, hxh ▸ hx⟩ hh
  · exact ⟨Function.update_of_ne hx _ _, Function.update_of_ne hx _ _⟩
  · obtain rfl : g = h := hname.elim id id
    obtain rfl : [] = xs := by simpa using hg
    exact ⟨IsRing.nil_iff.mpr ⟨Function.update_self .., Function.update_self ..⟩, by simp⟩

theorem exchange_same {T : α → Prop} {a b c d : α} (ha : T a) (hb : T b) (hc : T c) (hd : T d) :
    ∀ x, ¬ T x → (L.exchange a b c d).next x = L.next x ∧ (L.exchange a b c d).prev x = L.prev x :=
  fun _ hx => ⟨Links.exchange_next (fun e => hx (e ▸ ha)) (fun e => hx (e ▸ hc)),
    Links.exchange_prev (fun e => hx (e ▸ hb)) (fun e => hx (e ▸ hd))⟩

theorem join (hs : IsCircles ok L s) (hh : s h = some (us ++ vs)) (hk : s k = some ys)
    (hne : h ≠ k) : IsCircles ok (L.exchange (us.getLastD h) (vs.headD h) (ys.getLastD k) k)
      (Function.update (Function.update s k none) h (some (us ++ k :: (ys ++ vs)))) := by
  have hdisj : List.Disjoint (h :: (us ++ vs)) (k :: ys) :=
    fun x hx hx' => hne (hs.apart h k _ _ x hh hk hx hx')
  refine hs.change (h := h) (k := k) (fun x => x ∈ h :: (us ++ vs) ∨ x ∈ k :: ys)
    (fun g xs x hg hx hTx => ?_) (fun x hTx => ?_) (exchange_same ?_ ?_ ?_ ?_)
    (fun g hgh hgk => ?_) (fun g xs hname hg => ?_) fun xs zs x _ hk' => ?_
  · exact hTx.imp (hs.apart g h xs _ x hg hh hx) (hs.apart g k xs _ x hg hk hx)
  · exact hs.live x (hTx.elim (fun hx => ⟨h, _, hh, hx⟩) fun hx => ⟨k, _, hk, hx⟩)
  · exact Or.inl (IsRing.mem_left us vs h)
  · exact Or.inl (IsRing.mem_right us vs h)
  · exact Or.inr List.getLastD_mem_cons
  · exact Or.inr List.mem_cons_self
  · rw [Function.update_of_ne hgh, Function.update_of_ne hgk]
  · obtain rfl | hgh := eq_or_ne g h
    · obtain rfl : us ++ k :: (ys ++ vs) = xs := by simpa using hg
      refine ⟨(hs.ring g _ hh).join (hs.ring k _ hk) hdisj, fun x hx => ?_⟩
      simp only [List.mem_cons, List.mem_append] at hx ⊢
      tauto
    · obtain rfl : g = k := hname.resolve_left hgh
      simp [hgh] at hg
  · simp [hne.symm] at hk'

theorem cut (hs : IsCircles ok L s) (hh : s h = some (us ++ k :: (ys ++ vs))) :
    IsCircles ok (L.exchange (us.getLastD h) k (ys.getLastD k) (vs.headD h))
      (Function.update (Function.update s h (some (us ++ vs))) k (some ys)) := by
  have hr := hs.ring h _ hh
  have hnd : (h :: us ++ (k :: ys ++ vs)).Nodup := by simpa using hr.nodup
  have hne : h ≠ k := (List.nodup_append.mp hnd).2.2 h (by simp) k (by simp)
  have hmem : ∀ x, x ∈ h :: (us ++ vs) ∨ x ∈ k :: ys → x ∈ h :: (us ++ k :: (ys ++ vs)) := by
    intro x hx
    simp only [List.mem_cons, List.mem_append] at hx ⊢
    tauto
  refine hs.change (h := h) (k := k) (fun x => x ∈ h :: (us ++ k :: (ys ++ vs)))
    (fun g xs x hg hx hTx => ?_) (fun x hTx => hs.live x ⟨h, _, hh, hTx⟩)
    (exchange_same ?_ ?_ ?_ ?_) (fun g hgh hgk => ?_) (fun g xs hname hg => ?_)
    fun xs zs x hh' hk' hx hx' => ?_
  · exact Or.inl (hs.apart g h xs _ x hg hh hx hTx)
  · exact hmem _ (Or.inl (IsRing.mem_left us vs h))
  · exact hmem _ (Or.inr List.mem_cons_self)
  · exact hmem _ (Or.inr List.getLastD_mem_cons)
  · exact hmem _ (Or.inl (IsRing.mem_right us vs h))
  · rw [Function.update_of_ne hgk, Function.update_of_ne hgh]
  · obtain rfl | hgk := eq_or_ne g k
    · obtain rfl : ys = xs := by simpa using hg
      exact ⟨hr.cut.2, fun x hx => hmem x (Or.inr hx)⟩
    · obtain rfl : g = h := hname.resolve_right hgk
      obtain rfl : us ++ vs = xs := by simpa [hgk] using hg
      exact ⟨hr.cut.1, fun x hx => hmem x (Or.inl hx)⟩
  · obtain rfl : us ++ vs = xs := by simpa [hne] using hh'
    obtain rfl : ys = zs := by simpa using hk'
    have hperm : (h :: us ++ (k :: ys ++ vs)).Perm (h :: (us ++ vs) ++ (k :: ys)) := by
      have hmid : (us ++ (k :: ys ++ vs)).Perm (us ++ (vs ++ k :: ys)) :=
        List.perm_append_comm.append_left us
      simpa using hmid
    exact absurd rfl ((List.nodup_append.mp (hperm.nodup_iff.mp hnd)).2.2 x hx x hx')

theorem turn (hs : IsCircles ok L s) (hh : s h = some (us ++ k :: vs)) :
    IsCircles ok L (Function.update (Function.update s h none) k (some (vs ++ h :: us))) := by
  have hr := hs.ring h _ hh
  have hne : h ≠ k := fun e => (List.nodup_cons.mp hr.nodup).1 (by simp [e])
  refine hs.change (h := h) (k := k) (fun x => x ∈ h :: (us ++ k :: vs))
    (fun g xs x hg hx hTx => ?_) (fun x hTx => hs.live x ⟨h, _, hh, hTx⟩)
    (fun _ _ => ⟨rfl, rfl⟩) (fun g hgh hgk => ?_) (fun g xs hname hg => ?_) fun xs zs x hh' => ?_
  · exact Or.inl (hs.apart g h xs _ x hg hh hx hTx)
  · rw [Function.update_of_ne hgk, Function.update_of_ne hgh]
  · obtain rfl | hgk := eq_or_ne g k
    · obtain rfl : vs ++ h :: us = xs := by simpa using hg
      refine ⟨hr.turn, fun x hx => ?_⟩
      simp only [List.mem_cons, List.mem_append] at hx ⊢
      tauto
    · obtain rfl : g = h := hname.resolve_right hgk
      simp [hgk] at hg
  · simp [hne] at hh'

omit [DecidableEq α] in
theorem exists_left {x : α} {xs : List α} (hx : x ∈ h :: xs) :
    ∃ us vs, xs = us ++ vs ∧ us.getLastD h = x := by
  rcases List.mem_cons.mp hx with rfl | hm
  · exact ⟨[], xs, rfl, rfl⟩
  · obtain ⟨us, vs, rfl⟩ := List.append_of_mem hm
    exact ⟨us ++ [x], vs, by simp, by simp⟩

omit [DecidableEq α] in
theorem exists_right {x : α} {xs : List α} (hx : x ∈ h :: xs) :
    ∃ us vs, xs = us ++ vs ∧ vs.headD h = x := by
  rcases List.mem_cons.mp hx with rfl | hm
  · exact ⟨xs, [], by simp, rfl⟩
  · obtain ⟨us, vs, rfl⟩ := List.append_of_mem hm
    exact ⟨us, x :: vs, rfl, rfl⟩

omit [DecidableEq α] in
theorem ext_at {x : α} {ws : List α} (hs : IsCircles ok L s) (hh : s h = some ws)
    (hx : x ∈ h :: ws) {f : Circles α} (hf : f h = s' h)
    (hrest : ∀ g zs, g ≠ h → s g = some zs → x ∉ g :: zs → f g = some zs)
    (hnone : ∀ g, g ≠ h → s g = none → f g = none) (hs' : ∀ g, g ≠ h → s' g = s g) : f = s' := by
  funext g
  obtain rfl | hgh := eq_or_ne g h
  · exact hf
  · rw [hs' g hgh]
    cases hg : s g with
    | none => exact hnone g hgh hg
    | some zs => exact hrest g zs hgh hg fun hxg => hgh (hs.apart g h zs ws x hg hh hxg hx)

theorem flatMap_of_notMem {x : α} {f : α → List α} {l : List α} (hx : x ∉ l) :
    (l.flatMap fun y => if y = x then f y else [y]) = l := by
  induction l with
  | nil => rfl
  | cons y l ih =>
    obtain ⟨hy, hl⟩ := not_or.mp (List.mem_cons.not.mp hx)
    rw [List.flatMap_cons, if_neg fun e => hy e.symm, ih hl, List.singleton_append]

theorem behind_eq (hs : IsCircles ok L s) (hh : s h = some (us ++ vs)) (ins : List α) :
    s.behind (us.getLastD h) ins = Function.update s h (some (us ++ (ins ++ vs))) := by
  refine hs.ext_at hh (IsRing.mem_left us vs h) ?_ (fun g zs _ hg hx => ?_) (fun g _ hg => ?_)
    fun g hg => Function.update_of_ne hg _ _
  · have hnd := (hs.ring h _ hh).nodup
    simp only [Circles.behind, hh, Option.map_some, Function.update_self, Option.some.injEq]
    rcases List.eq_nil_or_concat' us with rfl | ⟨us', x, rfl⟩
    · simp
    · have hnd' : (h :: us' ++ x :: vs).Nodup := by simpa using hnd
      obtain ⟨-, hndx, hux⟩ := List.nodup_append.mp hnd'
      have hxv : x ∉ vs := (List.nodup_cons.mp hndx).1
      have hxu : x ∉ us' := fun hm => hux x (List.mem_cons_of_mem h hm) x (by simp) rfl
      have hhx : h ≠ x := hux h (by simp) x (by simp)
      simp [hhx, flatMap_of_notMem hxv, flatMap_of_notMem hxu]
  · obtain ⟨hgx, hzx⟩ := not_or.mp (List.mem_cons.not.mp hx)
    simp only [Circles.behind, hg, Option.map_some, if_neg fun e => hgx (Eq.symm e),
      flatMap_of_notMem hzx]
  · simp only [Circles.behind, hg, Option.map_none]

theorem before_eq (hs : IsCircles ok L s) (hh : s h = some (us ++ vs)) (ins : List α) :
    s.before (vs.headD h) ins = Function.update s h (some (us ++ (ins ++ vs))) := by
  refine hs.ext_at hh (IsRing.mem_right us vs h) ?_ (fun g zs _ hg hx => ?_) (fun g _ hg => ?_)
    fun g hg => Function.update_of_ne hg _ _
  · have hnd := (hs.ring h _ hh).nodup
    simp only [Circles.before, hh, Option.map_some, Function.update_self, Option.some.injEq]
    cases vs with
    | nil => simp
    | cons x vs =>
      obtain ⟨-, hndx, hux⟩ := List.nodup_append.mp (show (h :: us ++ x :: vs).Nodup from hnd)
      have hxv : x ∉ vs := (List.nodup_cons.mp hndx).1
      have hxu : x ∉ us := fun hm => hux x (List.mem_cons_of_mem h hm) x (by simp) rfl
      have hhx : h ≠ x := hux h (by simp) x (by simp)
      simp [hhx, flatMap_of_notMem hxv, flatMap_of_notMem hxu]
  · obtain ⟨hgx, hzx⟩ := not_or.mp (List.mem_cons.not.mp hx)
    simp only [Circles.before, hg, Option.map_some, if_neg fun e => hgx (Eq.symm e),
      flatMap_of_notMem hzx]
  · simp only [Circles.before, hg, Option.map_none]

omit [DecidableEq α] in
theorem name_of_not_owns (hn : ¬ s.Owns h) : s h = none := by
  by_contra hne
  obtain ⟨xs, hx⟩ := Option.ne_none_iff_exists'.mp hne
  exact hn ⟨h, xs, hx, by simp⟩

theorem insert (hs : IsCircles ok L s) (hh : s h = some (us ++ vs)) (hok : ok k = true)
    (hk : ¬ s.Owns k) :
    IsCircles ok ((L.solo k).exchange (us.getLastD h) (vs.headD h) k k)
      (Function.update s h (some (us ++ k :: vs))) := by
  have hne : h ≠ k := fun e => hk ⟨h, _, hh, by simp [e]⟩
  have hsolo := hs.solo hok hk
  have hjoin := hsolo.join (h := h)
    (show _ = some (us ++ vs) by rwa [Function.update_of_ne hne])
    (show _ = some [] from Function.update_self k _ s) hne
  rw [Function.update_idem, ← name_of_not_owns hk, Function.update_eq_self] at hjoin
  exact hjoin

theorem splice {y : α} (hs : IsCircles ok L s) (hh : s h = some (us ++ vs))
    (hk : s k = some (y :: ys)) (hne : h ≠ k) :
    IsCircles ok ((L.exchange (us.getLastD h) (vs.headD h) (ys.getLastD y) k).exchange
        (us.getLastD h) k k y)
      (Function.update (Function.update s k none) h (some (us ++ (y :: ys ++ vs)))) ∧
      ¬ Circles.Owns (Function.update (Function.update s k none) h
        (some (us ++ (y :: ys ++ vs)))) k := by
  have hjoin := hs.join hh hk hne
  have hcut := hjoin.cut (h := h)
    (show _ = some (us ++ k :: ([] ++ (y :: ys ++ vs))) from Function.update_self ..)
  have hnot := hcut.not_owns_forget (x := k) (Function.update_self ..) (by simp)
  have hforget := hcut.forget k
  rw [Circles.forget, Function.update_idem, Function.update_idem, Function.update_comm hne,
    Function.update_idem] at hforget hnot
  rw [List.getLastD_cons] at hforget
  exact ⟨hforget, hnot⟩

theorem without_eq_of_name (hs : IsCircles ok L s) {xs : List α} (hh : s h = some xs) :
    s.without h = s.forget h := by
  refine hs.ext_at hh (x := h) (by simp) (by simp [Circles.without])
    (fun g zs hgh hg hx => ?_) (fun g hgh hg => ?_) fun g hg => Function.update_of_ne hg _ _
  · have hz : h ∉ zs := fun hm => hx (List.mem_cons_of_mem g hm)
    simp [Circles.without, hgh, hg, List.erase_of_not_mem hz]
  · simp [Circles.without, hgh, hg]

omit [DecidableEq α] in
theorem name_eq_none (hs : IsCircles ok L s) (hh : s h = some (us ++ k :: vs)) : s k = none := by
  by_contra hne
  obtain ⟨zs, hz⟩ := Option.ne_none_iff_exists'.mp hne
  have hkh := hs.apart k h zs _ k hz hh (by simp) (by simp)
  exact (List.nodup_cons.mp (hs.ring h _ hh).nodup).1 (by simp [hkh])

theorem without_eq_of_mem (hs : IsCircles ok L s) (hh : s h = some (us ++ k :: vs)) :
    s.without k = Function.update s h (some (us ++ vs)) := by
  obtain ⟨-, -, huk⟩ := List.nodup_append.mp
    (show (h :: us ++ k :: vs).Nodup from (hs.ring h _ hh).nodup)
  have hhk : h ≠ k := huk h (by simp) k (by simp)
  refine hs.ext_at hh (x := k) (by simp) ?_ (fun g zs _ hg hx => ?_) (fun g _ hg => ?_)
    fun g hg => Function.update_of_ne hg _ _
  · have hku : k ∉ us := fun hm => huk k (List.mem_cons_of_mem h hm) k (by simp) rfl
    simp [Circles.without, hhk, hh, List.erase_append_right _ hku]
  · obtain ⟨hgk, hzk⟩ := not_or.mp (List.mem_cons.not.mp hx)
    simp [Circles.without, Ne.symm hgk, hg, List.erase_of_not_mem hzk]
  · by_cases hgk : g = k
    · simp [Circles.without, hgk]
    · simp [Circles.without, hgk, hg]

theorem takeOut {x : α} (hs : IsCircles ok L s) (hx : s.Owns x) :
    ∃ p q, L.prev x = .addr p ∧ L.next x = .addr q ∧ s.Owns p ∧ s.Owns q ∧
      IsCircles ok (L.exchange p x x q) (s.without x) := by
  obtain ⟨h, xs, hh, hm⟩ := hx
  have hr := hs.ring h xs hh
  rcases List.mem_cons.mp hm with rfl | hm
  · refine ⟨xs.getLastD x, xs.headD x, hr.prev_head, hr.next_head,
      ⟨x, xs, hh, List.getLastD_mem_cons⟩, ⟨x, xs, hh, IsRing.headD_mem x xs⟩, ?_⟩
    rw [hs.without_eq_of_name hh]
    cases xs with
    | nil =>
      refine (hs.forget x).congr fun z hz => ?_
      have hzx : z ≠ x := fun e => hs.not_owns_forget hh (by simp) (e ▸ hz)
      exact ⟨Links.exchange_next hzx hzx, Links.exchange_prev hzx hzx⟩
    | cons y ys =>
      have hsy : s y = none := hs.name_eq_none (show s x = some ([] ++ y :: ys) from hh)
      have hyx : y ≠ x := fun e => (List.nodup_cons.mp hr.nodup).1 (by simp [e])
      have hturn := hs.turn (show s x = some ([] ++ y :: ys) from hh)
      have hcut := ((hturn.cut (h := y)
        (show _ = some (ys ++ x :: ([] ++ [])) from Function.update_self ..)).forget x).forget y
      have hstate : s.forget x = Function.update (Function.update
          (Function.update (Function.update (Function.update (Function.update s x none) y
            (some (ys ++ [x]))) y (some (ys ++ []))) x (some [])) x none) y none := by
        funext g
        by_cases hgy : g = y <;> by_cases hgx : g = x <;> simp_all [Circles.forget]
      rw [hstate]
      rw [List.getLastD_cons]
      exact hcut
  · obtain ⟨us, vs, rfl⟩ := List.append_of_mem hm
    refine ⟨us.getLastD h, vs.headD h, hr.prev_mid, hr.next_mid,
      ⟨h, _, hh, IsRing.mem_left us _ h⟩, ⟨h, _, hh, ?_⟩, ?_⟩
    · have hmem := IsRing.mem_right (us ++ [x]) vs h
      simpa using hmem
    · have hhx : h ≠ x := fun e => (List.nodup_cons.mp hr.nodup).1 (by simp [e])
      have hcut := (hs.cut (show s h = some (us ++ x :: ([] ++ vs)) from hh)).forget x
      have hsx : Function.update s h (some (us ++ vs)) x = none := by
        rw [Function.update_of_ne hhx.symm, hs.name_eq_none hh]
      rw [Circles.forget, Function.update_idem, ← hsx, Function.update_eq_self] at hcut
      rw [hs.without_eq_of_mem hh]
      exact hcut

theorem not_owns_without {x : α} (hs : IsCircles ok L s) : ¬ (s.without x).Owns x := by
  rintro ⟨g, zs, hg, hx⟩
  obtain rfl | hgx := eq_or_ne g x
  · simp [Circles.without] at hg
  · simp only [Circles.without, if_neg hgx, Option.map_eq_some_iff] at hg
    obtain ⟨ws, hw, rfl⟩ := hg
    have hnd := (List.nodup_cons.mp (hs.ring g ws hw).nodup).2
    exact hnd.not_mem_erase (List.mem_of_ne_of_mem hgx.symm hx)

theorem rename_eq_of_name {n : α} {xs : List α} (hs : IsCircles ok L s) (hh : s h = some xs)
    (hn : s n = none) :
    s.rename h n = Function.update (Function.update s h none) n (some xs) := by
  have hnh : n ≠ h := fun e => by simp [e, hh] at hn
  funext g
  obtain rfl | hgn := eq_or_ne g n
  · simp [Circles.rename, hnh, hh]
  · obtain rfl | hgh := eq_or_ne g h
    · simp [Circles.rename, hgn]
    · rw [Function.update_of_ne hgn, Function.update_of_ne hgh]
      cases hg : s g with
      | none => simp [Circles.rename, hgh, hgn, hg]
      | some zs =>
        have hhz : h ∉ zs := fun hm => hgh
          (hs.apart g h zs xs h hg hh (List.mem_cons_of_mem g hm) (by simp))
        simp [Circles.rename, hgh, hgn, hg, List.replace_of_not_mem hhz]

theorem rename_eq_of_mem {n : α} (hs : IsCircles ok L s) (hh : s h = some (us ++ k :: vs))
    (hn : s n = none) : s.rename k n = Function.update s h (some (us ++ n :: vs)) := by
  obtain ⟨-, -, huk⟩ := List.nodup_append.mp
    (show (h :: us ++ k :: vs).Nodup from (hs.ring h _ hh).nodup)
  have hhk : h ≠ k := huk h (by simp) k (by simp)
  have hhn : h ≠ n := fun e => by simp [← e, hh] at hn
  have hk : s k = none := hs.name_eq_none hh
  refine hs.ext_at hh (x := k) (by simp) ?_ (fun g zs _ hg hx => ?_) (fun g _ hg => ?_)
    fun g hg => Function.update_of_ne hg _ _
  · have hku : k ∉ us := fun hm => huk k (List.mem_cons_of_mem h hm) k (by simp) rfl
    simp [Circles.rename, hhk, hhn, hh, List.replace_append_right hku]
  · obtain ⟨hgk, hzk⟩ := not_or.mp (List.mem_cons.not.mp hx)
    have hgn : g ≠ n := fun e => by simp [e, hn] at hg
    simp [Circles.rename, Ne.symm hgk, hgn, hg, List.replace_of_not_mem hzk]
  · by_cases hgk : g = k
    · simp [Circles.rename, hgk]
    · by_cases hgn : g = n <;> simp [Circles.rename, hgk, hgn, hg, hk]

theorem not_owns_rename {x n : α} (hs : IsCircles ok L s) (hx : s.Owns x) (hn : ¬ s.Owns n) :
    ¬ (s.rename x n).Owns x := by
  obtain ⟨h, xs, hh, hm⟩ := hx
  have hsn : s n = none := name_of_not_owns hn
  have hxn : x ≠ n := fun e => hn ⟨h, xs, hh, e ▸ hm⟩
  have hnd := (hs.ring h xs hh).nodup
  rintro ⟨g, zs, hg, hgx⟩
  rcases List.mem_cons.mp hm with rfl | hm
  · rw [hs.rename_eq_of_name hh hsn] at hg
    obtain rfl | hgn := eq_or_ne g n
    · obtain rfl : xs = zs := by simpa using hg
      exact (List.nodup_cons.mp hnd).1 (List.mem_of_ne_of_mem hxn hgx)
    · rw [Function.update_of_ne hgn] at hg
      exact hs.not_owns_forget hh (by simp) ⟨g, zs, hg, hgx⟩
  · obtain ⟨us, vs, rfl⟩ := List.append_of_mem hm
    rw [hs.rename_eq_of_mem hh hsn] at hg
    obtain rfl | hgh := eq_or_ne g h
    · obtain rfl : us ++ n :: vs = zs := by simpa using hg
      obtain ⟨-, hndx, hux⟩ := List.nodup_append.mp (show (g :: us ++ x :: vs).Nodup from hnd)
      rcases List.mem_append.mp (show x ∈ g :: us ++ n :: vs from hgx) with hu | hv
      · exact hux x hu x (by simp) rfl
      · exact (List.nodup_cons.mp hndx).1 (List.mem_of_ne_of_mem hxn hv)
    · rw [Function.update_of_ne hgh] at hg
      exact hgh (hs.apart g h zs _ x hg hh hgx (by simp))

theorem substitute {x n : α} (hs : IsCircles ok L s) (hx : s.Owns x) (hok : ok n = true)
    (hn : ¬ s.Owns n) :
    ∃ p q, L.prev x = .addr p ∧ L.next x = .addr q ∧ s.Owns p ∧ s.Owns q ∧ (p = x ↔ q = x) ∧
      IsCircles ok (((L.solo n).exchange x q n n).exchange (if p = x then n else p) x x n)
        (s.rename x n) := by
  obtain ⟨h, xs, hh, hm⟩ := hx
  have hr := hs.ring h xs hh
  have hsn : s n = none := name_of_not_owns hn
  rcases List.mem_cons.mp hm with rfl | hm
  · have hxn : x ≠ n := fun e => hn ⟨x, xs, hh, by simp [e]⟩
    have hins := (hs.insert (show s x = some ([] ++ xs) from hh) hok hn).turn (h := x)
      (show _ = some ([] ++ n :: xs) from Function.update_self ..)
    have hcut := (hins.cut (h := n)
      (show _ = some (xs ++ x :: ([] ++ [])) from Function.update_self ..)).forget x
    rw [Circles.forget, Function.update_idem, Function.update_idem, Function.update_comm hxn.symm,
      Function.update_idem, List.append_nil, Function.update_idem,
      ← hs.rename_eq_of_name hh hsn] at hcut
    refine ⟨xs.getLastD x, xs.headD x, hr.prev_head, hr.next_head,
      ⟨x, xs, hh, List.getLastD_mem_cons⟩, ⟨x, xs, hh, IsRing.headD_mem x xs⟩, ?_⟩
    rcases List.eq_nil_or_concat' xs with rfl | ⟨ys, y, rfl⟩
    · exact ⟨by simp, by simpa using hcut⟩
    · have hy : y ≠ x := fun e => (List.nodup_cons.mp hr.nodup).1 (by simp [e])
      have hlast : (ys ++ [y]).getLastD n = y := by simp
      have hlast' : (ys ++ [y]).getLastD x = y := by simp
      have hhead : (ys ++ [y]).headD x ≠ x := by
        intro e
        have hmem : (ys ++ [y]).headD x ∈ ys ++ [y] := by cases ys <;> simp
        exact (List.nodup_cons.mp hr.nodup).1 (e ▸ hmem)
      rw [hlast] at hcut
      rw [hlast', if_neg hy]
      exact ⟨iff_of_false hy hhead, hcut⟩
  · obtain ⟨us, vs, rfl⟩ := List.append_of_mem hm
    obtain ⟨-, hnd, hux⟩ := List.nodup_append.mp (show (h :: us ++ x :: vs).Nodup from hr.nodup)
    have hpx : us.getLastD h ≠ x := hux _ List.getLastD_mem_cons x (by simp)
    have hqx : vs.headD h ≠ x := by
      rcases List.mem_cons.mp (IsRing.headD_mem h vs) with e | hv
      · exact fun e' => hux h (by simp) x (by simp) (e.symm.trans e')
      · exact fun e => (List.nodup_cons.mp hnd).1 (e ▸ hv)
    have hh' : s h = some ((us ++ [x]) ++ vs) := by simpa using hh
    have hins := hs.insert hh' hok hn
    have hcut := (hins.cut (h := h)
      (show _ = some (us ++ x :: ([] ++ n :: vs)) by simp)).forget x
    have hhx : h ≠ x := hux h (by simp) x (by simp)
    have hsx : s x = none := hs.name_eq_none hh
    have hsx' : Function.update s h (some (us ++ n :: vs)) x = none := by
      rw [Function.update_of_ne hhx.symm, hsx]
    rw [Circles.forget, Function.update_idem, Function.update_idem, ← hsx', Function.update_eq_self,
      ← hs.rename_eq_of_mem hh hsn] at hcut
    refine ⟨us.getLastD h, vs.headD h, hr.prev_mid, hr.next_mid,
      ⟨h, _, hh, IsRing.mem_left us _ h⟩, ⟨h, _, hh, ?_⟩, iff_of_false hpx hqx, ?_⟩
    · have hmem := IsRing.mem_right (us ++ [x]) vs h
      simpa using hmem
    · rw [if_neg hpx]
      have hmid : (us ++ [x]).getLastD h = x := by simp
      rw [hmid] at hcut
      exact hcut

end
end IsCircles
end KernelHashtable
