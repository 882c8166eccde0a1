import KernelHashtable.Lib.Ring

/-!
# Joining and cutting circles

Two links `a → b` and `c → d` of a doubly linked memory exchange their ends and become `a → d`
and `c → b`. This joins two circles into one when the links are of different circles, and cuts
a circle in two when they are of the same.
-/

namespace KernelHashtable

namespace Links
variable {α : Type*} [DecidableEq α]

def exchange (L : Links α) (a b c d : α) : Links α where
  next := Function.update (Function.update L.next a (.addr d)) c (.addr b)
  prev := Function.update (Function.update L.prev d (.addr a)) b (.addr c)

def solo (L : Links α) (a : α) : Links α where
  next := Function.update L.next a (.addr a)
  prev := Function.update L.prev a (.addr a)

variable {L : Links α} {a b c d x : α}

theorem exchange_next_apply : (L.exchange a b c d).next x =
    if x = c then .addr b else if x = a then .addr d else L.next x := by
  simp only [exchange, Function.update_apply]

theorem exchange_prev_apply : (L.exchange a b c d).prev x =
    if x = b then .addr c else if x = d then .addr a else L.prev x := by
  simp only [exchange, Function.update_apply]

theorem solo_next_apply : (L.solo a).next x = if x = a then .addr a else L.next x :=
  Function.update_apply ..

theorem solo_prev_apply : (L.solo a).prev x = if x = a then .addr a else L.prev x :=
  Function.update_apply ..

theorem exchange_next (ha : x ≠ a) (hc : x ≠ c) : (L.exchange a b c d).next x = L.next x :=
  (Function.update_of_ne hc _ _).trans (Function.update_of_ne ha _ _)

theorem exchange_prev (hb : x ≠ b) (hd : x ≠ d) : (L.exchange a b c d).prev x = L.prev x :=
  (Function.update_of_ne hb _ _).trans (Function.update_of_ne hd _ _)

theorem exchange_left (hac : a ≠ c) (hbd : b ≠ d) : (L.exchange a b c d).Linked a d :=
  ⟨(Function.update_of_ne hac _ _).trans (Function.update_self ..),
    (Function.update_of_ne hbd.symm _ _).trans (Function.update_self ..)⟩

theorem exchange_right : (L.exchange a b c d).Linked c b :=
  ⟨Function.update_self .., Function.update_self ..⟩

end Links

namespace IsRing
variable {α : Type*} {L L' : Links α} {h k : α} {xs ys us vs : List α}

theorem ne_getLastD {a x : α} {l : List α} (hl : (a :: l).Nodup) (hx : x ∈ (a :: l).dropLast) :
    x ≠ l.getLastD a := by
  obtain ⟨A, hA⟩ := cons_eq_concat_getLastD a l
  rw [hA] at hl hx
  rw [List.dropLast_concat] at hx
  rintro rfl
  exact (List.nodup_append.mp hl).2.2 _ hx _ (by simp) rfl

theorem turn (hr : IsRing L h (us ++ k :: vs)) : IsRing L k (vs ++ h :: us) := by
  have hc := hr.chain
  have hsplit : h :: (us ++ k :: vs) ++ [h] = (h :: us) ++ k :: (vs ++ [h]) := by simp
  rw [hsplit, List.isChain_split] at hc
  constructor
  · have hturn : k :: (vs ++ h :: us) ++ [k] = (k :: vs) ++ h :: (us ++ [k]) := by simp
    rw [hturn, List.isChain_split]
    exact ⟨by simpa using hc.2, by simpa using hc.1⟩
  · have hswap : (k :: vs ++ h :: us).Perm (h :: us ++ k :: vs) := List.perm_append_comm
    have hperm : (k :: (vs ++ h :: us)).Perm (h :: (us ++ k :: vs)) := by simpa using hswap
    exact hperm.nodup_iff.mpr hr.nodup

theorem arcs_congr (hnd : (h :: (us ++ k :: (ys ++ vs))).Nodup)
    (hnext : ∀ x, x ≠ us.getLastD h → x ≠ ys.getLastD k → L'.next x = L.next x)
    (hprev : ∀ x, x ≠ vs.headD h → x ≠ k → L'.prev x = L.prev x)
    (hu : List.IsChain L.Linked (h :: us)) (hk : List.IsChain L.Linked (k :: ys))
    (hv : List.IsChain L.Linked (vs ++ [h])) :
    List.IsChain L'.Linked (h :: us) ∧ List.IsChain L'.Linked (k :: ys) ∧
      List.IsChain L'.Linked (vs ++ [h]) := by
  have hnd' : (h :: us ++ (k :: ys ++ vs)).Nodup := by simpa using hnd
  obtain ⟨hndu, hndk, huk⟩ := List.nodup_append.mp hnd'
  obtain ⟨hndy, hndv, hkv⟩ := List.nodup_append.mp hndk
  have hlast : us.getLastD h ∈ h :: us := List.getLastD_mem_cons
  have hklast : ys.getLastD k ∈ k :: ys := List.getLastD_mem_cons
  have hhead := headD_mem h vs
  refine ⟨isChain_imp_ends (fun x hx y hy hxy => ?_) hu,
    isChain_imp_ends (fun x hx y hy hxy => ?_) hk,
    isChain_imp_ends (fun x hx y hy hxy => ?_) hv⟩
  · have hxu := List.mem_of_mem_dropLast hx
    have hyu : y ∈ us := hy
    refine ⟨(hnext x (ne_getLastD hndu hx) ?_).trans hxy.1, (hprev y ?_ ?_).trans hxy.2⟩
    · exact huk x hxu _ (List.mem_append_left vs hklast)
    · rcases List.mem_cons.mp hhead with e | hm
      · exact fun e' => (List.nodup_cons.mp hndu).1 (e ▸ e' ▸ hyu)
      · exact huk y (List.mem_cons_of_mem h hyu) _ (List.mem_append_right _ hm)
    · exact huk y (List.mem_cons_of_mem h hyu) k (by simp)
  · have hxk := List.mem_of_mem_dropLast hx
    have hyk : y ∈ ys := hy
    refine ⟨(hnext x ?_ (ne_getLastD hndy hx)).trans hxy.1, (hprev y ?_ ?_).trans hxy.2⟩
    · exact fun e => huk _ hlast x (List.mem_append_left vs hxk) e.symm
    · rcases List.mem_cons.mp hhead with e | hm
      · exact fun e' => huk h (by simp) y (by simp [hyk]) (e ▸ e').symm
      · exact hkv y (List.mem_cons_of_mem k hyk) _ hm
    · exact fun e => (List.nodup_cons.mp hndy).1 (e ▸ hyk)
  · have hxv : x ∈ vs := by simpa using hx
    refine ⟨(hnext x ?_ ?_).trans hxy.1, (hprev y ?_ ?_).trans hxy.2⟩
    · exact fun e => huk _ hlast x (List.mem_append_right _ hxv) e.symm
    · exact fun e => hkv _ hklast x hxv e.symm
    · cases vs with
      | nil => simp at hxv
      | cons v vs =>
        have hyv : y ∈ vs ∨ y = h := by simpa using hy
        intro e
        change y = v at e
        rcases hyv with hyv | rfl
        · exact (List.nodup_cons.mp hndv).1 (e ▸ hyv)
        · exact huk y (by simp) v (by simp) e
    · intro e
      rcases List.mem_append.mp (List.mem_of_mem_tail hy) with hyv | hyv
      · exact hkv k (by simp) y hyv e.symm
      · exact huk h (by simp) k (by simp) ((List.mem_singleton.mp hyv).symm.trans e)

theorem mem_left (us vs : List α) (h : α) : us.getLastD h ∈ h :: (us ++ vs) := by
  rw [← List.cons_append]
  exact List.mem_append_left vs List.getLastD_mem_cons

theorem mem_right (us vs : List α) (h : α) : vs.headD h ∈ h :: (us ++ vs) := by
  rcases List.mem_cons.mp (headD_mem h vs) with e | hm
  · rw [e]
    exact List.mem_cons_self
  · exact List.mem_cons_of_mem h (List.mem_append_right us hm)

variable [DecidableEq α]

theorem join (hh : IsRing L h (us ++ vs)) (hk : IsRing L k ys)
    (hd : List.Disjoint (h :: (us ++ vs)) (k :: ys)) :
    IsRing (L.exchange (us.getLastD h) (vs.headD h) (ys.getLastD k) k) h
      (us ++ k :: (ys ++ vs)) := by
  have hperm : (h :: (us ++ k :: (ys ++ vs))).Perm (h :: (us ++ vs) ++ (k :: ys)) := by
    have hmid : (us ++ (k :: ys ++ vs)).Perm (us ++ (vs ++ k :: ys)) :=
      List.perm_append_comm.append_left us
    simpa using hmid
  have hnd : (h :: (us ++ k :: (ys ++ vs))).Nodup :=
    hperm.nodup_iff.mpr (hh.nodup.append hk.nodup hd)
  have hac : us.getLastD h ≠ ys.getLastD k :=
    fun e => hd (mem_left us vs h) (e ▸ List.getLastD_mem_cons)
  have hbd : vs.headD h ≠ k := fun e => hd (mem_right us vs h) (e ▸ List.mem_cons_self)
  obtain ⟨hu, -, hv⟩ := (chain_cut_iff us vs h).mp hh.chain
  obtain ⟨hu', hk', hv'⟩ := arcs_congr hnd (fun _ => Links.exchange_next)
    (fun _ => Links.exchange_prev) hu hk.chain.left_of_append hv
  exact ⟨(arc_cut_iff us _ h h).mpr ⟨hu', Links.exchange_left hac hbd,
    (arc_cut_iff ys vs k h).mpr ⟨hk', Links.exchange_right, hv'⟩⟩, hnd⟩

theorem cut (hr : IsRing L h (us ++ k :: (ys ++ vs))) :
    IsRing (L.exchange (us.getLastD h) k (ys.getLastD k) (vs.headD h)) h (us ++ vs) ∧
      IsRing (L.exchange (us.getLastD h) k (ys.getLastD k) (vs.headD h)) k ys := by
  have hnd : (h :: us ++ (k :: ys ++ vs)).Nodup := by simpa using hr.nodup
  obtain ⟨hndu, hndk, huk⟩ := List.nodup_append.mp hnd
  have hlast : us.getLastD h ∈ h :: us := List.getLastD_mem_cons
  have hac : us.getLastD h ≠ ys.getLastD k :=
    huk _ hlast _ (List.mem_append_left vs List.getLastD_mem_cons)
  have hbd : k ≠ vs.headD h := by
    rcases List.mem_cons.mp (headD_mem h vs) with e | hm
    · exact fun e' => huk h (by simp) k (by simp) (e ▸ e').symm
    · exact (List.nodup_append.mp hndk).2.2 k (by simp) _ hm
  obtain ⟨hu, -, hrest⟩ := (arc_cut_iff us _ h h).mp hr.chain
  obtain ⟨hk, -, hv⟩ := (arc_cut_iff ys vs k h).mp hrest
  obtain ⟨hu', hk', hv'⟩ := arcs_congr hr.nodup (fun _ ha hc => Links.exchange_next ha hc)
    (fun _ hb hd => Links.exchange_prev hd hb) hu hk hv
  have hsub : (us ++ vs).Sublist (us ++ k :: (ys ++ vs)) :=
    ((List.sublist_append_right ys vs).cons k).append_left us
  refine ⟨⟨?_, hr.nodup.sublist (hsub.cons_cons h)⟩, ?_, (List.nodup_append.mp hndk).1⟩
  · exact (chain_cut_iff us vs h).mpr ⟨hu', Links.exchange_left hac hbd, hv'⟩
  · have hclose := (arc_cut_iff ys [] k k).mpr ⟨hk', Links.exchange_right, .singleton k⟩
    simpa using hclose

end IsRing
end KernelHashtable
