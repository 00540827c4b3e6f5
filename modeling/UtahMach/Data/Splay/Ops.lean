import UtahMach.Data.Splay.Lemmas

/-!
This module contains what every operation of a splay tree does to the entries of the tree.
-/

namespace Splay

open List (append_nil forall_mem_append forall_mem_cons forall_mem_singleton mem_append mem_cons mem_map nil_append)

variable [LinearOrder κ] {xs : List (κ × α)}

theorem assoc_eq_some_iff (h : (xs.map Prod.fst).Nodup) {key : κ} : assoc xs key = some v ↔ (key, v) ∈ xs := by
  constructor
  . intro hf
    obtain ⟨p, hp, rfl⟩ := Option.map_eq_some_iff.mp hf
    have hkey := List.find?_some hp
    have hmem := List.mem_of_find?_eq_some hp
    simp only [decide_eq_true_eq] at hkey
    subst hkey
    exact hmem
  . intro hmem
    induction xs with
    | nil => simp at hmem
    | cons x xs ih =>
      rw [List.map_cons, List.nodup_cons] at h
      rcases mem_cons.mp hmem with heq | htail
      . subst heq
        simp [assoc]
      . have hne : x.1 ≠ key := by
          intro heq
          exact h.1 (mem_map.mpr ⟨_, htail, heq.symm⟩)
        rw [assoc, List.find?_cons_of_neg (by simpa using hne)]
        exact ih h.2 htail

theorem assoc_perm (h : (xs.map Prod.fst).Nodup) (hp : xs.Perm ys) : assoc xs = assoc ys := by
  funext key
  apply Option.ext
  intro v
  rw [assoc_eq_some_iff h, assoc_eq_some_iff ((hp.map Prod.fst).nodup_iff.mp h), hp.mem_iff]

theorem assoc_cons (k : κ) (v : α) (xs : List (κ × α))
    : assoc ((k, v) :: xs) = Function.update (assoc xs) k (some v) := by
  funext key
  by_cases hk : key = k
  . subst hk
    simp [assoc]
  . rw [Function.update_of_ne hk, assoc, List.find?_cons_of_neg (by simpa using Ne.symm hk)]
    rfl

theorem Sorted.nodup_keys (h : Sorted xs) : (xs.map Prod.fst).Nodup := by
  rw [List.Nodup, List.pairwise_map]
  exact List.Pairwise.imp (fun hlt => ne_of_lt hlt) h

theorem sorted_append : Sorted (xs ++ ys) ↔ Sorted xs ∧ Sorted ys ∧ ∀ a ∈ xs, ∀ b ∈ ys, a.1 < b.1 :=
  List.pairwise_append

theorem sorted_cons : Sorted (x :: xs) ↔ (∀ b ∈ xs, x.1 < b.1) ∧ Sorted xs := List.pairwise_cons

theorem SplayedAt.cases {key : κ} {p : Parts κ α} (h : SplayedAt key p xs) : ∃ l k v r, p.mid = .node l k v r ∧
        xs = (ctxL p.left ++ l.toList) ++ (k, v) :: (r.toList ++ ctxR p.right) ∧
        (∀ e ∈ ctxL p.left ++ l.toList, e.1 < k ∧ e.1 < key) ∧ (∀ e ∈ r.toList ++ ctxR p.right, k < e.1 ∧ key < e.1) ∧
        (key = k ∨ (key < k ∧ l = .nil) ∨ (k < key ∧ r = .nil)) := by
  obtain ⟨hs, hlist, hnear, hleft, hright⟩ := h
  match hmid : p.mid with
  | .nil =>
    rw [hmid] at hnear
    exact hnear.elim
  | .node l k v r =>
    rw [hmid] at hnear
    have hxs : xs = (ctxL p.left ++ l.toList) ++ (k, v) :: (r.toList ++ ctxR p.right) := by
      rw [← hlist, Parts.toList, hmid]
      simp
    rw [hxs, sorted_append, sorted_cons] at hs
    obtain ⟨-, ⟨hr, -⟩, hl⟩ := hs
    refine ⟨l, k, v, r, rfl, hxs, ?_, ?_, hnear⟩
    . intro e he
      have hlt := hl e he _ List.mem_cons_self
      refine ⟨hlt, ?_⟩
      rcases mem_append.mp he with hin | hin
      . exact hleft e hin
      . rcases hnear with rfl | ⟨-, rfl⟩ | ⟨hk, -⟩
        . exact hlt
        . simp at hin
        . exact hlt.trans hk
    . intro e he
      have hlt := hr e he
      refine ⟨hlt, ?_⟩
      rcases mem_append.mp he with hin | hin
      . rcases hnear with rfl | ⟨hk, -⟩ | ⟨-, rfl⟩
        . exact hlt
        . exact hk.trans hlt
        . simp at hin
      . exact hright e hin

namespace SplayTree

variable {s : SplayTree κ α} {key : κ} {v : α} {p : Parts κ α} {xs : List (κ × α)}

theorem get?_eq_some_iff (h : s.WF) : s.get? key = some v ↔ (key, v) ∈ s.toList := assoc_eq_some_iff h.sorted.nodup_keys

theorem get?_of_toList_eq {t : SplayTree κ α} (h : s.toList = t.toList) : s.get? = t.get? := by
  funext key
  simp only [get?, h]

theorem get?_of_root_eq_nil (h : s.root = .nil) (key : κ) : s.get? key = none := by
  simp [get?, assoc, toList_of_root_eq_nil h]

theorem ofSplayed_spec (h : SplayedAt key p xs) : (⟨p.mid, key, p.left, p.right⟩ : SplayTree κ α).WF ∧
      (⟨p.mid, key, p.left, p.right⟩ : SplayTree κ α).toList = xs := by
  have hne : p.mid ≠ .nil := by
    obtain ⟨l, k, v, r, hmid, -⟩ := h.cases
    simp [hmid]
  have hlist : (⟨p.mid, key, p.left, p.right⟩ : SplayTree κ α).toList = xs := by
    rw [toList_eq_parts hne]
    exact h.toList_eq
  refine ⟨⟨?_, ?_⟩, hlist⟩
  . rw [hlist]
    exact h.sorted
  . intro _
    rw [hlist]
    exact h

theorem get?_of_splayed (h : SplayedAt key p s.toList) {k : κ} (hmid : p.mid = .node l k v r)
    : s.get? key = if key = k then some v else none := by
  obtain ⟨l', k', v', r', hmid', hxs, hl, hr, -⟩ := h.cases
  rw [hmid] at hmid'
  cases hmid'
  have hnl : ∀ e ∈ ctxL p.left ++ l.toList, ¬ (decide (e.1 = key) = true) := by
    intro e he
    simpa using (hl e he).2.ne
  have hnr : ∀ e ∈ r.toList ++ ctxR p.right, ¬ (decide (e.1 = key) = true) := by
    intro e he
    simpa using (hr e he).2.ne'
  rw [get?, assoc, hxs, List.find?_append, List.find?_eq_none.mpr hnl, List.find?_cons, List.find?_eq_none.mpr hnr]
  by_cases hk : key = k
  . simp [hk]
  . simp [hk, Ne.symm hk]

theorem lookup_spec (h : s.WF) (key : κ)
    : (s.lookup key).1 = s.get? key ∧ (s.lookup key).2.WF ∧ (s.lookup key).2.toList = s.toList := by
  by_cases hroot : s.root = .nil
  . simp [lookup, hroot, h, get?_of_root_eq_nil hroot]
  . have hp := splayed_spec h hroot key
    obtain ⟨l, k, v, r, hmid, -⟩ := hp.cases
    obtain ⟨hwf, hlist⟩ := ofSplayed_spec hp
    have hget := get?_of_splayed hp hmid
    unfold lookup
    split
    . contradiction
    . simp only [hmid] at hwf hlist ⊢
      exact ⟨hget.symm, hwf, hlist⟩

theorem ofRoot_insert_spec (h : s.WF) {t : Tree κ α} (hsplit : s.toList = xs ++ ys)
    (ht : t.toList = xs ++ (key, val) :: ys) (hxs : ∀ e ∈ xs, e.1 < key) (hys : ∀ e ∈ ys, key < e.1)
    : (ofRoot d t).WF ∧ (ofRoot d t).toList.Perm ((key, val) :: s.toList) := by
  have hsorted := h.sorted
  rw [hsplit, sorted_append] at hsorted
  obtain ⟨hx, hy, hxy⟩ := hsorted
  refine ⟨ofRoot_wf _ ?_, ?_⟩
  . rw [ht, sorted_append, sorted_cons]
    exact ⟨hx, ⟨hys, hy⟩, fun a ha => forall_mem_cons.mpr ⟨hxs a ha, hxy a ha⟩⟩
  . rw [toList_ofRoot, ht, hsplit]
    exact List.perm_middle

theorem insert_spec (h : s.WF) (hnone : s.get? key = none) (val : α)
    : (s.insert key val).WF ∧ (s.insert key val).toList.Perm ((key, val) :: s.toList) := by
  by_cases hroot : s.root = .nil
  . have heq : s.insert key val = ofRoot key (.node .nil key val .nil) := by
      simp [insert, hroot, ofRoot, Tree.rootKey]
    rw [heq, toList_ofRoot, toList_of_root_eq_nil hroot]
    refine ⟨ofRoot_wf _ ?_, ?_⟩ <;> simp [Sorted]
  . have hp := splayed_spec h hroot key
    obtain ⟨l, k, v, r, hmid, hxs, hl, hr, hk⟩ := hp.cases
    have hget := get?_of_splayed hp hmid
    have hne : key ≠ k := by
      rintro rfl
      simp [hnone] at hget
    rcases hk with rfl | ⟨hlt, rfl⟩ | ⟨hgt, rfl⟩
    . contradiction
    . have heq : s.insert key val = ofRoot key
          (.node (plugL (s.splayed key).left .nil) key val (plugR (s.splayed key).right (.node .nil k v r))) := by
        unfold insert
        split
        . contradiction
        . simp [hmid, Tree.rootKey, hlt, ofRoot]
      have hsplit : s.toList = ctxL (s.splayed key).left ++
          (k, v) :: (r.toList ++ ctxR (s.splayed key).right) := by
        simpa using hxs
      rw [heq]
      apply ofRoot_insert_spec h hsplit
      . simp
      . intro e he
        exact (hl e (by simpa using he)).2
      . exact forall_mem_cons.mpr ⟨hlt, fun e he => (hr e he).2⟩
    . have heq : s.insert key val = ofRoot key
          (.node (plugL (s.splayed key).left (.node l k v .nil)) key val (plugR (s.splayed key).right .nil)) := by
        unfold insert
        split
        . contradiction
        . simp [hmid, Tree.rootKey, hgt.not_gt, ofRoot]
      have hsplit : s.toList = (ctxL (s.splayed key).left ++ l.toList ++ [(k, v)]) ++
          ctxR (s.splayed key).right := by
        simpa using hxs
      rw [heq]
      apply ofRoot_insert_spec h hsplit
      . simp
      . exact forall_mem_append.mpr ⟨fun e he => (hl e he).2, forall_mem_singleton.mpr hgt⟩
      . intro e he
        exact (hr e (by simpa using he)).2

theorem assemble_search_largest (largest : κ) {t : Tree κ α} (hne : t ≠ .nil)
    (hs : Sorted t.toList) (hmax : ∀ e ∈ t.toList, e.1 ≤ largest)
    : ∃ l k v, assemble (search largest t [] []) = .node l k v .nil ∧ l.toList ++ [(k, v)] = t.toList := by
  have hp := search_spec largest hne hs
  obtain ⟨l, k, v, r, hmid, hxs, -, hr, -⟩ := hp.cases
  -- An entry to the right of the root would be larger than `largest`.
  have hnil : r.toList ++ ctxR (search largest t [] []).right = [] := by
    rw [List.eq_nil_iff_forall_not_mem]
    intro e he
    have hle := hmax e (by simp [hxs, he])
    exact absurd (hr e he).2 hle.not_gt
  refine ⟨plugL (search largest t [] []).left l, k, v, ?_, ?_⟩
  . have hright : plugR (search largest t [] []).right r = .nil := by
      rw [← Tree.toList_eq_nil_iff, toList_plugR, hnil]
    simp [assemble, hmid, hright]
  . rw [hxs, hnil, toList_plugL]

theorem delete_spec (largest : κ) (h : s.WF) (hget : s.get? key = some v) (hmax : ∀ e ∈ s.toList, e.1 ≤ largest)
    : (s.delete largest key).WF ∧ s.toList.Perm ((key, v) :: (s.delete largest key).toList) := by
  have hroot : s.root ≠ .nil := by
    intro hnil
    simp [get?_of_root_eq_nil hnil] at hget
  have hp := splayed_spec h hroot key
  obtain ⟨l, k, w, r, hmid, hxs, -, -, -⟩ := hp.cases
  obtain ⟨rfl, rfl⟩ : key = k ∧ v = w := by
    have hkv := get?_of_splayed hp hmid
    rw [hget] at hkv
    split at hkv
    . next heq => exact ⟨heq, Option.some.inj hkv⟩
    . contradiction
  have hroot_list := toList_plugL (s.splayed key).left l
  have hsaved_list := toList_plugR (s.splayed key).right r
  -- Every branch leaves the entries on both sides of the root, in their order.
  suffices hres : ∃ t, s.delete largest key = ofRoot key t ∧
      t.toList = (ctxL (s.splayed key).left ++ l.toList) ++ (r.toList ++ ctxR (s.splayed key).right) by
    obtain ⟨t, heq, ht⟩ := hres
    have hsorted := h.sorted
    rw [hxs, sorted_append, sorted_cons] at hsorted
    rw [heq, toList_ofRoot, ht, hxs]
    refine ⟨ofRoot_wf _ ?_, List.perm_middle⟩
    rw [ht, sorted_append]
    exact ⟨hsorted.1, hsorted.2.1.2, fun a ha b hb => hsorted.2.2 a ha b (List.mem_cons_of_mem _ hb)⟩
  unfold delete
  simp only [hmid]
  split
  . next hnil =>
    refine ⟨_, rfl, ?_⟩
    rw [Tree.isNil_iff, ← Tree.toList_eq_nil_iff, hroot_list] at hnil
    rw [hsaved_list, hnil, nil_append]
  . next hne =>
    split
    . next hnil =>
      refine ⟨_, rfl, ?_⟩
      rw [Tree.isNil_iff, ← Tree.toList_eq_nil_iff, hsaved_list] at hnil
      rw [hroot_list, hnil, append_nil]
    . have hsorted := h.sorted
      rw [hxs, sorted_append] at hsorted
      obtain ⟨l', k', v', hasm, hlist⟩ := assemble_search_largest largest
        (t := plugL (s.splayed key).left l) (by simpa using hne)
        (by rw [hroot_list]; exact hsorted.1)
        (by
          intro e he
          rw [hroot_list] at he
          exact hmax e (by rw [hxs]; exact List.mem_append_left _ he))
      simp only [hasm]
      refine ⟨_, rfl, ?_⟩
      rw [Tree.toList_node, hsaved_list, ← hroot_list, ← hlist]
      simp

theorem split_spec (h : s.WF) (key : κ) : (s.split key).1.WF ∧ (s.split key).2.WF ∧
      s.toList = (s.split key).2.toList ++ (s.split key).1.toList ∧
      (∀ e ∈ (s.split key).2.toList, e.1 < key) ∧ (∀ e ∈ (s.split key).1.toList, key ≤ e.1) := by
  by_cases hroot : s.root = .nil
  . simp only [split, hroot]
    simp [h, init_wf, toList_of_root_eq_nil hroot, toList_of_root_eq_nil (s := init key) rfl]
  . have hp := splayed_spec h hroot key
    obtain ⟨l, k, v, r, hmid, hxs, hl, hr, hk⟩ := hp.cases
    have hsorted := h.sorted
    rw [hxs, sorted_append] at hsorted
    unfold split
    split
    . contradiction
    . simp only [hmid]
      split
      . next hlt =>
        have hrnil : r = .nil := by
          rcases hk with rfl | ⟨hgt, -⟩ | ⟨-, hnil⟩
          . exact absurd hlt (lt_irrefl _)
          . exact absurd hlt hgt.not_gt
          . exact hnil
        subst hrnil
        have hsmall : (Tree.node (plugL (s.splayed key).left l) k v .nil).toList =
            (ctxL (s.splayed key).left ++ l.toList) ++ [(k, v)] := by simp
        have hbig : (plugR (s.splayed key).right .nil).toList = ctxR (s.splayed key).right := by simp
        simp only [toList_ofRoot, hsmall, hbig]
        refine ⟨ofRoot_wf _ ?_, ofRoot_wf _ ?_, ?_, ?_, ?_⟩
        . rw [hbig]
          exact (sorted_cons.mp hsorted.2.1).2
        . rw [hsmall, sorted_append]
          exact ⟨hsorted.1, by simp [Sorted], fun a ha => forall_mem_singleton.mpr (hl a ha).1⟩
        . simp [hxs]
        . exact forall_mem_append.mpr ⟨fun e he => (hl e he).2, forall_mem_singleton.mpr hlt⟩
        . exact fun e he => (hr e he).2.le
      . next hge =>
        -- The searched part stays where it is, it only loses its left side.
        have hbig_at : SplayedAt key ⟨.node .nil k v r, [], (s.splayed key).right⟩
            ((k, v) :: (r.toList ++ ctxR (s.splayed key).right)) := {
          sorted := hsorted.2.1
          toList_eq := by simp [Parts.toList]
          near := by
            rcases hk with rfl | ⟨hgt, -⟩ | ⟨hlt, -⟩
            . simp [Near]
            . simp [Near, hgt]
            . contradiction
          left_lt := by simp
          right_gt := hp.right_gt
        }
        obtain ⟨hwf, hlist⟩ := ofSplayed_spec hbig_at
        simp only [toList_ofRoot, toList_plugL, hlist]
        refine ⟨hwf, ofRoot_wf _ ?_, hxs, fun e he => (hl e he).2, ?_⟩
        . rw [toList_plugL]
          exact hsorted.1
        . exact forall_mem_cons.mpr ⟨not_lt.mp hge, fun e he => (hr e he).2.le⟩

theorem assemble_of_smallest (hp : SplayedAt smallest p xs) (hmin : ∀ e ∈ xs, smallest ≤ e.1)
    : ∃ k v r, assemble p = .node .nil k v r ∧ (k, v) :: r.toList = xs := by
  obtain ⟨l, k, v, r, hmid, hxs, hl, -, -⟩ := hp.cases
  have hnil : ctxL p.left ++ l.toList = [] := by
    rw [List.eq_nil_iff_forall_not_mem]
    intro e he
    have hle := hmin e (by rw [hxs]; exact List.mem_append_left _ he)
    exact absurd (hl e he).2 hle.not_gt
  refine ⟨k, v, plugR p.right r, ?_, ?_⟩
  . have hleft : plugL p.left l = .nil := by
      rw [← Tree.toList_eq_nil_iff, toList_plugL, hnil]
    simp [assemble, hmid, hleft]
  . rw [hxs, hnil, toList_plugR, nil_append]

theorem join_spec (smallest : κ) {small : SplayTree κ α} (h : s.WF) (hsmall : small.WF)
    (hlt : ∀ a ∈ small.toList, ∀ b ∈ s.toList, a.1 < b.1) (hmin : ∀ e ∈ s.toList, smallest ≤ e.1)
    : (join smallest s small).WF ∧ (join smallest s small).toList = small.toList ++ s.toList := by
  by_cases hsroot : small.root = .nil
  . simp only [join, hsroot]
    simp [h, toList_of_root_eq_nil hsroot]
  . by_cases hroot : s.root = .nil
    . have heq : join smallest s small = ofRoot smallest (assemble small.parts) := by
        unfold join
        split
        . contradiction
        . simp [hroot]
      rw [heq, toList_ofRoot, toList_of_root_eq_nil hroot, append_nil]
      exact ⟨ofRoot_wf _ hsmall.sorted, rfl⟩
    . obtain ⟨k, v, r, hasm, hlist⟩ := assemble_of_smallest (splayed_spec h hroot smallest) hmin
      have heq : join smallest s small =
          ofRoot smallest (.node (assemble small.parts) k v r) := by
        unfold join
        split
        . contradiction
        . split
          . contradiction
          . simp [hasm]
      have htree : (Tree.node (assemble small.parts) k v r).toList = small.toList ++ s.toList := by
        rw [Tree.toList_node, hlist]
        rfl
      rw [heq, toList_ofRoot, htree]
      refine ⟨ofRoot_wf _ ?_, rfl⟩
      rw [htree, sorted_append]
      exact ⟨hsmall.sorted, h.sorted, hlt⟩

def IsLower (xs : List (κ × α)) (key : κ) : Option κ → Prop
  | none => ∀ e ∈ xs, key < e.1
  | some b => (∃ v, (b, v) ∈ xs) ∧ b ≤ key ∧ ∀ e ∈ xs, e.1 ≤ key → e.1 ≤ b

def IsUpper (xs : List (κ × α)) (key : κ) : Option κ → Prop
  | none => ∀ e ∈ xs, e.1 < key
  | some b => (∃ v, (b, v) ∈ xs) ∧ key ≤ b ∧ ∀ e ∈ xs, key ≤ e.1 → b ≤ e.1

theorem isLower_of_ctxL {left : List (LFrame κ α)}
    (hs : Sorted (ctxL left)) (hl : ∀ e ∈ ctxL left, e.1 < key) (hy : ∀ e ∈ ys, key < e.1)
    : IsLower (ctxL left ++ ys) key (left.head?.map LFrame.k) := by
  cases left with
  | nil => simpa [IsLower] using hy
  | cons f fs =>
    rw [ctxL_cons, ← List.append_assoc, sorted_append] at hs
    refine ⟨⟨f.v, by simp⟩, (hl (f.k, f.v) (by simp)).le, ?_⟩
    rw [ctxL_cons, ← List.append_assoc, forall_mem_append, forall_mem_append, forall_mem_singleton]
    exact ⟨⟨fun e he _ => (hs.2.2 e he _ (List.mem_singleton_self _)).le, fun _ => le_rfl⟩,
      fun e he hle => absurd (hy e he) hle.not_gt⟩

theorem isUpper_of_ctxR {right : List (RFrame κ α)}
    (hs : Sorted (ctxR right)) (hr : ∀ e ∈ ctxR right, key < e.1) (hx : ∀ e ∈ xs, e.1 < key)
    : IsUpper (xs ++ ctxR right) key (right.head?.map RFrame.k) := by
  cases right with
  | nil => simpa [IsUpper] using hx
  | cons f fs =>
    rw [ctxR_cons, sorted_cons] at hs
    refine ⟨⟨f.v, by simp⟩, (hr (f.k, f.v) (by simp)).le, ?_⟩
    rw [ctxR_cons, forall_mem_append, forall_mem_cons]
    exact ⟨fun e he hle => absurd (hx e he) hle.not_gt, fun _ => le_rfl, fun e he _ => (hs.1 e he).le⟩

theorem bounds_spec (h : s.WF) (key : κ)
    : IsLower s.toList key (s.bounds key).1.1 ∧ IsUpper s.toList key (s.bounds key).1.2 ∧
      (s.bounds key).2.WF ∧ (s.bounds key).2.toList = s.toList := by
  by_cases hroot : s.root = .nil
  . simp only [bounds, hroot]
    simp [IsLower, IsUpper, toList_of_root_eq_nil hroot, h]
  . have hp := splayed_spec h hroot key
    obtain ⟨l, k, v, r, hmid, hxs, hl, hr, hk⟩ := hp.cases
    obtain ⟨hwf, hlist⟩ := ofSplayed_spec hp
    have hsorted := h.sorted
    rw [hxs, sorted_append, sorted_cons, sorted_append, sorted_append] at hsorted
    have hmem : (k, v) ∈ s.toList := by simp [hxs]
    unfold bounds
    split
    . contradiction
    . refine ⟨?_, ?_, hwf, hlist⟩
      . simp only [hmid, Tree.rootKey]
        split
        . next hle =>
          refine ⟨⟨v, hmem⟩, hle, ?_⟩
          rw [hxs, forall_mem_append, forall_mem_cons]
          exact ⟨fun e he _ => (hl e he).1.le, fun _ => le_rfl, fun e he hle => absurd (hr e he).2 hle.not_gt⟩
        . next hgt =>
          have hlnil : l = .nil := by
            rcases hk with rfl | ⟨-, hnil⟩ | ⟨hlt, -⟩
            . exact absurd le_rfl hgt
            . exact hnil
            . exact absurd hlt.le hgt
          rw [hxs, hlnil, Tree.toList_nil, append_nil]
          apply isLower_of_ctxL hsorted.1.1 hp.left_lt
          exact forall_mem_cons.mpr ⟨not_le.mp hgt, fun e he => (hr e he).2⟩
      . simp only [hmid, Tree.rootKey]
        split
        . next hle =>
          refine ⟨⟨v, hmem⟩, hle, ?_⟩
          rw [hxs, forall_mem_append, forall_mem_cons]
          exact ⟨fun e he hle => absurd (hl e he).2 hle.not_gt, fun _ => le_rfl, fun e he _ => (hr e he).1.le⟩
        . next hgt =>
          have hrnil : r = .nil := by
            rcases hk with rfl | ⟨hlt, -⟩ | ⟨-, hnil⟩
            . exact absurd le_rfl hgt
            . exact absurd hlt.le hgt
            . exact hnil
          rw [hxs, hrnil, Tree.toList_nil, nil_append, List.append_cons]
          apply isUpper_of_ctxR hsorted.2.1.2.2.1 hp.right_gt
          exact forall_mem_append.mpr ⟨fun e he => (hl e he).2, forall_mem_singleton.mpr (not_le.mp hgt)⟩

omit [LinearOrder κ] in
theorem pick_spec (s : SplayTree κ α) : (s.pick = none ↔ s.toList = []) ∧ ∀ e, s.pick = some e → e ∈ s.toList := by
  rw [toList_eq_nil_iff]
  cases hr : s.root with
  | nil => simp [pick, hr]
  | node l k v r => simp [pick, hr, toList, parts, assemble]

section

variable {s t : SplayTree κ α} {key : κ} {v : α} (hs : s.WF) (ht : t.WF)
  (hperm : t.toList.Perm ((key, v) :: s.toList))
include hs ht hperm

theorem get?_of_perm (k : κ) : t.get? k = if k = key then some v else s.get? k := by
  have hiff : ∀ w, t.get? k = some w ↔ (k = key ∧ w = v) ∨ s.get? k = some w := by
    intro w
    rw [get?_eq_some_iff ht, get?_eq_some_iff hs, hperm.mem_iff, mem_cons, Prod.mk.injEq]
  split
  . next heq => exact (hiff v).mpr (Or.inl ⟨heq, rfl⟩)
  . next hne =>
    apply Option.ext
    intro w
    rw [hiff w]
    simp [hne]

theorem get?_eq_none_of_perm : s.get? key = none := by
  rw [Option.eq_none_iff_forall_ne_some]
  intro w hw
  rw [get?_eq_some_iff hs] at hw
  have hne : t.toList.Pairwise (fun a b => a.1 ≠ b.1) := List.Pairwise.imp (fun hlt => ne_of_lt hlt) ht.sorted
  have hne' := (hperm.pairwise_iff (fun hab => hab.symm)).mp hne
  exact (List.pairwise_cons.mp hne').1 _ hw rfl

theorem get?_erase_of_perm (k : κ) : s.get? k = if k = key then none else t.get? k := by
  split
  . next heq =>
    rw [heq]
    exact get?_eq_none_of_perm hs ht hperm
  . next hne => rw [get?_of_perm hs ht hperm, if_neg hne]

end

section Modify

variable (g : κ → α → α)

omit [LinearOrder κ] in
theorem toList_map (t : Tree κ α) : (t.map g).toList = t.toList.map (fun e => (e.1, g e.1 e.2)) := by
  induction t with
  | nil => rfl
  | node l k v r ihl ihr => simp [Tree.map, ihl, ihr]

omit [LinearOrder κ] in
theorem ctxL_map (left : List (LFrame κ α)) : ctxL (left.map (LFrame.map g)) =
      (ctxL left).map (fun e => (e.1, g e.1 e.2)) := by
  induction left with
  | nil => rfl
  | cons f fs ih => simp [ih, toList_map, LFrame.map]

omit [LinearOrder κ] in
theorem ctxR_map (right : List (RFrame κ α)) : ctxR (right.map (RFrame.map g)) =
      (ctxR right).map (fun e => (e.1, g e.1 e.2)) := by
  induction right with
  | nil => rfl
  | cons f fs ih => simp [ih, toList_map, RFrame.map]

theorem near_map {key : κ} {t : Tree κ α} (h : Near key t) : Near key (t.map g) := by
  match t with
  | .nil => exact h.elim
  | .node l k v r =>
    rcases h with heq | ⟨hlt, rfl⟩ | ⟨hgt, rfl⟩
    . exact Or.inl heq
    . exact Or.inr (Or.inl ⟨hlt, rfl⟩)
    . exact Or.inr (Or.inr ⟨hgt, rfl⟩)

theorem sorted_map (h : Sorted xs) : Sorted (xs.map (fun e => (e.1, g e.1 e.2))) := by
  rw [Sorted, List.pairwise_map]
  exact h

end Modify

theorem modify_spec {s : SplayTree κ α} (h : s.WF) (key : κ) (f : α → α) : (s.modify key f).WF ∧
      (s.modify key f).toList = s.toList.map (fun e => (e.1, if e.1 = key then f e.2 else e.2)) := by
  have hroot : (s.modify key f).root = .nil ↔ s.root = .nil := by
    cases hr : s.root <;> simp [modify, hr, Tree.map]
  have hlist : (s.modify key f).toList =
      s.toList.map (fun e => (e.1, if e.1 = key then f e.2 else e.2)) := by
    by_cases hnil : s.root = .nil
    . rw [toList_of_root_eq_nil (hroot.mpr hnil), toList_of_root_eq_nil hnil, List.map_nil]
    . rw [toList_eq_parts (fun hc => hnil (hroot.mp hc)), toList_eq_parts hnil]
      simp only [Parts.toList, parts, modify, ctxL_map, ctxR_map, toList_map, List.map_append]
  refine ⟨⟨?_, ?_⟩, hlist⟩
  . rw [hlist]
    exact sorted_map (fun k v => if k = key then f v else v) h.sorted
  . intro hne
    have hat := h.at_name (fun hc => hne (hroot.mpr hc))
    rw [hlist]
    exact {
      sorted := sorted_map (fun k v => if k = key then f v else v) h.sorted
      toList_eq := by rw [← hlist, toList_eq_parts hne]
      near := near_map _ hat.near
      left_lt := by
        intro e he
        simp only [parts, modify, ctxL_map, mem_map] at he
        obtain ⟨e', he', rfl⟩ := he
        exact hat.left_lt e' he'
      right_gt := by
        intro e he
        simp only [parts, modify, ctxR_map, mem_map] at he
        obtain ⟨e', he', rfl⟩ := he
        exact hat.right_gt e' he'
    }

theorem get?_modify {s : SplayTree κ α} (h : s.WF) (key : κ) (f : α → α) (k : κ)
    : (s.modify key f).get? k = if k = key then (s.get? k).map f else s.get? k := by
  obtain ⟨hwf, hlist⟩ := modify_spec h key f
  apply Option.ext
  intro w
  rw [get?_eq_some_iff hwf, hlist, mem_map]
  constructor
  . rintro ⟨⟨k', v⟩, hmem, heq⟩
    rw [← get?_eq_some_iff h] at hmem
    obtain ⟨rfl, rfl⟩ := heq
    split <;> simp [hmem]
  . intro hw
    split at hw
    . next heq =>
      obtain ⟨v, hv, rfl⟩ := Option.map_eq_some_iff.mp hw
      exact ⟨(k, v), (get?_eq_some_iff h).mp hv, by simp [heq]⟩
    . next hne => exact ⟨(k, w), (get?_eq_some_iff h).mp hw, by simp [hne]⟩

end SplayTree

end Splay
