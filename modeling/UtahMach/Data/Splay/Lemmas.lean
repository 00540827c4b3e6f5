import UtahMach.Data.Splay.Basic

namespace Splay

open Tree

def ctxL : List (LFrame κ α) → List (κ × α)
  | [] => []
  | f :: fs => ctxL fs ++ (f.l.toList ++ [(f.k, f.v)])

def ctxR : List (RFrame κ α) → List (κ × α)
  | [] => []
  | f :: fs => (f.k, f.v) :: (f.r.toList ++ ctxR fs)

def Parts.toList (p : Parts κ α) : List (κ × α) := ctxL p.left ++ (p.mid.toList ++ ctxR p.right)

@[simp]
theorem Tree.toList_nil : (nil : Tree κ α).toList = [] := rfl

@[simp]
theorem Tree.toList_node (l : Tree κ α) (k : κ) (v : α) (r : Tree κ α)
    : (node l k v r).toList = l.toList ++ (k, v) :: r.toList := rfl

@[simp]
theorem ctxL_nil : ctxL ([] : List (LFrame κ α)) = [] := rfl

@[simp]
theorem ctxL_cons (f : LFrame κ α) (fs : List (LFrame κ α))
    : ctxL (f :: fs) = ctxL fs ++ (f.l.toList ++ [(f.k, f.v)]) := rfl

@[simp]
theorem ctxR_nil : ctxR ([] : List (RFrame κ α)) = [] := rfl

@[simp]
theorem ctxR_cons (f : RFrame κ α) (fs : List (RFrame κ α))
    : ctxR (f :: fs) = (f.k, f.v) :: (f.r.toList ++ ctxR fs) := rfl

@[simp]
theorem Tree.isNil_iff {t : Tree κ α} : t.isNil = true ↔ t = .nil := by
  cases t <;> simp [isNil]

@[simp]
theorem Tree.isNil_eq_false_iff {t : Tree κ α} : t.isNil = false ↔ t ≠ .nil := by
  cases t <;> simp [isNil]

theorem Tree.toList_eq_nil_iff {t : Tree κ α} : t.toList = [] ↔ t = .nil := by
  cases t <;> simp

@[simp]
theorem toList_plugL (fs : List (LFrame κ α)) (t : Tree κ α) : (plugL fs t).toList = ctxL fs ++ t.toList := by
  induction fs generalizing t with
  | nil => simp [plugL]
  | cons f fs ih => simp [plugL, ih]

@[simp]
theorem toList_plugR (fs : List (RFrame κ α)) (t : Tree κ α) : (plugR fs t).toList = t.toList ++ ctxR fs := by
  induction fs generalizing t with
  | nil => simp [plugR]
  | cons f fs ih => simp [plugR, ih]

theorem toList_assemble (p : Parts κ α) (h : p.mid ≠ .nil) : (assemble p).toList = p.toList := by
  obtain ⟨mid, left, right⟩ := p
  cases mid with
  | nil => contradiction
  | node l k v r => simp [assemble, Parts.toList]

variable [LinearOrder κ]

def Sorted (xs : List (κ × α)) : Prop := xs.Pairwise (fun a b => a.1 < b.1)

def Near (key : κ) : Tree κ α → Prop
  | .nil => False
  | .node l k _ r => key = k ∨ (key < k ∧ l = .nil) ∨ (k < key ∧ r = .nil)

theorem search_near (key : κ) (t : Tree κ α) (left : List (LFrame κ α)) (right : List (RFrame κ α)) (h : t ≠ .nil)
    : Near key (search key t left right).mid := by
  fun_induction search key t left right with
  | case1 => contradiction
  | case2 => simp [Near]
  | case3 => simp [Near, *]
  | case4 _ _ _ _ _ _ _ _ _ _ _ hcond ih => exact ih (by simpa using hcond.2)
  | case5 _ _ _ _ _ _ _ _ _ _ _ _ hcond ih => exact ih (by simpa using hcond.2)
  | case6 _ _ _ _ _ _ _ _ _ _ _ _ _ ih => exact ih (by simp)
  | case7 _ _ _ _ _ hne hlt => simp [Near, lt_of_le_of_ne (le_of_not_gt hlt) (Ne.symm hne)]
  | case8 _ _ _ _ _ _ _ _ _ _ _ hcond ih => exact ih (by simpa using hcond.2)
  | case9 _ _ _ _ _ _ _ _ _ _ _ _ hcond ih => exact ih (by simpa using hcond.2)
  | case10 _ _ _ _ _ _ _ _ _ _ _ _ _ ih => exact ih (by simp)

theorem search_toList (key : κ) (t : Tree κ α) (left : List (LFrame κ α)) (right : List (RFrame κ α))
    : (search key t left right).toList = ctxL left ++ (t.toList ++ ctxR right) := by
  fun_induction search key t left right with
  | case1 => simp [Parts.toList]
  | case2 => simp [Parts.toList]
  | case3 => simp [Parts.toList]
  | case4 _ _ _ _ _ _ _ _ _ _ _ _ ih => simp [ih]
  | case5 _ _ _ _ _ _ _ _ _ _ _ _ _ ih => simp [ih]
  | case6 _ _ _ _ _ _ _ _ _ _ _ _ _ ih => simp [ih]
  | case7 => simp [Parts.toList]
  | case8 _ _ _ _ _ _ _ _ _ _ _ _ ih => simp [ih]
  | case9 _ _ _ _ _ _ _ _ _ _ _ _ _ ih => simp [ih]
  | case10 _ _ _ _ _ _ _ _ _ _ _ _ _ ih => simp [ih]

theorem sorted_node {k : κ} : Sorted (node l k v r).toList ↔
        Sorted l.toList ∧ Sorted r.toList ∧ (∀ p ∈ l.toList, p.1 < k) ∧ (∀ p ∈ r.toList, k < p.1) := by
  simp only [Sorted, toList_node, List.pairwise_append, List.pairwise_cons, List.mem_cons]
  constructor
  . rintro ⟨h1, ⟨h2, h3⟩, h4⟩
    exact ⟨h1, h3, fun p hp => h4 p hp _ (Or.inl rfl), h2⟩
  . rintro ⟨h1, h2, h3, h4⟩
    refine ⟨h1, ⟨h4, h2⟩, ?_⟩
    rintro a ha b (rfl | hb)
    . exact h3 a ha
    . exact (h3 a ha).trans (h4 b hb)

theorem search_sides (key : κ) (t : Tree κ α) (left : List (LFrame κ α))
    (right : List (RFrame κ α)) (hs : Sorted t.toList)
    (hl : ∀ p ∈ ctxL left, p.1 < key) (hr : ∀ p ∈ ctxR right, key < p.1)
    : (∀ p ∈ ctxL (search key t left right).left, p.1 < key) ∧
      (∀ p ∈ ctxR (search key t left right).right, key < p.1) := by
  fun_induction search key t left right with
  | case1 => exact ⟨hl, hr⟩
  | case2 => exact ⟨hl, hr⟩
  | case3 => exact ⟨hl, hr⟩
  | case4 _ _ _ _ _ _ _ _ _ _ _ _ ih =>
    simp only [sorted_node] at hs
    exact ih hs.1.1 hl (by grind [ctxR_cons, toList_node])
  | case5 _ _ _ _ _ _ _ _ _ _ _ _ _ ih =>
    simp only [sorted_node] at hs
    exact ih hs.1.2.1 (by grind [ctxL_cons, toList_node]) (by grind [ctxR_cons, toList_node])
  | case6 _ _ _ _ _ _ _ _ _ _ _ _ _ ih =>
    rw [sorted_node] at hs
    exact ih hs.1 hl (by grind [ctxR_cons, toList_node])
  | case7 => exact ⟨hl, hr⟩
  | case8 _ _ _ _ _ _ _ _ _ _ _ _ ih => 
    simp only [sorted_node] at hs
    exact ih hs.2.1.2.1 (by grind [ctxL_cons, toList_node]) hr
  | case9 _ _ _ _ _ _ _ _ _ _ _ _ _ ih =>
    simp only [sorted_node] at hs
    exact ih hs.2.1.1 (by grind [ctxL_cons, toList_node]) (by grind [ctxR_cons, toList_node])
  | case10 _ _ _ _ _ _ _ _ _ _ _ _ _ ih =>
    rw [sorted_node] at hs
    exact ih hs.2.1 (by grind [ctxL_cons, toList_node]) hr

structure SplayedAt (key : κ) (p : Parts κ α) (xs : List (κ × α)) : Prop where
  sorted : Sorted xs
  toList_eq : p.toList = xs
  near : Near key p.mid
  left_lt : ∀ e ∈ ctxL p.left, e.1 < key
  right_gt : ∀ e ∈ ctxR p.right, key < e.1

theorem search_spec (key : κ) {t : Tree κ α} (hne : t ≠ .nil) (hs : Sorted t.toList)
    : SplayedAt key (search key t [] []) t.toList := by
  have hsides := search_sides key t [] [] hs (by simp) (by simp)
  exact {
    sorted := hs
    toList_eq := by simp [search_toList]
    near := search_near key t [] [] hne
    left_lt := hsides.1
    right_gt := hsides.2
  }

namespace SplayTree

structure WF (s : SplayTree κ α) : Prop where
  sorted : Sorted s.toList
  at_name : s.root ≠ .nil → SplayedAt s.name s.parts s.toList

omit [LinearOrder κ] in
theorem toList_of_root_eq_nil {s : SplayTree κ α} (h : s.root = .nil) : s.toList = [] := by
  simp [toList, parts, assemble, h]

omit [LinearOrder κ] in
theorem toList_eq_parts {s : SplayTree κ α} (h : s.root ≠ .nil) : s.toList = s.parts.toList := by
  exact toList_assemble s.parts h

omit [LinearOrder κ] in
theorem toList_eq_nil_iff {s : SplayTree κ α} : s.toList = [] ↔ s.root = .nil := by
  constructor
  . intro h
    by_contra hne
    rw [toList_eq_parts hne] at h
    simp only [Parts.toList, parts, List.append_eq_nil_iff] at h
    exact hne (Tree.toList_eq_nil_iff.mp h.2.1)
  . exact toList_of_root_eq_nil

theorem splayed_spec {s : SplayTree κ α} (h : s.WF) (hroot : s.root ≠ .nil) (key : κ)
    : SplayedAt key (s.splayed key) s.toList := by
  unfold splayed
  split
  . next heq =>
    rw [← heq]
    exact h.at_name hroot
  . have hne : assemble s.parts ≠ .nil := by
      intro hnil
      apply hroot
      rw [← toList_eq_nil_iff, toList, hnil, toList_nil]
    exact search_spec key hne h.sorted

omit [LinearOrder κ] in
@[simp]
theorem toList_ofRoot (d : κ) (t : Tree κ α) : (ofRoot d t).toList = t.toList := by
  cases t <;> simp [ofRoot, toList, parts, assemble, plugL, plugR]

theorem ofRoot_wf (d : κ) {t : Tree κ α} (h : Sorted t.toList) : (ofRoot d t).WF where
  sorted := by
    rw [toList_ofRoot]
    exact h
  at_name := by
    intro hroot
    rw [toList_ofRoot]
    cases t with
    | nil => simp [ofRoot] at hroot
    | node l k v r =>
      refine ⟨h, ?_, ?_, ?_, ?_⟩ <;> simp [ofRoot, parts, Parts.toList, Near, rootKey]

theorem init_wf (d : κ) : (init d : SplayTree κ α).WF := by
  constructor <;> simp [init, toList, parts, assemble, Sorted]

end SplayTree

end Splay
