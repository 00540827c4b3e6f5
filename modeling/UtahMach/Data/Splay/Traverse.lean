import UtahMach.Data.Splay.Ops

/-!
This module contains the symmetric order traversal of a splay tree by pointer reversal.
-/

namespace Splay

inductive Frame (κ : Type) (α : Type) where
  | left (k : κ) (v : α) (r : Tree κ α) : Frame κ α
  | right (l : Tree κ α) (k : κ) (v : α) : Frame κ α

structure Cursor (κ : Type) (α : Type) where
  l : Tree κ α
  k : κ
  v : α
  r : Tree κ α
  parents : List (Frame κ α)

inductive Progress (κ : Type) (α : Type) where
  | done (t : Tree κ α) : Progress κ α
  | entry (c : Cursor κ α) : Progress κ α

def traverseLeft : Tree κ α → List (Frame κ α) → Option (Progress κ α)
  | .nil, _ => none
  | .node .nil k v r, ps => some (.entry ⟨.nil, k, v, r, ps⟩)
  | .node (.node ll lk lv lr) k v r, ps =>
    traverseLeft (.node ll lk lv lr) (.left k v r :: ps)

variable [LinearOrder κ]

def traverseBack (key : κ) (cur : Tree κ α) : List (Frame κ α) → Option (Progress κ α)
  | [] => some (.done cur)
  | .left k v r :: ps => if key < k then some (.entry ⟨cur, k, v, r, ps⟩) else none
  | .right l k v :: ps => if key < k then none else traverseBack k (.node l k v cur) ps

def traverseRight (c : Cursor κ α) : Option (Progress κ α) :=
  match c.r with
  | .nil => traverseBack c.k (.node c.l c.k c.v .nil) c.parents
  | .node .. => traverseLeft c.r (.right c.l c.k c.v :: c.parents)

def traverseDelete (largest : κ) (c : Cursor κ α) : Option (Progress κ α) :=
  match c.l, c.r with
  | .nil, .nil => traverseBack c.k .nil c.parents
  | .nil, .node l k v r => traverseLeft (.node l k v r) c.parents
  | .node l k v r, .nil => traverseBack k (.node l k v r) c.parents
  | .node l k v r, .node .. =>
    -- The largest of the left children takes the place of the entry.
    match assemble (search largest (.node l k v r) [] []) with
    | .nil => none
    | .node l k v _ => traverseRight ⟨l, k, v, c.r, c.parents⟩

def traverseNext (largest : κ) (delete : Bool) (c : Cursor κ α) : Option (Progress κ α) :=
  if delete then traverseDelete largest c else traverseRight c

def traverseStart (s : SplayTree κ α) : Option (Progress κ α) :=
  match s.root with
  | .nil => some (.done .nil)
  | .node .. => traverseLeft (assemble s.parts) []

def traverseLoop (largest : κ) (f : σ → κ → α → σ × Bool)
    : Nat → σ → Progress κ α → Option (σ × Tree κ α)
  | _, st, .done t => some (st, t)
  | 0, _, .entry _ => none
  | n + 1, st, .entry c =>
    let (st, delete) := f st c.k c.v
    match traverseNext largest delete c with
    | none => none
    | some p => traverseLoop largest f n st p

def traverse (largest : κ) (f : σ → κ → α → σ × Bool) (st : σ) (s : SplayTree κ α)
    : Option (σ × SplayTree κ α) :=
  match traverseStart s with
  | none => none
  | some p =>
    match traverseLoop largest f s.toList.length st p with
    | none => none
    | some (st, t) => some (st, SplayTree.ofRoot s.name t)

def before : List (Frame κ α) → List (κ × α)
  | [] => []
  | .left _ _ _ :: ps => before ps
  | .right l k v :: ps => before ps ++ (l.toList ++ [(k, v)])

def after : List (Frame κ α) → List (κ × α)
  | [] => []
  | .left k v r :: ps => (k, v) :: (r.toList ++ after ps)
  | .right _ _ _ :: ps => after ps

def Progress.At (xs ys : List (κ × α)) : Progress κ α → Prop
  | .done t => t.toList = xs ∧ ys = []
  | .entry c => before c.parents ++ c.l.toList = xs ∧
      (c.k, c.v) :: (c.r.toList ++ after c.parents) = ys

omit [LinearOrder κ] in
theorem traverseLeft_spec {t : Tree κ α} (hne : t ≠ .nil) (ps : List (Frame κ α))
    : ∃ p, traverseLeft t ps = some p ∧ p.At (before ps) (t.toList ++ after ps) := by
  fun_induction traverseLeft t ps with
  | case1 => contradiction
  | case2 k v r ps => exact ⟨_, rfl, by simp, by simp⟩
  | case3 ll lk lv lr k v r ps ih =>
    obtain ⟨p, hp, hat⟩ := ih (by simp)
    refine ⟨p, hp, ?_⟩
    simpa [before, after] using hat

theorem traverseBack_spec (key : κ) (cur : Tree κ α)
    (hl : ∀ e ∈ before ps, e.1 < key) (hr : ∀ e ∈ after ps, key < e.1) (hs : Sorted (before ps))
    : ∃ p, traverseBack key cur ps = some p ∧ p.At (before ps ++ cur.toList) (after ps) := by
  induction ps generalizing key cur with
  | nil => exact ⟨_, rfl, by simp [before], rfl⟩
  | cons f ps ih =>
    cases f with
    | left k v r =>
      have hlt : key < k := hr (k, v) (by simp [after])
      refine ⟨.entry ⟨cur, k, v, r, ps⟩, ?_, rfl, rfl⟩
      simp only [traverseBack, hlt, if_true]
    | right l k v =>
      have hgt : k < key := hl (k, v) (by simp [before])
      simp only [before] at hs
      rw [← List.append_assoc, sorted_append] at hs
      obtain ⟨p, hp, hat⟩ := ih k (.node l k v cur)
        (fun e he => hs.2.2 e (List.mem_append_left _ he) _ (List.mem_singleton_self _))
        (fun e he => hgt.trans (hr e he))
        (sorted_append.mp hs.1).1
      refine ⟨p, ?_, ?_⟩
      . simp only [traverseBack, hgt.not_gt, if_false]
        exact hp
      . simpa [before, after] using hat

theorem traverseRight_spec {c : Cursor κ α}
    (hs : Sorted (before c.parents ++ c.l.toList ++ (c.k, c.v) :: (c.r.toList ++ after c.parents)))
    : ∃ p, traverseRight c = some p ∧
        p.At (before c.parents ++ c.l.toList ++ [(c.k, c.v)]) (c.r.toList ++ after c.parents) := by
  match hr : c.r with
  | .nil =>
    rw [hr, sorted_append, sorted_cons, sorted_append] at hs
    obtain ⟨⟨hb, -, -⟩, ⟨ha, -⟩, hba⟩ := hs
    obtain ⟨p, hp, hat⟩ := traverseBack_spec c.k (.node c.l c.k c.v .nil)
      (fun e he => hba e (List.mem_append_left _ he) _ List.mem_cons_self)
      (fun e he => ha e (by simpa using he)) hb
    refine ⟨p, ?_, ?_⟩
    . simpa only [traverseRight, hr] using hp
    . simpa using hat
  | .node l k v r =>
    obtain ⟨p, hp, hat⟩ := traverseLeft_spec (t := .node l k v r) (by simp) (.right c.l c.k c.v :: c.parents)
    refine ⟨p, ?_, ?_⟩
    . simpa only [traverseRight, hr] using hp
    . simpa [before, after] using hat

theorem traverseDelete_spec (largest : κ) {c : Cursor κ α}
    (hs : Sorted (before c.parents ++ c.l.toList ++ (c.k, c.v) :: (c.r.toList ++ after c.parents)))
    (hmax : ∀ e ∈ c.l.toList, e.1 ≤ largest) : ∃ p, traverseDelete largest c = some p ∧
        p.At (before c.parents ++ c.l.toList) (c.r.toList ++ after c.parents) := by
  have hs' := hs
  rw [sorted_append, sorted_cons, sorted_append, sorted_append] at hs'
  obtain ⟨⟨hb, hl, hbl⟩, ⟨ha, hr, haft, hra⟩, hba⟩ := hs'
  match hcl : c.l, hcr : c.r with
  | .nil, .nil =>
    rw [hcr] at ha
    obtain ⟨p, hp, hat⟩ := traverseBack_spec c.k .nil
      (fun e he => hba e (List.mem_append_left _ he) _ List.mem_cons_self)
      (fun e he => ha e (by simpa using he)) hb
    exact ⟨p, by simpa only [traverseDelete, hcl, hcr] using hp, by simpa using hat⟩
  | .nil, .node l k v r =>
    obtain ⟨p, hp, hat⟩ := traverseLeft_spec (t := .node l k v r) (by simp) c.parents
    exact ⟨p, by simpa only [traverseDelete, hcl, hcr] using hp, by simpa using hat⟩
  | .node l k v r, .nil =>
    rw [hcl] at hbl hba
    have hk : (k, v) ∈ (Tree.node l k v r).toList := by simp
    obtain ⟨p, hp, hat⟩ := traverseBack_spec k (.node l k v r)
      (fun e he => hbl e he _ hk)
      (fun e he => hba _ (List.mem_append_right _ hk) e (by simp [he])) hb
    exact ⟨p, by simpa only [traverseDelete, hcl, hcr] using hp, by simpa using hat⟩
  | .node l k v r, .node rl rk rv rr =>
    rw [hcl] at hl hmax
    obtain ⟨l', k', v', hasm, hlist⟩ := SplayTree.assemble_search_largest largest (by simp) hl hmax
    -- The cursor moves to the substitute, which has been passed already.
    have hsub : (before c.parents ++ l'.toList ++ (k', v') :: (c.r.toList ++ after c.parents)) =
        (before c.parents ++ (Tree.node l k v r).toList) ++ (c.r.toList ++ after c.parents) := by
      rw [← hlist]
      simp
    have hsorted : Sorted (before c.parents ++ l'.toList ++
        (k', v') :: (c.r.toList ++ after c.parents)) := by
      rw [hsub, ← hcl, sorted_append, sorted_append, sorted_append, hcl]
      rw [hcl] at hbl hba
      exact ⟨⟨hb, hl, hbl⟩, ⟨hr, haft, hra⟩, fun a ha b hb => hba a ha b (List.mem_cons_of_mem _ hb)⟩
    obtain ⟨p, hp, hat⟩ := traverseRight_spec (c := ⟨l', k', v', c.r, c.parents⟩) hsorted
    refine ⟨p, ?_, ?_⟩
    . simpa only [traverseDelete, hcl, hcr, hasm] using hp
    . rw [← hlist, ← hcr, ← List.append_assoc]
      exact hat

def visit (f : σ → κ → α → σ × Bool) (st : σ) : List (κ × α) → σ × List (κ × α)
  | [] => (st, [])
  | (k, v) :: xs =>
    let (st, delete) := f st k v
    let (st, kept) := visit f st xs
    (st, if delete then kept else (k, v) :: kept)

theorem traverseLoop_spec (f : σ → κ → α → σ × Bool)
    (hs : Sorted (xs ++ ys)) (hmax : ∀ e ∈ xs ++ ys, e.1 ≤ largest) {p : Progress κ α}
    (hp : p.At xs ys) (st : σ) (n : Nat) (hn : ys.length ≤ n)
    : ∃ t, traverseLoop largest f n st p = some ((visit f st ys).1, t) ∧ t.toList = xs ++ (visit f st ys).2 := by
  induction ys generalizing xs p st n with
  | nil =>
    cases p with
    | done t => exact ⟨t, by simp [traverseLoop, visit], by simp [visit, hp.1]⟩
    | entry c => exact absurd hp.2 (by simp)
  | cons y ys ih =>
    cases p with
    | done t => exact absurd hp.2 (by simp)
    | entry c =>
      obtain ⟨hx, hy⟩ := hp
      cases hy
      match n, hn with
      | n + 1, hn =>
        rw [← hx] at hs hmax
        have hlen : (c.r.toList ++ after c.parents).length ≤ n := by simpa using hn
        simp only [traverseLoop, traverseNext, visit]
        match hf : f st c.k c.v with
        | (st', true) =>
          obtain ⟨p, hp, hat⟩ := traverseDelete_spec largest hs (fun e he => hmax e (by simp [he]))
          have hs' : Sorted (before c.parents ++ c.l.toList ++
              (c.r.toList ++ after c.parents)) := by
            rw [sorted_append] at hs ⊢
            exact ⟨hs.1, (sorted_cons.mp hs.2.1).2, fun a ha b hb => hs.2.2 a ha b (List.mem_cons_of_mem _ hb)⟩
          obtain ⟨t, ht, hlist⟩ := ih hs'
            (fun e he => hmax e (by
              rw [List.mem_append] at he ⊢
              exact he.imp id (List.mem_cons_of_mem _)))
            hat st' n hlen
          refine ⟨t, ?_, ?_⟩
          . simpa [hp] using ht
          . rw [← hx]
            simpa using hlist
        | (st', false) =>
          obtain ⟨p, hp, hat⟩ := traverseRight_spec hs
          rw [List.append_cons] at hs hmax
          obtain ⟨t, ht, hlist⟩ := ih hs hmax hat st' n hlen
          refine ⟨t, ?_, ?_⟩
          . simpa [hp] using ht
          . rw [← hx]
            simpa using hlist

omit [LinearOrder κ] in
theorem visit_sublist (f : σ → κ → α → σ × Bool) (st : σ) (xs : List (κ × α)) : (visit f st xs).2.Sublist xs := by
  induction xs generalizing st with
  | nil => exact List.Sublist.refl _
  | cons x xs ih =>
    simp only [visit]
    split
    . exact (ih _).cons _
    . exact (ih _).cons_cons _

theorem traverse_spec (largest : κ) (f : σ → κ → α → σ × Bool) {s : SplayTree κ α} (h : s.WF)
    (hmax : ∀ e ∈ s.toList, e.1 ≤ largest) (st : σ)
    : ∃ s', traverse largest f st s = some ((visit f st s.toList).1, s') ∧ s'.WF ∧
        s'.toList = (visit f st s.toList).2 := by
  have hstart : ∃ p, traverseStart s = some p ∧ p.At [] s.toList := by
    by_cases hroot : s.root = .nil
    . refine ⟨.done .nil, by simp [traverseStart, hroot], rfl, ?_⟩
      exact SplayTree.toList_of_root_eq_nil hroot
    . have hne : assemble s.parts ≠ .nil := by
        rw [Ne, ← Tree.toList_eq_nil_iff]
        exact fun hnil => hroot (SplayTree.toList_eq_nil_iff.mp hnil)
      obtain ⟨p, hp, hat⟩ := traverseLeft_spec hne []
      refine ⟨p, ?_, by simpa [before, after, SplayTree.toList] using hat⟩
      unfold traverseStart
      split
      . contradiction
      . exact hp
  obtain ⟨p, hp, hat⟩ := hstart
  obtain ⟨t, ht, hlist⟩ := traverseLoop_spec f h.sorted hmax hat st _ (Nat.le_refl _)
  refine ⟨SplayTree.ofRoot s.name t, by simp [traverse, hp, ht], ?_, ?_⟩
  . apply SplayTree.ofRoot_wf
    rw [hlist]
    exact List.Pairwise.sublist (visit_sublist f st _) h.sorted
  . rw [SplayTree.toList_ofRoot]
    simpa using hlist

end Splay
