import UtahMach.Ipc.Entry.Grow

/-!
This module contains the correctness of growing the table of a space.
-/

namespace Ipc

open Splay.SplayTree Space LinearProbe.WF

structure Grown (m : Nat → Option Right) (hashed : Nat → Bool) (free : List Nat) (osize nsize : Nat)
    (s : Space) : Prop where
  layout : Layout s.isTable s.isTableSize free (s.blank osize) s.isTree.get? m
  osize_pos : 0 < osize
  head_bits : (s.isTable 0).ieBits.type = .none ∧ (s.isTable 0).ieBits.gen = genMask
  free_lt : ∀ i ∈ free, i < osize
  chain : FreeChain s.isTable 0 free
  local_hash : LocalHash s (fun i => ¬ s.blank osize i ∧ s.hashedSlot hashed i)
  global_hash : GlobalHash s.bucket s.ihGlobal s.isTreeHash s.isTree.toList hashed
  tree_wf : s.isTree.WF
  tree_total : s.isTreeTotal = s.isTree.toList.length
  tree_small : s.isTreeSmall = treeSmall s.isTree.get? s.isTableSize nsize

theorem Moving.grown {done : List (Nat × Entry)} (h : Moving m hashed free osize s [] done)
    {tree : Splay.SplayTree Nat Entry} (hwf : tree.WF) (hperm : done.Perm tree.toList)
    {small : Nat} (hsmall : small = treeSmall tree.get? s.isTableSize nsize)
    : Grown m hashed free osize nsize { s with isTree := tree, isTreeSmall := small } := by
  have hget : Splay.assoc done = tree.get? := Splay.assoc_perm h.unique hperm
  exact { h with
    layout := by
      have hl := h.layout
      rw [hget] at hl
      exact hl
    global_hash := h.global_hash.perm hperm
    tree_wf := hwf
    tree_total := by
      rw [← hperm.length_eq]
      exact h.total
    tree_small := hsmall
  }

theorem split_sizes {t : Splay.SplayTree Nat Entry} (hwf : t.WF) (osize size nsize : Nat)
    : ∃ tree c small c' move ignore, t.split (machPortMake nsize 0) = (tree, c) ∧
        c.split (machPortMake size 0) = (small, c') ∧ c'.split (machPortMake osize 0) = (move, ignore) ∧
        tree.WF ∧ small.WF ∧ move.WF ∧ ignore.WF ∧
        t.toList = ignore.toList ++ (move.toList ++ (small.toList ++ tree.toList)) ∧
        (∀ e ∈ ignore.toList, machPortIndex e.1 < osize) ∧
        (∀ e ∈ move.toList, osize ≤ machPortIndex e.1 ∧ machPortIndex e.1 < size) ∧
        (∀ e ∈ small.toList, size ≤ machPortIndex e.1 ∧ machPortIndex e.1 < nsize) ∧
        (∀ e ∈ tree.toList, nsize ≤ machPortIndex e.1) := by
  have hlt_index : ∀ {a i : Nat}, a < machPortMake i 0 → machPortIndex a < i := by
    intro a i hab
    simp only [machPortMake, machPortIndex] at *
    omega
  have hle_index : ∀ {a i : Nat}, machPortMake i 0 ≤ a → i ≤ machPortIndex a := by
    intro a i hab
    simp only [machPortMake, machPortIndex] at *
    omega
  have h1 := split_spec hwf (machPortMake nsize 0)
  rcases hs1 : t.split (machPortMake nsize 0) with ⟨tree, c⟩
  rw [hs1] at h1
  obtain ⟨htree, hc, hlist, hlt, hge⟩ := h1
  have h2 := split_spec hc (machPortMake size 0)
  rcases hs2 : c.split (machPortMake size 0) with ⟨small, c'⟩
  rw [hs2] at h2
  obtain ⟨hsmall, hc', hlist', hlt', hge'⟩ := h2
  have h3 := split_spec hc' (machPortMake osize 0)
  rcases hs3 : c'.split (machPortMake osize 0) with ⟨move, ignore⟩
  rw [hs3] at h3
  obtain ⟨hmove, hignore, hlist'', hlt'', hge''⟩ := h3
  refine ⟨tree, c, small, c', move, ignore, rfl, hs2, hs3, htree, hsmall, hmove, hignore, ?_, ?_, ?_, ?_, ?_⟩
  . rw [hlist, hlist', hlist'']
    simp only [List.append_assoc]
  . intro e he
    exact hlt_index (hlt'' e he)
  . intro e he
    refine ⟨hle_index (hge'' e he), hlt_index (hlt' e ?_)⟩
    rw [hlist'']
    exact List.mem_append_right _ he
  . intro e he
    refine ⟨hle_index (hge' e he), hlt_index (hlt e ?_)⟩
    rw [hlist']
    exact List.mem_append_right _ he
  . intro e he
    exact hle_index (hge e he)

theorem lt_of_machPortIndex_lt {a b i : Nat} (ha : machPortIndex a < i) (hb : i ≤ machPortIndex b) : a < b := by
  simp only [machPortIndex] at *
  omega

theorem join_sizes {tree small move ignore : Splay.SplayTree Nat Entry} (htree : tree.WF)
    (hsmall : small.WF) (hmove : move.WF) (hignore : ignore.WF) (hle : osize ≤ size) (hle' : size ≤ nsize)
    (hi : ∀ e ∈ ignore.toList, machPortIndex e.1 < osize)
    (hm : ∀ e ∈ move.toList, osize ≤ machPortIndex e.1 ∧ machPortIndex e.1 < size)
    (hs : ∀ e ∈ small.toList, size ≤ machPortIndex e.1 ∧ machPortIndex e.1 < nsize)
    (ht : ∀ e ∈ tree.toList, nsize ≤ machPortIndex e.1) : (join machPortSmallest (join machPortSmallest
          (join machPortSmallest tree small) move) ignore).WF ∧ (join machPortSmallest (join machPortSmallest
          (join machPortSmallest tree small) move) ignore).toList =
        ignore.toList ++ (move.toList ++ (small.toList ++ tree.toList)) := by
  have hmin : ∀ xs : List (Nat × Entry), ∀ e ∈ xs, machPortSmallest ≤ e.1 := fun _ e _ => Nat.zero_le e.1
  obtain ⟨hwf1, hlist1⟩ := join_spec machPortSmallest htree hsmall
    (fun a ha b hb => lt_of_machPortIndex_lt (hs a ha).2 (ht b hb)) (hmin _)
  obtain ⟨hwf2, hlist2⟩ := join_spec machPortSmallest hwf1 hmove
    (by
      intro a ha b hb
      apply lt_of_machPortIndex_lt (hm a ha).2
      rw [hlist1, List.mem_append] at hb
      rcases hb with hb | hb
      . exact (hs b hb).1
      . exact Nat.le_trans hle' (ht b hb))
    (hmin _)
  obtain ⟨hwf3, hlist3⟩ := join_spec machPortSmallest hwf2 hignore
    (by
      intro a ha b hb
      apply lt_of_machPortIndex_lt (hi a ha)
      rw [hlist2, hlist1, List.mem_append, List.mem_append] at hb
      rcases hb with hb | hb | hb
      . exact (hm b hb).1
      . exact Nat.le_trans hle (hs b hb).1
      . exact Nat.le_trans hle (Nat.le_trans hle' (ht b hb)))
    (hmin _)
  exact ⟨hwf3, by rw [hlist3, hlist2, hlist1]⟩

theorem Rep.moving (h : Rep s m hashed free) (tree : Splay.SplayTree Nat Entry)
    (hle : s.isTableSize ≤ size) {isIndex : Nat → Nat} {rem done : List (Nat × Entry)}
    (hlocal : LocalHash { growCopy s s.isTableSize size with isIndex := isIndex } (s.hashedSlot hashed))
    (hperm : s.isTree.toList.Perm (rem ++ done))
    (hrem : ∀ x ∈ rem, s.isTableSize ≤ machPortIndex x.1 ∧ machPortIndex x.1 < size)
    (hdone : ∀ x ∈ done, ¬ (s.isTableSize ≤ machPortIndex x.1 ∧ machPortIndex x.1 < size))
    : Moving m hashed free s.isTableSize
        { growCopy s s.isTableSize size with isIndex := isIndex, isTree := tree } rem done := by
  have hpos : 0 < s.isTableSize := by
    have := h.size_range
    omega
  have hunique := h.unique.perm hperm
  have hget : ∀ n e, s.isTree.get? n = some e ↔ (n, e) ∈ rem ∨ (n, e) ∈ done := by
    intro n e
    rw [← h.mem_tree, hperm.mem_iff, List.mem_append]
  have hblank : ∀ i, blank { growCopy s s.isTableSize size with isIndex := isIndex, isTree := tree }
      s.isTableSize i ↔ s.isTableSize ≤ i ∧ i < size := by
    intro i
    constructor
    . exact fun hb => ⟨hb.1, hb.2.1⟩
    . rintro ⟨h1, h2⟩
      exact ⟨h1, h2, if_neg (by omega)⟩
  have hassoc : Splay.assoc done = fun n =>
      if s.isTableSize ≤ machPortIndex n ∧ machPortIndex n < size then none
      else s.isTree.get? n := by
    funext n
    apply Option.ext
    intro e
    rw [Splay.assoc_eq_some_iff (List.Nodup.sublist
      ((List.sublist_append_right rem done).map Prod.fst) hunique)]
    constructor
    . intro hin
      rw [if_neg (hdone _ hin), hget]
      exact Or.inr hin
    . intro hin
      split at hin
      . contradiction
      . next hout =>
        rcases (hget n e).mp hin with hin | hin
        . exact absurd (hrem _ hin) hout
        . exact hin
  -- A name that is left out because of its index is in the tree, so it waits there.
  have hvisible : (fun n => if n ∈ rem.map Prod.fst then none else m n) = fun n =>
      if s.isTableSize ≤ machPortIndex n ∧ machPortIndex n < size then none else m n := by
    funext n
    by_cases hin : n ∈ rem.map Prod.fst
    . obtain ⟨x, hx, rfl⟩ := List.mem_map.mp hin
      rw [if_pos hin, if_pos (hrem x hx)]
    . rw [if_neg hin]
      split
      . next hr =>
        by_contra hne
        cases htree : s.isTree.get? n with
        | none =>
          have := (h.layout.complete n hne htree).2.1
          omega
        | some e =>
          rcases (hget n e).mp htree with hmem | hmem
          . exact hin (List.mem_map.mpr ⟨_, hmem, rfl⟩)
          . exact hdone _ hmem hr
      . rfl
  have hlow : ∀ i, i < s.isTableSize →
      (growCopy s s.isTableSize size).isTable i = s.isTable i := by
    intro i hi
    simp [growCopy, hi]
  exact {
    layout := by
      rw [hvisible, hassoc, show blank _ s.isTableSize =
        fun i => s.isTableSize ≤ i ∧ i < size from funext fun i => propext (hblank i)]
      exact h.layout.grow hpos hle
    osize_pos := hpos
    head_bits := by
      have hzero := hlow 0 hpos
      simp only [hzero]
      exact h.head_bits
    free_lt := fun i hi => (h.layout.free_range i hi).2
    chain := by
      apply h.chain.congr
      . show ((growCopy s s.isTableSize size).isTable 0).ieNext = _
        rw [hlow 0 hpos]
      . intro j hj
        show ((growCopy s s.isTableSize size).isTable j).ieNext = _
        rw [hlow j (h.layout.free_range j hj).2]
    local_hash := by
      refine congr hlocal ?_ (fun _ _ => rfl)
      intro i
      rw [hblank]
      unfold hashedSlot
      by_cases hi : i < s.isTableSize
      . show _ ↔ _ ∧ 0 < i ∧ i < size ∧
          hashed (machPortMake i ((growCopy s s.isTableSize size).isTable i).ieBits.gen) = true
        rw [hlow i hi]
        have h1 : i < size := by omega
        simp [hi, h1]
      . refine iff_of_false (fun hc => hi hc.2.1) ?_
        rintro ⟨hnb, -, hlt, -⟩
        exact hnb ⟨by omega, hlt⟩
    global_hash := h.global_hash.perm hperm
    total := by
      rw [← hperm.length_eq]
      exact h.tree_total
    unique := hunique
    rem_entry := by
      rintro ⟨n, e⟩ hin
      obtain ⟨hlo, hlt⟩ := hrem _ hin
      exact ⟨hlo, hlt, h.layout.tree_entry n e ((hget n e).mpr (Or.inl hin))⟩
  }

theorem growTree_spec (h : Rep s m hashed free) (hsettled : Settled m) (hagree : Agree m hashed)
    (hle : s.isTableSize ≤ size) (hle' : size ≤ nsize) {isIndex : Nat → Nat}
    (hlocal : LocalHash { growCopy s s.isTableSize size with isIndex := isIndex } (s.hashedSlot hashed))
    : ∃ s', growTree { growCopy s s.isTableSize size with isIndex := isIndex } s.isTableSize size
          nsize = some s' ∧
        Grown m hashed free s.isTableSize nsize s' ∧ s'.isActive = s.isActive ∧
        s'.isGrowing = s.isGrowing ∧ s'.isTableSize = size ∧
        s'.isTableNext = s.isTableNext + 1 := by
  have hpos := h.size_range.1
  by_cases htotal : 0 < s.isTreeTotal
  . obtain ⟨tree, c, small, c', move, ignore, hs1, hs2, hs3, htree, hsmall, hmove, hignore, hlist,
      hiI, hmI, hsI, htI⟩ := split_sizes h.tree_wf s.isTableSize size nsize
    have hmemList : ∀ x, x ∈ ignore.toList ∨ x ∈ move.toList ∨ x ∈ small.toList ∨ x ∈ tree.toList →
        x.1 ≤ machPortLargest := by
      intro x hx
      apply h.tree_le_largest x
      simpa [hlist] using hx
    -- The entries that move.
    have hmoving : Moving m hashed free s.isTableSize
        { growCopy s s.isTableSize size with isIndex := isIndex, isTree := tree } move.toList
        (ignore.toList ++ (small.toList ++ tree.toList)) := by
      apply h.moving tree hle hlocal
      . rw [hlist]
        exact List.perm_append_comm_assoc _ _ _
      . exact hmI
      . intro x hx
        rw [List.mem_append, List.mem_append] at hx
        rcases hx with hx | hx | hx
        . have := hiI x hx
          omega
        . have := (hsI x hx).1
          omega
        . have := htI x hx
          omega
    obtain ⟨s2, done', hvisit, hmoved, hperm, hframe⟩ := growMove_spec hmoving hagree h.hashed_object hsettled
    obtain ⟨move', htrav, hmove', hmlist⟩ := Splay.traverse_spec machPortLargest
      (growMoveStep s.isTableSize size) hmove (fun x hx => hmemList x (Or.inr (Or.inl hx)))
      (some { growCopy s s.isTableSize size with isIndex := isIndex, isTree := tree })
    have hmI' : ∀ e ∈ move'.toList, s.isTableSize ≤ machPortIndex e.1 ∧ machPortIndex e.1 < size := by
      intro e he
      rw [hmlist] at he
      exact hmI e ((Splay.visit_sublist _ _ _).subset he)
    -- The entries that are counted.
    obtain ⟨small', htrav', hsmall', hslist⟩ := Splay.traverse_spec machPortLargest
      growCountStep hsmall (fun x hx => hmemList x (Or.inr (Or.inr (Or.inl hx)))) (0, 0)
    have hkept : small'.toList = small.toList := by
      rw [hslist]
      exact (growCount_spec _ hsmall.sorted 0 0 (fun _ _ => Nat.zero_le _)).2
    obtain ⟨hwf, hjoin⟩ := join_sizes htree hsmall' hmove' hignore hle hle' hiI hmI'
      (by rw [hkept]; exact hsI) htI
    generalize htree' : join machPortSmallest
      (join machPortSmallest
        (join machPortSmallest tree small') move') ignore = tree' at hwf hjoin
    have hperm' : done'.Perm tree'.toList := by
      refine hperm.trans ?_
      rw [hjoin, hkept, hmlist]
      exact List.perm_append_comm_assoc _ _ _
    have hhas : ∀ i, size ≤ i → i < nsize →
        (HasIndex tree'.get? i ↔ ∃ x ∈ small.toList, machPortIndex x.1 = i) := by
      intro i hlo hhi
      simp only [HasIndex, Option.ne_none_iff_exists', get?_eq_some_iff hwf, hjoin, hkept, List.mem_append]
      constructor
      . rintro ⟨n, rfl, e, hin | hin | hin | hin⟩
        . have := hiI _ hin
          simp only at this
          omega
        . have := (hmI' _ hin).2
          simp only at this
          omega
        . exact ⟨_, hin, rfl⟩
        . have := htI _ hin
          simp only at this
          omega
      . rintro ⟨⟨n, e⟩, hin, rfl⟩
        exact ⟨n, rfl, e, Or.inr (Or.inr (Or.inl hin))⟩
    obtain ⟨hcount, -, hbound, hlength⟩ := growCount_eq_treeSmall tree'.get?
      (by omega) hsmall.sorted hsI hhas
    have hsize2 : s2.isTableSize = size := hframe.size
    have hlength' : treeSmall tree'.get? size nsize ≤ s2.isTreeTotal := by
      rw [hmoved.total, List.nil_append, hperm'.length_eq, hjoin, hkept]
      simp only [List.length_append]
      omega
    have hstree : s2.isTree = tree := hframe.tree
    refine ⟨{ s2 with isTree := tree', isTreeSmall := treeSmall tree'.get? size nsize }, ?_,
      hmoved.grown hwf hperm' (by rw [hsize2]), hframe.active, hframe.growing, hsize2, hframe.next⟩
    have hvisit' : (Splay.visit (growMoveStep s.isTableSize size)
        (some { growCopy s s.isTableSize size with isIndex := isIndex, isTree := tree })
        move.toList).1 = some s2 := hvisit
    rw [hvisit'] at htrav
    have hprod : ∀ p : Nat × Nat, p = (p.1, p.2) := fun p => rfl
    rw [hprod (Splay.visit growCountStep (0, 0) small.toList).1, hcount] at htrav'
    have htotal' : 0 < (growCopy s s.isTableSize size).isTreeTotal := htotal
    have hs1' : (growCopy s s.isTableSize size).isTree.split (machPortMake nsize 0) = (tree, c) := hs1
    simp only [growTree, htotal', if_true, hs1', hs2, hs3, htrav, htrav', Option.bind_eq_bind,
      Option.bind_some, hbound, hlength', assert_of_true, hstree, htree', Option.pure_def]
  . have hnil : s.isTree.toList = [] := by
      rw [← List.length_eq_zero_iff, ← h.tree_total]
      omega
    have hmoving : Moving m hashed free s.isTableSize
        { growCopy s s.isTableSize size with isIndex := isIndex } [] [] := by
      apply h.moving s.isTree hle hlocal
      . rw [hnil]
        exact List.Perm.refl _
      . simp
      . simp
    have hno : ∀ i, ¬ HasIndex s.isTree.get? i := by
      rintro i ⟨n, -, hne⟩
      exact hne (not_mem_of_total_eq_zero h (by omega))
    have hsmall : s.isTreeSmall = treeSmall s.isTree.get? size nsize := by
      rw [h.tree_small, treeSmall_eq_zero hno, treeSmall_eq_zero hno]
    refine ⟨{ growCopy s s.isTableSize size with isIndex := isIndex }, ?_,
      hmoving.grown h.tree_wf (by rw [hnil]) hsmall, rfl, rfl, rfl, rfl⟩
    exact if_neg htotal

theorem Grown.freeing (h : Grown m hashed free osize nsize s) (hnodup : free.Nodup)
    : Freeing m hashed osize s.isTree.get? s (s.isTable 0).ieNext free
        (List.range' osize (s.isTableSize - osize)).reverse where
  layout := h.layout
  osize_pos := h.osize_pos
  head_bits := h.head_bits
  chain := by
    apply h.chain.congr
    . rw [setNext, setTable_self]
      rfl
    . intro j hj
      rw [setNext, setTable_of_ne _ _ (h.chain.ne_zero j hj)]
  nodup := hnodup
  local_hash := h.local_hash
  rem_nodup := List.nodup_reverse.mpr List.nodup_range'
  rem_range := by
    intro i hi
    rw [List.mem_reverse, List.mem_range'_1] at hi
    refine ⟨hi.1, by omega, ?_⟩
    intro hin
    have := h.free_lt i hin
    omega
  blank_rem := by
    rintro i ⟨h1, h2, -⟩
    rw [List.mem_reverse, List.mem_range'_1]
    omega

theorem growOnce_eq (s : Space) (osize size nsize : Nat) : growOnce s osize size nsize =
        ((List.range osize).foldlM growRehash (growCopy s osize size)).bind fun s =>
          (growTree s osize size nsize).bind fun s =>
            let st := (List.range' osize (size - osize)).reverse.foldl growFree
              (s, (s.isTable 0).ieNext)
            some (st.1.setNext 0 st.2) := rfl

theorem growOnce_spec (h : Rep s m hashed free) (hsettled : Settled m) (hagree : Agree m hashed)
    (hnext : s.isTableNext ≤ 510)
    : ∃ s' free', growOnce s s.isTableSize (itsSize s.isTableNext) (itsSize (s.isTableNext + 1)) = some s' ∧
        Rep s' m hashed free' ∧ s'.isTableNext = s.isTableNext + 1 := by
  have hle := h.size_le_next
  have hle' := itsSize_le_succ (i := s.isTableNext) (by omega)
  generalize hsize : itsSize s.isTableNext = size at hle hle' ⊢
  generalize hnsize : itsSize (s.isTableNext + 1) = nsize at hle' ⊢
  obtain ⟨isIndex, hrehash, hlocal⟩ := growRehash_spec h hagree hle s.isTableSize (Nat.le_refl _)
  replace hlocal : LocalHash
      { growCopy s s.isTableSize size with isIndex := isIndex } (s.hashedSlot hashed) := by
    refine congr hlocal ?_ (fun _ _ => rfl)
    intro i
    exact ⟨fun hi => hi.2, fun hi => ⟨hi.2.1, hi⟩⟩
  obtain ⟨s1, htree, hgrown, hactive, hgrowing, hsize1, hnext1⟩ := growTree_spec h hsettled hagree hle hle' hlocal
  have hnone : ∀ n, hashed n = true → m n ≠ none := by
    intro n hh
    obtain ⟨r, hr, -⟩ := h.hashed_object n hh
    simp [hr]
  obtain ⟨table', first', free', hfold, hfreeing⟩ := growFree_spec (hgrown.freeing h.nodup) hsettled hnone
  have hlen : s1.isTableSize - s.isTableSize = size - s.isTableSize := by
    rw [hsize1]
  rw [hlen] at hfold
  refine ⟨({ s1 with isTable := table' } : Space).setNext 0 first', free', ?_, ?_, hnext1⟩
  . rw [growOnce_eq, hrehash, Option.bind_some, htree, Option.bind_some, hfold]
  . have hnb : ∀ i, ¬ blank { s1 with isTable := table' } s.isTableSize i := fun i hb =>
      List.not_mem_nil (hfreeing.blank_rem i hb)
    have hother : ∀ i, 0 < i →
        (({ s1 with isTable := table' } : Space).setNext 0 first').isTable i = table' i := fun i hi =>
      setTable_of_ne _ _ (by omega)
    exact { hgrown with
      active := hactive.trans h.active
      growing := hgrowing.trans h.growing
      next_range := by
        show 1 ≤ s1.isTableNext ∧ s1.isTableNext ≤ 511
        omega
      size_eq := by
        show s1.isTableSize = itsSize (s1.isTableNext - 1)
        rw [hsize1, hnext1, Nat.add_sub_cancel, hsize]
      bound := h.bound
      layout := hfreeing.layout.congr_table (by rw [setNext, setTable_self]) hother (fun i => ⟨False.elim, hnb i⟩)
      head_bits := by
        exact hfreeing.head_bits
      chain := hfreeing.chain
      nodup := hfreeing.nodup
      tree_small := by
        show s1.isTreeSmall = treeSmall s1.isTree.get? s1.isTableSize (itsSize s1.isTableNext)
        rw [hgrown.tree_small, hnext1, hnsize]
      local_hash := by
        refine congr hfreeing.local_hash ?_ ?_
        . intro i
          unfold hashedSlot
          constructor
          . rintro ⟨-, hpos, hh⟩
            rw [hother i hpos]
            exact ⟨hpos, hh⟩
          . rintro ⟨hpos, hh⟩
            rw [hother i hpos] at hh
            exact ⟨hnb i, hpos, hh⟩
        . rintro i ⟨-, hpos, -⟩
          unfold home
          rw [hother i hpos]
          rfl
      hashed_object := h.hashed_object
    }

theorem treeSmall_self (tree : Nat → Option Entry) (i : Nat) : treeSmall tree i i = 0 := by
  simp [treeSmall]

theorem Rep.size_lt_next (h : Rep s m hashed free) (hnext : s.isTableNext ≠ 511)
    : s.isTableSize < itsSize s.isTableNext := by
  have hn := h.next_range
  have hlt := itsSize_lt_succ (i := s.isTableNext - 1) (by omega)
  rw [Nat.sub_add_cancel hn.1] at hlt
  rw [h.size_eq]
  exact hlt

theorem Rep.size_eq_next (h : Rep s m hashed free) (hnext : s.isTableNext = 511)
    : s.isTableSize = itsSize s.isTableNext := by
  rw [h.size_eq, hnext]
  exact itsSize_last.symm

structure GrowResult (m : Nat → Option Right) (hashed : Nat → Bool) (s s' : Space) (kr : KernReturn)
    : Prop where
  rep : ∃ free', Rep s' m hashed free'
  success : kr = .success → s.isTableNext < s'.isTableNext
  noSpace : kr = .noSpace → s.isTableNext = 511

theorem ipcEntryGrowTable_spec (h : Rep s m hashed free) (hsettled : Settled m)
    (hagree : Agree m hashed) (fuel : Nat) (hfuel : 512 - s.isTableNext ≤ fuel) (mem : Memory)
    : ∃ kr mem' s', ipcEntryGrowTable fuel mem s = some (kr, mem', s') ∧ GrowResult m hashed s s' kr := by
  induction fuel generalizing s free mem with
  | zero =>
    have := h.next_range
    omega
  | succ fuel ih =>
    have hact : assert (s.isActive = true) = some () := assert_of_true h.active
    by_cases hlast : s.isTableNext = 511
    . refine ⟨.noSpace, mem, s, ?_, ⟨free, h⟩, by simp, fun _ => hlast⟩
      have heq := h.size_eq_next hlast
      rw [h.size_eq] at heq
      simp [ipcEntryGrowTable, hact, h.growing, heq]
    . have hlt := h.size_lt_next hlast
      have hn := h.next_range
      have hle' := itsSize_le_succ (i := s.isTableNext) (by omega)
      rw [h.size_eq] at hlt
      rcases hmem : mem.alloc with ⟨ok, mem'⟩
      cases ok with
      | false =>
        refine ⟨.resourceShortage, mem', s, ?_, ⟨free, h⟩, by simp, by simp⟩
        simp [ipcEntryGrowTable, hact, h.growing, hlt.ne, hlt, hle', hmem]
      | true =>
        obtain ⟨s1, free1, honce, hrep, hnext⟩ := growOnce_spec h hsettled hagree (by omega)
        rw [h.size_eq] at honce
        have hunfold : ipcEntryGrowTable (fuel + 1) mem s =
            if 0 < s1.isTreeSmall ∧ (itsSize (s.isTableNext + 1) - itsSize s.isTableNext) *
                entryBytes < s1.isTreeSmall * treeEntryBytes then
              ipcEntryGrowTable fuel mem' s1
            else some (.success, mem', s1) := by
          simp [ipcEntryGrowTable, hact, h.growing, hlt.ne, hlt, hle', hmem, h.size_eq, honce]
        rw [hunfold]
        split
        . next hagain =>
          obtain ⟨kr, mem'', s', hgrow, hres⟩ := ih hrep (by omega) mem'
          refine ⟨kr, mem'', s', hgrow, hres.rep, ?_, ?_⟩
          . intro hkr
            have := hres.success hkr
            omega
          . -- No names fit into a next table that is not bigger.
            intro hkr
            have h511 := hres.noSpace hkr
            have hsmall := hrep.tree_small
            rw [hrep.size_eq_next h511, treeSmall_self] at hsmall
            omega
        . exact ⟨.success, mem', s1, rfl, ⟨free1, hrep⟩, fun _ => by omega, by simp⟩

end Ipc
