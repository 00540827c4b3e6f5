import UtahMach.Ipc.Entry.Dealloc

/-!
This module contains that a space represents the same map after its table has grown.
-/

namespace Ipc

open List (map_cons mem_cons mem_cons_of_mem mem_cons_self mem_map mem_toFinset nodup_cons)

open Space LinearProbe.WF

structure Frame (s s' : Space) : Prop where
  addr : s'.isAddr = s.isAddr
  mask : s'.ihGlobalMask = s.ihGlobalMask
  active : s'.isActive = s.isActive
  growing : s'.isGrowing = s.isGrowing
  size : s'.isTableSize = s.isTableSize
  next : s'.isTableNext = s.isTableNext
  tree : s'.isTree = s.isTree

theorem Frame.refl (s : Space) : Frame s s := by
  constructor <;> rfl

theorem Frame.trans {s s' s'' : Space} (h : Frame s s') (h' : Frame s' s'') : Frame s s'' where
  addr := h'.addr.trans h.addr
  mask := h'.mask.trans h.mask
  active := h'.active.trans h.active
  growing := h'.growing.trans h.growing
  size := h'.size.trans h.size
  next := h'.next.trans h.next
  tree := h'.tree.trans h.tree

def Space.blank (s : Space) (osize i : Nat) : Prop :=
  osize ≤ i ∧ i < s.isTableSize ∧ s.isTable i = ⟨.ofGen 0, ioNull, 0⟩

structure Moving (m : Nat → Option Right) (hashed : Nat → Bool) (free : List Nat) (osize : Nat)
    (s : Space) (rem done : List (Nat × Entry)) : Prop where
  layout : Layout s.isTable s.isTableSize free (s.blank osize) (Splay.assoc done)
    (fun n => if n ∈ rem.map Prod.fst then none else m n)
  osize_pos : 0 < osize
  head_bits : (s.isTable 0).ieBits.type = .none ∧ (s.isTable 0).ieBits.gen = genMask
  free_lt : ∀ i ∈ free, i < osize
  chain : FreeChain s.isTable 0 free
  local_hash : LocalHash s (fun i => ¬ s.blank osize i ∧ s.hashedSlot hashed i)
  global_hash : GlobalHash s.bucket s.ihGlobal s.isTreeHash (rem ++ done) hashed
  total : s.isTreeTotal = (rem ++ done).length
  unique : UniqueNames (rem ++ done)
  rem_entry : ∀ x ∈ rem, osize ≤ machPortIndex x.1 ∧ machPortIndex x.1 < s.isTableSize ∧
    m x.1 = some x.2.right ∧ x.2.ieBits.gen = 0 ∧ x.2.ieBits.collision = false

section Move

variable {m : Nat → Option Right} {hashed : Nat → Bool} {free : List Nat} {osize : Nat} {s : Space}
  {rem done : List (Nat × Entry)} {n : Nat} {e : Entry}

theorem visible_update (hu : UniqueNames (((n, e) :: rem) ++ done)) (hm : m n = some e.right)
    : (fun n' => if n' ∈ rem.map Prod.fst then none else m n') =
      Function.update (fun n' => if n' ∈ ((n, e) :: rem).map Prod.fst then none else m n') n (some e.right) := by
  funext n'
  by_cases hn : n' = n
  . subst hn
    have hnot : n' ∉ rem.map Prod.fst := by
      intro hin
      rw [UniqueNames, List.cons_append, map_cons, nodup_cons, List.map_append, List.mem_append] at hu
      exact hu.1 (Or.inl hin)
    rw [Function.update_self, if_neg hnot, hm]
  . rw [Function.update_of_ne hn]
    simp only [map_cons, mem_cons, hn, false_or]

section

variable (h : Moving m hashed free osize s ((n, e) :: rem) done)
include h

theorem Moving.take (hsettled : Settled m) (hblank : s.blank osize (machPortIndex n))
    (hself : s'.isTable (machPortIndex n) = e.orGen n)
    (hother : ∀ i, i ≠ machPortIndex n → s'.isTable i = s.isTable i) (hframe : Frame s s')
    (hlocal : LocalHash s' (fun i => (i = machPortIndex n ∧ hashed n = true) ∨
      (¬ s.blank osize i ∧ s.hashedSlot hashed i)))
    (hglobal : GlobalHash s.bucket s'.ihGlobal s'.isTreeHash (rem ++ done) hashed)
    (htotal : s'.isTreeTotal = s.isTreeTotal - 1) : Moving m hashed free osize s' rem done := by
  obtain ⟨hlo, hlt, hm, hgen, hcoll⟩ := h.rem_entry (n, e) mem_cons_self
  have hpos : 0 < machPortIndex n := Nat.lt_of_lt_of_le h.osize_pos hlo
  have hfree : machPortIndex n ∉ free := h.layout.blank_not_free _ hblank
  have hsize := hframe.size
  have hgen' := gen_orGen hgen n
  -- The slot is used now, because a right has been stored under the name.
  have hblank' : ∀ i, s'.blank osize i ↔ s.blank osize i ∧ i ≠ machPortIndex n := by
    intro i
    unfold blank
    rw [hsize]
    by_cases hi : i = machPortIndex n
    . subst hi
      simp only [hself, ne_eq, not_true_eq_false, and_false, iff_false, not_and]
      intro _ _ hc
      have htype : e.ieBits.type ≠ .none := hsettled n e.right hm
      exact htype (congrArg (fun x => x.ieBits.type) hc)
    . simp [hother i hi, hi]
  have hname : machPortMake (machPortIndex n) (e.orGen n).ieBits.gen = n := by
    rw [hgen', machPortMake_index_gen]
  exact { h with
    layout := by
      rw [visible_update h.unique hm, hsize]
      exact h.layout.take (e := e.orGen n) (Or.inr hblank)
        (fun i => ⟨fun hi => ⟨hi, by rintro rfl; exact hfree hi⟩, fun hi => hi.1⟩) hblank'
        hself hgen' hcoll (by rw [hother 0 hpos.ne]) (fun i _ _ hi _ => hother i hi)
        (fun i _ hi => by rw [hother i hi]; exact ⟨rfl, rfl⟩)
    head_bits := by
      rw [hother 0 (by omega)]
      exact h.head_bits
    chain := h.chain.congr_of_ne hpos.ne hfree hother
    local_hash := by
      refine congr hlocal ?_ (fun _ _ => rfl)
      intro i
      rw [hblank']
      unfold hashedSlot
      rw [hsize]
      by_cases hi : i = machPortIndex n
      . subst hi
        rw [hself, hname]
        simp [hblank, hpos, hlt]
      . rw [hother i hi]
        simp [hi]
    global_hash := by
      unfold bucket at hglobal ⊢
      rw [hframe.addr, hframe.mask]
      exact hglobal
    total := by
      have ht := h.total
      simp only [List.cons_append, List.length_cons] at ht
      omega
    unique := (nodup_cons.mp h.unique).2
    rem_entry := by
      intro x hx
      rw [hsize]
      exact h.rem_entry x (mem_cons_of_mem _ hx)
  }

theorem Moving.collide (hblank : ¬ s.blank osize (machPortIndex n))
    : Moving m hashed free osize (s.setCollision (machPortIndex n) true) rem ((n, e) :: done) := by
  obtain ⟨hlo, -, hm, hgen, hcoll⟩ := h.rem_entry (n, e) mem_cons_self
  have hpos : 0 < machPortIndex n := Nat.lt_of_lt_of_le h.osize_pos hlo
  have hfree : machPortIndex n ∉ free := fun hin => Nat.not_lt.mpr hlo (h.free_lt _ hin)
  have hperm : (((n, e) :: rem) ++ done).Perm (rem ++ (n, e) :: done) := List.perm_middle.symm
  have hself : (s.setCollision (machPortIndex n) true).isTable (machPortIndex n) =
      { s.isTable (machPortIndex n) with
        ieBits := { (s.isTable (machPortIndex n)).ieBits with collision := true } } :=
    setTable_self s _ _
  have hother : ∀ i, i ≠ machPortIndex n →
      (s.setCollision (machPortIndex n) true).isTable i = s.isTable i := fun i hi =>
    setTable_of_ne s _ hi
  have hblank' : ∀ i, (s.setCollision (machPortIndex n) true).blank osize i ↔ s.blank osize i := by
    intro i
    by_cases hi : i = machPortIndex n
    . subst hi
      refine iff_of_false ?_ hblank
      rintro ⟨-, -, hc⟩
      rw [hself] at hc
      exact absurd (congrArg (fun x => x.ieBits.collision) hc) (by simp [IeBits.ofGen])
    . unfold blank
      rw [hother i hi]
      rfl
  have hgen' : ∀ i, ((s.setCollision (machPortIndex n) true).isTable i).ieBits.gen =
      (s.isTable i).ieBits.gen ∧ ((s.setCollision (machPortIndex n) true).isTable i).ieObject =
      (s.isTable i).ieObject := by
    intro i
    by_cases hi : i = machPortIndex n
    . subst hi
      rw [hself]
      exact ⟨rfl, rfl⟩
    . rw [hother i hi]
      exact ⟨rfl, rfl⟩
  exact { h with
    layout := by
      rw [visible_update h.unique hm, Splay.assoc_cons, show blank _ osize = s.blank osize from
        funext fun i => propext (hblank' i)]
      refine h.layout.enter ?_ (fun _ => ⟨hfree, hblank⟩) hgen hcoll hother (fun _ => hself)
      simp
    head_bits := by
      rw [hother 0 (by omega)]
      exact h.head_bits
    chain := h.chain.congr_of_ne hpos.ne hfree hother
    local_hash := by
      refine congr h.local_hash ?_ ?_
      . intro i
        rw [hblank']
        unfold hashedSlot
        rw [(hgen' i).1]
        rfl
      . intro i _
        unfold home
        rw [(hgen' i).2]
        rfl
    global_hash := h.global_hash.perm hperm
    total := by
      rw [← hperm.length_eq]
      exact h.total
    unique := h.unique.perm hperm
    rem_entry := fun x hx => h.rem_entry x (mem_cons_of_mem _ hx)
  }

theorem growMoveEntry_spec
    (hagree : Agree m hashed) (hobj : ∀ n, hashed n = true → ∃ r, m n = some r ∧ r.object ≠ ioNull)
    (hsettled : Settled m) : ∃ s' delete, growMoveEntry osize s.isTableSize s n e = some (s', delete) ∧
        Moving m hashed free osize s' rem (if delete then done else (n, e) :: done) ∧ Frame s s' := by
  obtain ⟨hlo, hlt, hm, -, -⟩ := h.rem_entry (n, e) mem_cons_self
  have hpos : 0 < machPortIndex n := Nat.lt_of_lt_of_le h.osize_pos hlo
  have hfree : machPortIndex n ∉ free := fun hin => Nat.not_lt.mpr hlo (h.free_lt _ hin)
  have htype : e.ieBits.type ≠ .none := hsettled n e.right hm
  by_cases hblank : s.blank osize (machPortIndex n)
  . have hobj' : hashed n = true → e.ieObject ≠ ioNull := by
      intro hh
      obtain ⟨r, hr, hne⟩ := hobj n hh
      rw [hm] at hr
      cases hr
      exact hne
    obtain ⟨isIndex, buckets, count, hmove, hlocal, hglobal⟩ :=
      moveToTable_spec h.local_hash h.global_hash h.unique (List.Perm.refl _)
        (hagree n e.right hm) hobj' hpos hlt (fun hc => hc.1 hblank)
    have hbits : (s.isTable (machPortIndex n)).ieBits = .ofGen 0 := by rw [hblank.2.2]
    refine ⟨{ (s.setTable (machPortIndex n) (e.orGen n)).setHash isIndex buckets count with
      isTreeTotal := s.isTreeTotal - 1 }, true, ?_, ?_, by constructor <;> rfl⟩
    . simp only [growMoveEntry, hlo, hlt, and_self, assert_of_true, hbits, ne_eq, not_true_eq_false,
        if_false, htype, not_false_eq_true, hmove, Option.bind_eq_bind, Option.bind_some,
        Option.pure_def]
      rfl
    . exact h.take hsettled hblank (setTable_self s _ _) (fun i hi => setTable_of_ne s _ hi)
        (by constructor <;> rfl) hlocal hglobal rfl
  . -- The slot has a right, of another name.
    have hused := h.layout.used_name hpos hlt hfree hblank
    obtain ⟨hnot, hother⟩ := Option.ite_none_left_eq_some.1 hused
    have htype' : (s.isTable (machPortIndex n)).ieBits.type ≠ .none := hsettled _ _ hother
    have hgen' : (s.isTable (machPortIndex n)).ieBits.gen ≠ machPortGen n := by
      intro heq
      rw [heq, machPortMake_index_gen] at hnot
      exact hnot (by simp)
    have hbits : (s.isTable (machPortIndex n)).ieBits ≠ .ofGen 0 := by
      intro heq
      rw [heq] at htype'
      exact htype' rfl
    refine ⟨s.setCollision (machPortIndex n) true, false, ?_, h.collide hblank, by constructor <;> rfl⟩
    simp only [growMoveEntry, hlo, hlt, and_self, assert_of_true, ne_eq, hbits, not_false_eq_true,
      if_true, htype', hgen', Option.bind_eq_bind, Option.bind_some, Option.pure_def]

end

theorem growMove_spec (h : Moving m hashed free osize s rem done)
    (hagree : Agree m hashed) (hobj : ∀ n, hashed n = true → ∃ r, m n = some r ∧ r.object ≠ ioNull)
    (hsettled : Settled m) : ∃ s' done', (Splay.visit (growMoveStep osize s.isTableSize) (some s) rem).1 = some s' ∧
        Moving m hashed free osize s' [] done' ∧
        done'.Perm ((Splay.visit (growMoveStep osize s.isTableSize) (some s) rem).2 ++ done) ∧ Frame s s' := by
  induction rem generalizing s done with
  | nil => exact ⟨s, done, rfl, h, List.Perm.refl _, Frame.refl s⟩
  | cons x rem ih =>
    obtain ⟨n, e⟩ := x
    obtain ⟨s1, delete, hstep, hmoving, hframe⟩ := growMoveEntry_spec h hagree hobj hsettled
    obtain ⟨s', done', hvisit, hmoving', hperm, hframe'⟩ := ih hmoving
    rw [hframe.size] at hvisit hperm
    have hf : growMoveStep osize s.isTableSize (some s) n e = (some s1, delete) := by
      simp [growMoveStep, hstep]
    simp only [Splay.visit, hf]
    refine ⟨s', done', hvisit, hmoving', ?_, hframe.trans hframe'⟩
    cases delete with
    | true => simpa using hperm
    | false =>
      exact hperm.trans List.perm_middle

end Move

structure Freeing (m : Nat → Option Right) (hashed : Nat → Bool) (osize : Nat)
    (tree : Nat → Option Entry) (s : Space) (first : Nat) (free rem : List Nat) : Prop where
  layout : Layout s.isTable s.isTableSize free (s.blank osize) tree m
  osize_pos : 0 < osize
  head_bits : (s.isTable 0).ieBits.type = .none ∧ (s.isTable 0).ieBits.gen = genMask
  chain : FreeChain (s.setNext 0 first).isTable 0 free
  nodup : free.Nodup
  local_hash : LocalHash s (fun i => ¬ s.blank osize i ∧ s.hashedSlot hashed i)
  rem_nodup : rem.Nodup
  rem_range : ∀ i ∈ rem, osize ≤ i ∧ i < s.isTableSize ∧ i ∉ free
  blank_rem : ∀ i, s.blank osize i → i ∈ rem

section Free

theorem Freeing.skip (h : Freeing m hashed osize tree s first free (i :: rem)) (hblank : ¬ s.blank osize i)
    : Freeing m hashed osize tree s first free rem := by
  refine { h with rem_nodup := (nodup_cons.mp h.rem_nodup).2, rem_range := ?_, blank_rem := ?_ }
  . intro j hj
    exact h.rem_range j (mem_cons_of_mem _ hj)
  . intro j hj
    rcases mem_cons.mp (h.blank_rem j hj) with rfl | hin
    . contradiction
    . exact hin

theorem Freeing.add (h : Freeing m hashed osize tree s first free (i :: rem))
    (hnone : ∀ n, hashed n = true → m n ≠ none) (hblank : s.blank osize i) : Freeing m hashed osize tree
        (s.setTable i { s.isTable i with ieBits := .ofGen genMask, ieRequest := first }) i
        (i :: free) rem := by
  obtain ⟨hlo, -, hfree⟩ := h.rem_range i mem_cons_self
  have hpos := h.osize_pos
  generalize he : ({ s.isTable i with ieBits := .ofGen genMask, ieRequest := first } : Entry) = e
  have hself := setTable_self s i e
  have hother : ∀ j, j ≠ i → (s.setTable i e).isTable j = s.isTable j := fun j hj => setTable_of_ne s e hj
  have hbits : e.ieBits = .ofGen genMask := by rw [← he]
  have hblank' : ∀ j, (s.setTable i e).blank osize j ↔ s.blank osize j ∧ j ≠ i := by
    intro j
    unfold blank
    by_cases hj : j = i
    . subst hj
      rw [hself]
      refine iff_of_false ?_ (fun hc => hc.2 rfl)
      rintro ⟨-, -, hc⟩
      have hgen := congrArg (fun x => x.ieBits.gen) hc
      rw [hbits] at hgen
      exact absurd hgen (by decide)
    . rw [hother j hj]
      simp only [hj, ne_eq, not_false_eq_true, and_true]
      rfl
  exact { h with
    layout := by
      apply h.layout.addFree hblank hblank' hother
      . rw [hself, hbits]
      . rw [hself, ← he, hblank.2.2]
    head_bits := by
      rw [hother 0 (by omega)]
      exact h.head_bits
    chain := by
      refine ⟨rfl, by omega, h.chain.congr ?_ ?_⟩
      . rw [setNext, setTable_of_ne _ _ (by omega), hself, ← he, setNext, setTable_self]
        rfl
      . intro j hj
        have hj0 : j ≠ 0 := h.chain.ne_zero j hj
        have hji : j ≠ i := by
          rintro rfl
          exact hfree hj
        rw [setNext, setTable_of_ne _ _ hj0, hother j hji, setNext, setTable_of_ne _ _ hj0]
    nodup := nodup_cons.mpr ⟨hfree, h.nodup⟩
    local_hash := by
      refine congr h.local_hash ?_ ?_
      . intro j
        rw [hblank']
        unfold hashedSlot
        by_cases hj : j = i
        . subst hj
          -- No name has a free slot, so none of them is recorded.
          rw [hself]
          refine iff_of_false (fun hc => hc.1 hblank) ?_
          rintro ⟨-, -, -, hc⟩
          have hgen : e.ieBits.gen < 256 := by
            rw [hbits]
            decide
          refine hnone _ hc (h.layout.blank_names _ ?_)
          rw [machPortIndex_make hgen]
          exact hblank
        . rw [hother j hj]
          simp only [hj, ne_eq, not_false_eq_true, and_true]
          rfl
      . rintro j ⟨hnb, -⟩
        have hj : j ≠ i := by
          rintro rfl
          contradiction
        unfold home
        rw [hother j hj]
        rfl
    rem_nodup := (nodup_cons.mp h.rem_nodup).2
    rem_range := by
      intro j hj
      obtain ⟨hlo', hlt', hfree'⟩ := h.rem_range j (mem_cons_of_mem _ hj)
      refine ⟨hlo', hlt', ?_⟩
      rw [mem_cons, not_or]
      refine ⟨?_, hfree'⟩
      rintro rfl
      exact (nodup_cons.mp h.rem_nodup).1 hj
    blank_rem := by
      intro j hj
      obtain ⟨hb, hne⟩ := (hblank' j).mp hj
      exact (mem_cons.mp (h.blank_rem j hb)).resolve_left hne
  }

theorem growFree_spec (h : Freeing m hashed osize tree s first free rem) (hsettled : Settled m)
    (hnone : ∀ n, hashed n = true → m n ≠ none)
    : ∃ table' first' free', rem.foldl growFree (s, first) = ({ s with isTable := table' }, first') ∧
        Freeing m hashed osize tree { s with isTable := table' } first' free' [] := by
  induction rem generalizing s first free with
  | nil => exact ⟨s.isTable, first, free, rfl, h⟩
  | cons i rem ih =>
    obtain ⟨hlo, hlt, hfree⟩ := h.rem_range i mem_cons_self
    have hpos : 0 < i := Nat.lt_of_lt_of_le h.osize_pos hlo
    by_cases hbits : (s.isTable i).ieBits = .ofGen 0
    . have hblank : s.blank osize i := by
        by_contra hnb
        have hused := h.layout.used_name hpos hlt hfree hnb
        apply hsettled _ _ hused
        simp [Entry.right, hbits, IeBits.ofGen]
      obtain ⟨table', first', free', hfold, hdone⟩ := ih (h.add hnone hblank)
      refine ⟨table', first', free', ?_, hdone⟩
      simp only [List.foldl_cons, growFree, hbits, if_true]
      exact hfold
    . have hblank : ¬ s.blank osize i := by
        intro hb
        rw [hb.2.2] at hbits
        exact hbits rfl
      obtain ⟨table', first', free', hfold, hdone⟩ := ih (h.skip hblank)
      refine ⟨table', first', free', ?_, hdone⟩
      simp only [List.foldl_cons, growFree, hbits, if_false]
      exact hfold

end Free

section Rehash

theorem Rep.send_iff_hashedSlot (h : Rep s m hashed free) (hagree : Agree m hashed) {i : Nat}
    (hlt : i < s.isTableSize) : (s.isTable i).ieBits.type = .send ↔ s.hashedSlot hashed i := by
  constructor
  . intro htype
    have hpos : 0 < i := by
      rcases Nat.eq_zero_or_pos i with rfl | hpos
      . rw [h.head_bits.1] at htype
        contradiction
      . exact hpos
    have hfree : i ∉ free := by
      intro hin
      rw [(h.layout.free_slot i hin).1] at htype
      contradiction
    have hname := h.layout.used_name hpos hlt hfree id
    exact ⟨hpos, hlt, (hagree _ _ hname).mpr htype⟩
  . rintro ⟨hpos, -, hh⟩
    obtain ⟨r, hr, -⟩ := h.hashed_object _ hh
    have hgen := h.gen_lt hpos hlt
    have hfree : i ∉ free := by
      intro hin
      have hno := h.layout.free_names (machPortMake i (s.isTable i).ieBits.gen)
        (by rw [machPortIndex_make hgen]; exact hin)
      rw [hno] at hr
      contradiction
    have hname := h.layout.used_name hpos hlt hfree id
    exact (hagree _ _ hname).mp hh

theorem growRehash_spec (h : Rep s m hashed free) (hagree : Agree m hashed)
    (hsize : s.isTableSize ≤ size) (k : Nat) (hk : k ≤ s.isTableSize)
    : ∃ isIndex, (List.range k).foldlM growRehash (growCopy s s.isTableSize size) =
          some { growCopy s s.isTableSize size with isIndex := isIndex } ∧
        LocalHash { growCopy s s.isTableSize size with isIndex := isIndex }
          (fun i => i < k ∧ s.hashedSlot hashed i) := by
  induction k with
  | zero =>
    refine ⟨fun _ => 0, rfl, ?_⟩
    have hinit : LinearProbe.WF size (growCopy s s.isTableSize size).home (fun _ => False)
        (fun _ => 0) := init
    exact hinit.congr (by simp) (fun _ _ => rfl)
  | succ k ih =>
    obtain ⟨isIndex, hfold, hlocal⟩ := ih (by omega)
    have hlt : k < s.isTableSize := by omega
    have hslot : (growCopy s s.isTableSize size).isTable k = s.isTable k := by
      simp [growCopy, hlt]
    rw [List.range_succ, List.foldlM_append, hfold]
    by_cases htype : (s.isTable k).ieBits.type = .send
    . have hrec := (h.send_iff_hashedSlot hagree hlt).mp htype
      obtain ⟨hpos, -, hh⟩ := hrec
      obtain ⟨r, hr, hne⟩ := h.hashed_object _ hh
      have hobj : (s.isTable k).ieObject ≠ ioNull := by
        have hfree : k ∉ free := by
          intro hin
          rw [(h.layout.free_slot k hin).1] at htype
          contradiction
        rw [h.layout.used_name hpos hlt hfree id] at hr
        cases hr
        exact hne
      obtain ⟨isIndex', hins, hlocal'⟩ := localInsert_spec hlocal hpos
        (Nat.lt_of_lt_of_le hlt hsize) (by omega) (by
          show ((growCopy s s.isTableSize size).isTable k).ieObject ≠ ioNull
          rw [hslot]
          exact hobj)
      refine ⟨isIndex', ?_, ?_⟩
      . simp only [hslot] at hins
        simp only [Option.bind_eq_bind, Option.bind_some, List.foldlM_cons, List.foldlM_nil,
          growRehash, hslot, htype, if_true, hins]
        rfl
      . refine hlocal'.congr ?_ (fun _ _ => rfl)
        intro i
        constructor
        . rintro (rfl | ⟨hi, hh⟩)
          . exact ⟨by omega, hpos, hlt, hh⟩
          . exact ⟨by omega, hh⟩
        . rintro ⟨hi, hh⟩
          rcases Nat.lt_succ_iff_lt_or_eq.mp hi with hi | hi
          . exact Or.inr ⟨hi, hh⟩
          . exact Or.inl hi
    . refine ⟨isIndex, ?_, ?_⟩
      . simp only [Option.bind_eq_bind, Option.bind_some, List.foldlM_cons, List.foldlM_nil,
          growRehash, hslot, htype, if_false]
        rfl
      . refine hlocal.congr ?_ (fun _ _ => rfl)
        intro i
        have hno : ¬ s.hashedSlot hashed k := fun hc => htype ((h.send_iff_hashedSlot hagree hlt).mpr hc)
        constructor
        . rintro ⟨hi, hh⟩
          exact ⟨by omega, hh⟩
        . rintro ⟨hi, hh⟩
          refine ⟨?_, hh⟩
          by_contra hge
          obtain rfl : i = k := by omega
          contradiction

end Rehash

theorem growCount_spec (xs : List (Nat × Entry)) (hsorted : Splay.Sorted xs) (c last : Nat)
    (hlast : ∀ x ∈ xs, last ≤ machPortIndex x.1) : (Splay.visit growCountStep (c, last) xs).1.1 =
        c + ((xs.map (fun x => machPortIndex x.1)).toFinset.erase last).card ∧
      (Splay.visit growCountStep (c, last) xs).2 = xs := by
  induction xs generalizing c last with
  | nil => simp [Splay.visit]
  | cons x xs ih =>
    obtain ⟨n, e⟩ := x
    rw [Splay.sorted_cons] at hsorted
    have hge : ∀ x ∈ xs, machPortIndex n ≤ machPortIndex x.1 := by
      intro x hx
      exact Nat.div_le_div_right (Nat.le_of_lt (hsorted.1 x hx))
    simp only [Splay.visit, growCountStep, map_cons, List.toFinset_cons]
    by_cases hn : machPortIndex n = last
    . obtain ⟨hcount, hkept⟩ := ih hsorted.2 c last (fun x hx => hn ▸ hge x hx)
      simp [hn, hcount, hkept]
    . obtain ⟨hcount, hkept⟩ := ih hsorted.2 (c + 1) (machPortIndex n) hge
      have hlt : last < machPortIndex n := Nat.lt_of_le_of_ne (hlast (n, e) mem_cons_self) (Ne.symm hn)
      have hnot : last ∉ insert (machPortIndex n)
          (xs.map (fun x => machPortIndex x.1)).toFinset := by
        simp only [Finset.mem_insert, mem_toFinset, mem_map, not_or, not_exists, not_and]
        refine ⟨Ne.symm hn, ?_⟩
        intro x hx heq
        have := hge x hx
        omega
      have hcard := Finset.card_erase_add_one (Finset.mem_insert_self (machPortIndex n)
        (xs.map (fun x => machPortIndex x.1)).toFinset)
      rw [Finset.erase_insert_eq_erase] at hcard
      simp only [ne_eq, hn, not_false_eq_true, if_true, Bool.false_eq_true, if_false, Finset.erase_eq_of_notMem hnot]
      refine ⟨?_, by rw [hkept]⟩
      omega

theorem growCount_eq_treeSmall (tree : Nat → Option Entry) {lo hi : Nat}
    (hlo : 0 < lo) (hsorted : Splay.Sorted xs) (hrange : ∀ x ∈ xs, lo ≤ machPortIndex x.1 ∧ machPortIndex x.1 < hi)
    (hmem : ∀ i, lo ≤ i → i < hi → (HasIndex tree i ↔ ∃ x ∈ xs, machPortIndex x.1 = i))
    : (Splay.visit growCountStep (0, 0) xs).1.1 = treeSmall tree lo hi ∧ (Splay.visit growCountStep (0, 0) xs).2 = xs ∧
      treeSmall tree lo hi ≤ hi - lo ∧ treeSmall tree lo hi ≤ xs.length := by
  classical
  obtain ⟨hcount, hkept⟩ := growCount_spec xs hsorted 0 0 (fun _ _ => Nat.zero_le _)
  have hset : treeSmall tree lo hi = (xs.map (fun x => machPortIndex x.1)).toFinset.card := by
    unfold treeSmall
    congr 1
    ext i
    simp only [Finset.mem_filter, Finset.mem_Ico, mem_toFinset, mem_map]
    constructor
    . rintro ⟨⟨h1, h2⟩, h⟩
      exact (hmem i h1 h2).mp h
    . rintro ⟨x, hx, rfl⟩
      obtain ⟨h1, h2⟩ := hrange x hx
      exact ⟨⟨h1, h2⟩, (hmem _ h1 h2).mpr ⟨x, hx, rfl⟩⟩
  refine ⟨?_, hkept, ?_, ?_⟩
  . have hnot : 0 ∉ (xs.map (fun x => machPortIndex x.1)).toFinset := by
      simp only [mem_toFinset, mem_map, not_exists, not_and]
      intro x hx heq
      have := (hrange x hx).1
      omega
    rw [hcount, hset, Finset.erase_eq_of_notMem hnot, Nat.zero_add]
  . refine Nat.le_trans (Finset.card_filter_le _ _) ?_
    rw [Nat.card_Ico]
  . rw [hset]
    refine Nat.le_trans (List.toFinset_card_le _) ?_
    rw [List.length_map]

end Ipc
