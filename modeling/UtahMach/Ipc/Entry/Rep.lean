import UtahMach.Ipc.Entry.FreeList
import UtahMach.Ipc.Entry.Layout
import UtahMach.Ipc.Hash.Lemmas

/-!
This module contains the finite map from names to rights that a space represents.
-/

namespace Ipc

open Splay.SplayTree Space

def HasIndex (tree : Nat → Option Entry) (i : Nat) : Prop := ∃ n, machPortIndex n = i ∧ tree n ≠ none

open Classical in
noncomputable def treeSmall (tree : Nat → Option Entry) (lo hi : Nat) : Nat :=
  ((Finset.Ico lo hi).filter (HasIndex tree)).card

theorem treeSmall_congr {tree tree' : Nat → Option Entry} {lo hi : Nat}
    (h : ∀ i, lo ≤ i → i < hi → (HasIndex tree i ↔ HasIndex tree' i))
    : treeSmall tree lo hi = treeSmall tree' lo hi := by
  classical
  unfold treeSmall
  congr 1
  ext i
  simp only [Finset.mem_filter, Finset.mem_Ico]
  exact and_congr_right (fun hi => h i hi.1 hi.2)

theorem treeSmall_eq_zero {tree : Nat → Option Entry} (h : ∀ i, ¬ HasIndex tree i) (lo hi : Nat)
    : treeSmall tree lo hi = 0 := by
  simp [treeSmall, h]

theorem treeSmall_succ {tree tree' : Nat → Option Entry} (lo hi : Nat) {j : Nat} (hlo : lo ≤ j) (hhi : j < hi)
    (h : ∀ i, i ≠ j → (HasIndex tree i ↔ HasIndex tree' i)) (hj : HasIndex tree j) (hj' : ¬ HasIndex tree' j)
    : treeSmall tree lo hi = treeSmall tree' lo hi + 1 := by
  classical
  unfold treeSmall
  rw [← Finset.card_insert_of_notMem (a := j) (by
    intro hmem
    rw [Finset.mem_filter] at hmem
    exact hj' hmem.2)]
  congr 1
  ext i
  rw [Finset.mem_insert, Finset.mem_filter, Finset.mem_filter, Finset.mem_Ico]
  by_cases hi : i = j
  . subst hi
    simp only [hlo, hhi, and_self, true_and, true_or, iff_true]
    exact hj
  . simp only [hi, false_or]
    exact and_congr_right (fun _ => h i hi)

def Space.hashedSlot (s : Space) (hashed : Nat → Bool) (i : Nat) : Prop :=
  0 < i ∧ i < s.isTableSize ∧ hashed (machPortMake i (s.isTable i).ieBits.gen) = true

def Space.loc (s : Space) (name : Nat) : Loc :=
  if (s.isTree.get? name).isSome then .tree name else .table (machPortIndex name)

structure Rep (s : Space) (m : Nat → Option Right) (hashed : Nat → Bool) (free : List Nat)
    : Prop where
  active : s.isActive = true
  growing : s.isGrowing = false
  next_range : 1 ≤ s.isTableNext ∧ s.isTableNext ≤ 511
  size_eq : s.isTableSize = itsSize (s.isTableNext - 1)
  bound : ∀ n, m n ≠ none → 0 < n ∧ n < machPortDead
  layout : Layout s.isTable s.isTableSize free (fun _ => False) s.isTree.get? m
  head_bits : (s.isTable 0).ieBits.type = .none ∧ (s.isTable 0).ieBits.gen = genMask
  chain : FreeChain s.isTable 0 free
  nodup : free.Nodup
  tree_wf : s.isTree.WF
  tree_total : s.isTreeTotal = s.isTree.toList.length
  tree_small : s.isTreeSmall =
    treeSmall s.isTree.get? s.isTableSize (itsSize s.isTableNext)
  local_hash : LocalHash s (s.hashedSlot hashed)
  global_hash : GlobalHash s.bucket s.ihGlobal s.isTreeHash s.isTree.toList hashed
  hashed_object : ∀ n, hashed n = true → ∃ r, m n = some r ∧ r.object ≠ ioNull

def Settled (m : Nat → Option Right) : Prop := ∀ n r, m n = some r → r.type ≠ .none

def Agree (m : Nat → Option Right) (hashed : Nat → Bool) : Prop :=
  ∀ n r, m n = some r → (hashed n = true ↔ r.type = .send)

namespace Rep

section

variable (h : Rep s m hashed free)
include h

theorem size_range : 4 ≤ s.isTableSize ∧ s.isTableSize < 2 ^ 21 := by
  rw [h.size_eq]
  exact itsSize_range (by have := h.next_range; omega)

theorem size_le_next : s.isTableSize ≤ itsSize s.isTableNext := by
  have hn := h.next_range
  have hle := itsSize_le_succ (i := s.isTableNext - 1) (by omega)
  rw [Nat.sub_add_cancel hn.1] at hle
  rw [h.size_eq]
  exact hle

theorem unique : UniqueNames s.isTree.toList := h.tree_wf.sorted.nodup_keys

theorem mem_tree {n : Nat} : (n, e) ∈ s.isTree.toList ↔ s.isTree.get? n = some e :=
  (get?_eq_some_iff h.tree_wf).symm

theorem tree_le_largest : ∀ e ∈ s.isTree.toList, e.1 ≤ machPortLargest := by
  rintro ⟨n, e⟩ he
  rw [h.mem_tree] at he
  have hb := h.bound n (h.layout.tree_names (by simp [he]))
  simp only [machPortDead, machPortLargest] at *
  omega

theorem congr_tree {tree : Splay.SplayTree Nat Entry} (hwf : tree.WF) (hlist : tree.toList = s.isTree.toList)
    : Rep { s with isTree := tree } m hashed free := by
  have hget : tree.get? = s.isTree.get? := get?_of_toList_eq hlist
  exact {
    h with
    layout := by
      simp only [hget]
      exact h.layout
    tree_wf := hwf
    tree_total := by
      simp only [hlist]
      exact h.tree_total
    tree_small := by
      simp only [hget]
      exact h.tree_small
    global_hash := by
      simp only [hlist]
      exact h.global_hash
  }

theorem entry_loc {n : Nat} (hm : m n = some r) : ∃ e, s.entry (s.loc n) = some e ∧ e.right = r := by
  cases ht : s.isTree.get? n with
  | some e =>
    refine ⟨e, by simp [loc, entry, ht], ?_⟩
    rw [(h.layout.tree_entry n e ht).1] at hm
    exact Option.some.inj hm
  | none =>
    obtain ⟨hpos, hlt, hfree, -, hgen⟩ := h.layout.complete n (by simp [hm]) ht
    have hslot := h.layout.used_slot n hpos hlt hfree id hgen
    refine ⟨s.isTable (machPortIndex n), by simp [loc, entry, ht, hlt], ?_⟩
    rw [hslot] at hm
    exact Option.some.inj hm

end

end Rep

section Lookup

section

variable (h : Rep s m hashed free)
include h

theorem treeLookup_spec (hs : ∀ r, m n = some r → r.type ≠ .none) (hin : m n ≠ none → s.isTree.get? n ≠ none)
    : ipcEntryLookup.treeLookup s n = some (if m n = none then none else some (s.loc n),
          { s with isTree := (s.isTree.lookup n).2 }) := by
  have hlook := (lookup_spec h.tree_wf n).1
  unfold ipcEntryLookup.treeLookup
  cases hget : s.isTree.get? n with
  | none =>
    have hm : m n = none := by
      by_contra hne
      exact hin hne hget
    simp [hlook, hget, hm]
  | some e =>
    have hm := (h.layout.tree_entry n e hget).1
    have htype : e.ieBits.type ≠ .none := hs e.right hm
    simp [hlook, hget, hm, htype, loc]

theorem tree_total_pos (hne : s.isTree.get? n ≠ none) : 0 < s.isTreeTotal := by
  obtain ⟨e, he⟩ := Option.ne_none_iff_exists'.mp hne
  rw [h.tree_total]
  exact List.length_pos_of_mem (h.mem_tree.mpr he)

theorem not_mem_of_total_eq_zero (hz : s.isTreeTotal = 0) : s.isTree.get? n = none := by
  by_contra hne
  have := tree_total_pos h hne
  omega

theorem ipcEntryLookup_head : ipcEntryLookup s headName = some (none, s) := by
  have hsize := h.size_range
  have hindex : machPortIndex headName = 0 := rfl
  have hgen : machPortGen headName = genMask := rfl
  simp [ipcEntryLookup, h.active, hindex, hgen, h.head_bits, show 0 < s.isTableSize by omega]

theorem ipcEntryLookup_spec (hs : ∀ r, m n = some r → r.type ≠ .none) (hn : n ≠ headName) : ∃ tree, ipcEntryLookup s n =
          some (if m n = none then none else some (s.loc n), { s with isTree := tree }) ∧
        tree.WF ∧ tree.toList = s.isTree.toList := by
  obtain ⟨-, hwf, hlist⟩ := lookup_spec h.tree_wf n
  -- The ways out of the function that leave the tree alone.
  have hstay : ∀ res, ipcEntryLookup s n = some (res, s) →
      res = (if m n = none then none else some (s.loc n)) →
      ∃ tree, ipcEntryLookup s n =
          some (if m n = none then none else some (s.loc n), { s with isTree := tree }) ∧
        tree.WF ∧ tree.toList = s.isTree.toList := by
    rintro res heq rfl
    exact ⟨s.isTree, heq, h.tree_wf, rfl⟩
  by_cases hlt : machPortIndex n < s.isTableSize
  . by_cases hfree : machPortIndex n ∈ free
    . have hm := h.layout.free_names n hfree
      have hbits := (h.layout.free_slot _ hfree).1
      apply hstay none
      . have hcoll : (s.isTable (machPortIndex n)).ieBits.collision = false := by rw [hbits]; rfl
        have htype : (s.isTable (machPortIndex n)).ieBits.type = .none := by rw [hbits]; rfl
        simp [ipcEntryLookup, h.active, hlt, hcoll, htype]
      . simp [hm]
    . by_cases hgen : (s.isTable (machPortIndex n)).ieBits.gen = machPortGen n
      . have hpos : 0 < machPortIndex n := by
          refine Nat.pos_of_ne_zero fun hzero => hn (eq_of_index_gen hzero ?_)
          rw [← hgen, hzero, h.head_bits.2]
          rfl
        have hm := h.layout.used_slot n hpos hlt hfree id hgen
        have htype : (s.isTable (machPortIndex n)).ieBits.type ≠ .none := hs _ hm
        have htree : s.isTree.get? n = none := by
          by_contra hne
          exact (h.layout.tree_slot n hne hlt).2.2 hpos hgen
        apply hstay (some (.table (machPortIndex n)))
        . simp [ipcEntryLookup, h.active, hlt, hgen, htype]
        . simp [hm, loc, htree]
      . have hin : m n ≠ none → s.isTree.get? n ≠ none := by
          intro hne hnone
          exact hgen (h.layout.complete n hne hnone).2.2.2.2
        cases hcoll : (s.isTable (machPortIndex n)).ieBits.collision with
        | false =>
          apply hstay none
          . simp [ipcEntryLookup, h.active, hlt, hgen, hcoll]
          . have hm : m n = none := by
              by_contra hne
              have := (h.layout.used_collision _ hlt hfree id).mpr ⟨n, rfl, hin hne⟩
              rw [hcoll] at this
              contradiction
            simp [hm]
        | true =>
          obtain ⟨n', -, hn'⟩ := (h.layout.used_collision _ hlt hfree id).mp hcoll
          have htotal := tree_total_pos h hn'
          refine ⟨_, ?_, hwf, hlist⟩
          rw [← treeLookup_spec h hs hin]
          simp [ipcEntryLookup, h.active, hlt, hgen, hcoll, htotal]
  . have hin : m n ≠ none → s.isTree.get? n ≠ none := by
      intro hne hnone
      exact hlt (h.layout.complete n hne hnone).2.1
    by_cases hz : s.isTreeTotal = 0
    . apply hstay none
      . simp [ipcEntryLookup, h.active, hlt, hz]
      . have hm : m n = none := by
          by_contra hne
          exact hin hne (not_mem_of_total_eq_zero h hz)
        simp [hm]
    . refine ⟨_, ?_, hwf, hlist⟩
      rw [← treeLookup_spec h hs hin]
      simp [ipcEntryLookup, h.active, hlt, hz]

end

end Lookup

end Ipc
