import UtahMach.Ipc.Entry.Run
import UtahMach.Ipc.Splay

/-!
This module contains runs in which every name may be asked for and every entry may be given back.
-/

namespace Ipc

open Splay (SplayTree)
open Splay.SplayTree (IsLower IsUpper bounds_spec)

variable {s : Space} {m : Nat → Option Right} {n : Nat}

def Space.inUse (s : Space) (n : Nat) : Bool :=
  (s.isTree.get? n).isSome || (0 < machPortIndex n && machPortIndex n < s.isTableSize &&
    (s.isTable (machPortIndex n)).ieBits.type != .none && (s.isTable (machPortIndex n)).ieBits.gen == machPortGen n)

inductive EntryOp where
  | call (op : Op)
  | free (n : Nat)

def EntryOp.Sound : EntryOp → Prop
  | .call op => op.Sound
  | .free _ => True

def entryStep (s : Space) : EntryOp → Option (Space × List Event)
  | .call op => step s op
  | .free n =>
    if s.inUse n then do
      let s ← s.discard n (s.loc n)
      return (s, [.removed n])
    else
      return (s, [])

def entryRun (s : Space) : List EntryOp → Option (Space × List Event)
  | [] => some (s, [])
  | op :: ops => do
    let (s, log) ← entryStep s op
    let (s, log') ← entryRun s ops
    return (s, log ++ log')

theorem Represents.inUse_iff (h : Represents s m) : s.inUse n = true ↔ m n ≠ none := by
  obtain ⟨hashed, free, hrep, hsettled, -⟩ := h
  simp only [Space.inUse, Bool.or_eq_true, Bool.and_eq_true, decide_eq_true_eq, bne_iff_ne, beq_iff_eq]
  constructor
  . rintro (htree | ⟨⟨⟨hpos, hlt⟩, htype⟩, hgen⟩)
    . exact hrep.layout.tree_names (Option.isSome_iff_ne_none.mp htree)
    . have hfree := mt (hrep.type_eq_none_iff hsettled hpos hlt).mpr htype
      simp [hrep.layout.used_slot n hpos hlt hfree id hgen]
  . intro hm
    cases htree : s.isTree.get? n with
    | some e => exact Or.inl rfl
    | none =>
      obtain ⟨hpos, hlt, hfree, -, hgen⟩ := hrep.layout.complete n hm htree
      exact Or.inr ⟨⟨⟨hpos, hlt⟩, mt (hrep.type_eq_none_iff hsettled hpos hlt).mp hfree⟩, hgen⟩

theorem entryStep_spec (h : Represents s m) (op : EntryOp) (hop : op.Sound) : StepResult m (entryStep s op) := by
  cases op with
  | call op => exact step_spec h op hop
  | free n =>
    dsimp only [entryStep]
    split
    . next huse =>
      obtain ⟨s', hdiscard, hrepr⟩ := removed_spec h (h.inUse_iff.mp huse)
      exact ⟨s', [.removed n], by simp [hdiscard], hrepr, fresh_of_not_created (by simp)⟩
    . exact .stay h

theorem entryRun_spec (h : Represents s m) (ops : List EntryOp) (hops : ∀ op ∈ ops, op.Sound)
    : StepResult m (entryRun s ops) := by
  induction ops generalizing s m with
  | nil => exact .stay h
  | cons op ops ih =>
    obtain ⟨s1, log, hstep, hrepr, hfresh⟩ := entryStep_spec h op (hops op List.mem_cons_self)
    obtain ⟨s2, log', hrun, hrepr', hfresh'⟩ := ih hrepr (fun op' hop' => hops op' (List.mem_cons_of_mem _ hop'))
    refine ⟨s2, log ++ log', by simp [entryRun, hstep, hrun], ?_, hfresh.append hfresh'⟩
    rw [List.foldl_append]
    exact hrepr'

structure Counted (s : Space) : Prop where
  free_list : ∃ free, FreeChain s.isTable 0 free ∧ free.Nodup ∧
    ∀ i, i ∈ free ↔ 0 < i ∧ i < s.isTableSize ∧ (s.isTable i).ieBits.type = .none
  search : ∀ i, 0 < i → i < s.isTableSize → (s.isTable i).ieBits.type = .none →
    freePredecessor s.isTable i s.isTableSize 0 ≠ none
  collision : ∀ i < s.isTableSize, (s.isTable i).ieBits.collision = true ↔
    ∃ n, machPortIndex n = i ∧ s.isTree.get? n ≠ none
  tree_total : s.isTreeTotal = s.isTree.toList.length
  tree_small : s.isTreeSmall = treeSmall s.isTree.get? s.isTableSize (itsSize s.isTableNext)

theorem Represents.counted (h : Represents s m) : Counted s := by
  obtain ⟨hashed, free, hrep, hsettled, -⟩ := h
  have hmem : ∀ i, i ∈ free ↔ 0 < i ∧ i < s.isTableSize ∧ (s.isTable i).ieBits.type = .none := by
    intro i
    constructor
    . intro hfree
      obtain ⟨hpos, hlt⟩ := hrep.layout.free_range i hfree
      exact ⟨hpos, hlt, (hrep.type_eq_none_iff hsettled hpos hlt).mpr hfree⟩
    . rintro ⟨hpos, hlt, htype⟩
      exact (hrep.type_eq_none_iff hsettled hpos hlt).mp htype
  exact {
    free_list := ⟨free, hrep.chain, hrep.nodup, hmem⟩
    search := by
      intro i hpos hlt htype
      obtain ⟨k, hk, -⟩ := hrep.freePredecessor ((hmem i).mpr ⟨hpos, hlt, htype⟩)
      simp [hk]
    collision := by
      intro i hlt
      by_cases hfree : i ∈ free
      . -- A free slot has no collision bit, and the names of its index are not in the tree.
        rw [(hrep.layout.free_slot i hfree).1]
        apply iff_of_false Bool.false_ne_true
        rintro ⟨n, rfl, hne⟩
        exact (hrep.layout.tree_slot n hne hlt).1 hfree
      . exact hrep.layout.used_collision i hlt hfree id
    tree_total := hrep.tree_total
    tree_small := hrep.tree_small
  }

theorem counted_entryRun (addr mask initial : Nat) (hinitial : initial < 511) (ops : List EntryOp)
    (hops : ∀ op ∈ ops, op.Sound)
    : ∃ s log, entryRun (ipcSpaceCreate addr mask initial) ops = some (s, log) ∧ Counted s := by
  obtain ⟨s, log, hrun, hrepr, -⟩ := entryRun_spec (create_represents addr mask hinitial) ops hops
  exact ⟨s, log, hrun, hrepr.counted⟩

/--
Two names of index 0 and the first name that is handed out.
-/
def zeroIndexOps : List EntryOp :=
  [.call (.allocName [true] 255 (some ⟨.receive, 0, false, false, 6, 0⟩)),
    .call (.allocName [true] 7 (some ⟨.send, 1, false, false, 5, 0⟩)), .free 255,
    .call (.get (some ⟨.send, 1, false, false, 5, 0⟩))]

theorem zeroIndexOps_sound : ∀ op ∈ zeroIndexOps, op.Sound := by
  simp [zeroIndexOps, EntryOp.Sound, Op.Sound, Right.Valid, machPortValid, machPortNull, machPortDead, ioNull]

theorem counted_entryRun_zeroIndex : (0 < 511 ∧ ∀ op ∈ zeroIndexOps, op.Sound) ∧
      ∃ s log, entryRun (ipcSpaceCreate 7 15 0) zeroIndexOps = some (s, log) ∧ Counted s :=
  ⟨⟨by decide, zeroIndexOps_sound⟩, counted_entryRun 7 15 0 (by decide) zeroIndexOps zeroIndexOps_sound⟩

theorem lookup_entryRun_iff (addr mask initial : Nat) (hinitial : initial < 511) (ops : List EntryOp)
    (hops : ∀ op ∈ ops, op.Sound) : ∃ s log, entryRun (ipcSpaceCreate addr mask initial) ops = some (s, log) ∧
        ∀ n r, lastStored log n = some r →
          ((∃ s', ipcEntryLookup s n = some (some (s'.loc n), s') ∧
            (s'.entry (s'.loc n)).map Entry.right = some r) ↔ n ≠ headName) := by
  obtain ⟨s, log, hrun, hrepr, -⟩ := entryRun_spec (create_represents addr mask hinitial) ops hops
  refine ⟨s, log, hrun, ?_⟩
  intro n r hstored
  obtain ⟨s', hlook, hashed, free, hrep, -, -⟩ := lookup_spec hrepr n
  simp only [lastStored] at hstored
  simp only [hstored, reduceCtorEq, false_or] at hlook
  constructor
  . rintro ⟨s'', hfound, -⟩ hn
    rw [hlook, if_pos hn] at hfound
    simp at hfound
  . intro hn
    obtain ⟨e, he, hright⟩ := hrep.entry_loc hstored
    exact ⟨s', by simpa [hn] using hlook, by simp [he, hright]⟩

theorem lookup_entryRun_iff_zeroIndex : (0 < 511 ∧ ∀ op ∈ zeroIndexOps, op.Sound) ∧
      ∃ s log, entryRun (ipcSpaceCreate 7 15 0) zeroIndexOps = some (s, log) ∧
        ∀ n r, lastStored log n = some r →
          ((∃ s', ipcEntryLookup s n = some (some (s'.loc n), s') ∧
            (s'.entry (s'.loc n)).map Entry.right = some r) ↔ n ≠ headName) :=
  ⟨⟨by decide, zeroIndexOps_sound⟩, lookup_entryRun_iff 7 15 0 (by decide) zeroIndexOps zeroIndexOps_sound⟩

theorem bounds_tight (α : Type)
    : (∀ (splay : { s : SplayTree Nat α // IsSplayTree s }) (name : Nat), ∃ lower upper splay',
        ipcSplayTreeBounds splay.1 name = ((lower.getD machPortLargest, upper.getD machPortSmallest), splay') ∧
        IsLower splay.1.toList name lower ∧ IsUpper splay.1.toList name upper ∧
        IsSplayTree splay' ∧ splay'.toList = splay.1.toList) ∧
      ∀ addr mask initial, initial < 511 → ∀ ops : List EntryOp, (∀ op ∈ ops, op.Sound) →
        ∃ s log, entryRun (ipcSpaceCreate addr mask initial) ops = some (s, log) ∧ ∀ name, ∃ b s',
          ipcEntryTreeCollision s name = some (b, s') ∧ s'.isTree.toList = s.isTree.toList ∧
          (b = true ↔ HasIndex s.isTree.get? (machPortIndex name)) := by
  constructor
  . rintro ⟨splay, h⟩ name
    obtain ⟨hlower, hupper, hwf, hlist⟩ := bounds_spec h.wf name
    exact ⟨_, _, _, rfl, hlower, hupper, ⟨hwf, hlist ▸ h.names⟩, hlist⟩
  . intro addr mask initial hinitial ops hops
    obtain ⟨s, log, hrun, ⟨hashed, free, hrep, -, -⟩, -⟩ :=
      entryRun_spec (create_represents addr mask hinitial) ops hops
    refine ⟨s, log, hrun, ?_⟩
    intro name
    obtain ⟨b, tree, hcoll, -, hlist, hb⟩ := ipcEntryTreeCollision_spec hrep.active hrep.tree_wf hrep.keys_range name
    exact ⟨b, _, hcoll, hlist, hb⟩

theorem bounds_tight_zeroIndex : (0 < 511 ∧ ∀ op ∈ zeroIndexOps, op.Sound) ∧
      ∃ s log, entryRun (ipcSpaceCreate 7 15 0) zeroIndexOps = some (s, log) ∧ ∀ name, ∃ b s',
        ipcEntryTreeCollision s name = some (b, s') ∧ s'.isTree.toList = s.isTree.toList ∧
        (b = true ↔ HasIndex s.isTree.get? (machPortIndex name)) :=
  ⟨⟨by decide, zeroIndexOps_sound⟩, (bounds_tight Nat).2 7 15 0 (by decide) zeroIndexOps zeroIndexOps_sound⟩

def allocatedHead : Option (Space × List Event) :=
  entryRun (ipcSpaceCreate 7 15 0) [.call (.allocName [true] 255 (some ⟨.receive, 0, false, false, 6, 0⟩))]

theorem lookup_headName : allocatedHead.map (fun res => lastStored res.2 255) =
        some (some ⟨.receive, 0, false, false, 6, 0⟩) ∧
      allocatedHead.bind (fun res => (ipcEntryLookup res.1 255).map Prod.fst) = some none := by
  decide +kernel

end Ipc
