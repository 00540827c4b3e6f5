import UtahMach.Ipc.Entry.Rep

/-!
This module contains what stores through a pointer and the reverse hash functions do to the map that
a space represents.
-/

namespace Ipc

open Space (loc)

open Splay.SplayTree LinearProbe.WF

open Function (update update_of_ne update_self)

variable {s : Space} {m : Nat → Option Right} {hashed : Nat → Bool} {free : List Nat} {n : Nat}

@[simp]
theorem setTable_self (s : Space) (i : Nat) (e : Entry) : (s.setTable i e).isTable i = e := by
  simp [Space.setTable]

theorem setTable_of_ne (s : Space) {i j : Nat} (e : Entry) (h : j ≠ i)
    : (s.setTable i e).isTable j = s.isTable j := by
  simp [Space.setTable, h]

theorem Rep.used_of_table (h : Rep s m hashed free) (hm : m n ≠ none) (ht : s.isTree.get? n = none)
    : 0 < machPortIndex n ∧ machPortIndex n < s.isTableSize ∧ machPortIndex n ∉ free ∧
      (s.isTable (machPortIndex n)).ieBits.gen = machPortGen n ∧
      machPortMake (machPortIndex n) (s.isTable (machPortIndex n)).ieBits.gen = n := by
  obtain ⟨hpos, hlt, hfree, -, hgen⟩ := h.layout.complete n hm ht
  refine ⟨hpos, hlt, hfree, hgen, ?_⟩
  rw [hgen, machPortMake_index_gen]

theorem Rep.hashed_store (h : Rep s m hashed free) (hm : m n = some r0)
    (hobj : hashed n = true → r.object = r0.object)
    : ∀ n', hashed n' = true → ∃ r', update m n (some r) n' = some r' ∧ r'.object ≠ ioNull := by
  intro n' hn'
  obtain ⟨r', hr', hne⟩ := h.hashed_object n' hn'
  by_cases heq : n' = n
  . subst heq
    refine ⟨r, update_self .., ?_⟩
    rw [hm] at hr'
    cases hr'
    rw [hobj hn']
    exact hne
  . exact ⟨r', by rw [update_of_ne heq]; exact hr', hne⟩

theorem Rep.storeTable (h : Rep s m hashed free) (hm : m n = some r0)
    (ht : s.isTree.get? n = none) (hobj : hashed n = true → r.object = r0.object)
    : Rep (s.setTable (machPortIndex n) ((s.isTable (machPortIndex n)).setRight r))
        (update m n (some r)) hashed free := by
  obtain ⟨hpos, hlt, hfree, hgen, hname⟩ := h.used_of_table (by simp [hm]) ht
  have hslot := h.layout.used_slot n hpos hlt hfree id hgen
  have hgen' : ∀ i, ((s.setTable (machPortIndex n)
      ((s.isTable (machPortIndex n)).setRight r)).isTable i).ieBits.gen = (s.isTable i).ieBits.gen := by
    intro i
    by_cases hi : i = machPortIndex n
    . rw [hi, setTable_self, gen_setRight]
    . rw [setTable_of_ne s _ hi]
  exact { h with
    bound := by
      have := h.bound
      grind
    layout := h.layout.storeTable hpos hlt hfree id hgen (fun i hi => setTable_of_ne s _ hi) (setTable_self s _ _)
    head_bits := by
      rw [setTable_of_ne s _ (by omega)]
      exact h.head_bits
    chain := h.chain.congr_of_ne hpos.ne hfree fun i hi => setTable_of_ne s _ hi
    local_hash := by
      apply congr h.local_hash
      . intro i
        simp only [Space.hashedSlot, hgen']
        rfl
      . rintro i ⟨-, -, hi⟩
        by_cases hin : i = machPortIndex n
        . subst hin
          rw [hname] at hi
          have heq := hobj hi
          rw [hslot] at hm
          cases hm
          simp only [Space.home, setTable_self]
          exact congrArg (ihLocalHash · s.isTableSize) heq
        . simp only [Space.home, setTable_of_ne s _ hin]
          rfl
    hashed_object := h.hashed_store hm hobj
  }

theorem Rep.storeTree (h : Rep s m hashed free) (ht : s.isTree.get? n = some e)
    (hobj : hashed n = true → r.object = e.ieObject)
    : Rep { s with isTree := s.isTree.modify n (fun _ => e.setRight r) }
        (update m n (some r)) hashed free := by
  obtain ⟨hwf, hlist⟩ := modify_spec h.tree_wf n (fun _ => e.setRight r)
  have hget : (s.isTree.modify n (fun _ => e.setRight r)).get? =
      update s.isTree.get? n (some (e.setRight r)) := by
    funext n'
    rw [get?_modify h.tree_wf]
    by_cases hn : n' = n
    . subst hn
      simp [ht]
    . simp [hn]
  have hm := (h.layout.tree_entry n e ht).1
  exact { h with
    bound := by
      have := h.bound
      grind
    layout := by
      simp only [hget]
      exact h.layout.storeTree ht r
    tree_wf := hwf
    tree_total := by
      simp only [hlist, List.length_map]
      exact h.tree_total
    tree_small := by
      rw [h.tree_small]
      apply treeSmall_congr
      intro i _ _
      apply exists_congr
      intro n'
      simp only [hget]
      by_cases hn : n' = n
      . subst hn
        simp [ht]
      . simp [hn]
    global_hash := by
      apply h.global_hash.congr
      . intro n' obj hn'
        simp only [← get?_eq_some_iff hwf, ← get?_eq_some_iff h.tree_wf, hget]
        by_cases hn : n' = n
        . subst hn
          simp [ht, Entry.setRight, hobj hn']
        . simp only [update_of_ne hn]
      . rw [hlist, List.countP_map]
        rfl
    hashed_object := h.hashed_store hm hobj
  }

theorem loc_setEntry (hwf : s.isTree.WF) (e : Entry) (loc : Loc) (n' : Nat) : (s.setEntry e loc).loc n' = s.loc n' := by
  cases loc with
  | table i => rfl
  | tree name =>
    simp only [Space.setEntry, loc, get?_modify hwf]
    split <;> simp

section

variable (h : Rep s m hashed free)
include h

theorem Rep.store (hm : m n = some r0) (hobj : hashed n = true → r.object = r0.object)
    : ∃ e, s.entry (s.loc n) = some e ∧ e.right = r0 ∧
        Rep (s.setEntry (e.setRight r) (s.loc n)) (update m n (some r)) hashed free := by
  obtain ⟨e, he, hr⟩ := h.entry_loc hm
  refine ⟨e, he, hr, ?_⟩
  cases ht : s.isTree.get? n with
  | some e' =>
    have hloc : s.loc n = .tree n := by simp [loc, ht]
    rw [hloc, Space.entry, ht] at he
    cases he
    rw [hloc]
    apply h.storeTree ht
    intro hn
    rw [hobj hn, ← hr]
    rfl
  | none =>
    have hloc : s.loc n = .table (machPortIndex n) := by simp [loc, ht]
    rw [hloc, Space.entry, if_pos (h.used_of_table (by simp [hm]) ht).2.1] at he
    cases he
    rw [hloc]
    exact h.storeTable hm ht hobj

theorem Rep.gen_lt {i : Nat} (hpos : 0 < i) (hlt : i < s.isTableSize) : (s.isTable i).ieBits.gen < 256 := by
  by_cases hfree : i ∈ free
  . exact (h.layout.free_slot i hfree).2.1
  . exact h.layout.used_gen i hpos hlt hfree id

theorem Rep.slot_name {i : Nat} (hpos : 0 < i) (hlt : i < s.isTableSize) : machPortMake i (s.isTable i).ieBits.gen = n ↔
        i = machPortIndex n ∧ (s.isTable i).ieBits.gen = machPortGen n := by
  have hgen := h.gen_lt hpos hlt
  constructor
  . rintro rfl
    exact ⟨(machPortIndex_make hgen).symm, (machPortGen_make hgen).symm⟩
  . rintro ⟨rfl, hg⟩
    rw [hg, machPortMake_index_gen]

theorem Rep.hashedSlot_tree (ht : s.isTree.get? n ≠ none) (b : Bool) (i : Nat)
    : s.hashedSlot (update hashed n b) i ↔ s.hashedSlot hashed i := by
  refine and_congr_right (fun hpos => and_congr_right (fun hlt => ?_))
  have hne : machPortMake i (s.isTable i).ieBits.gen ≠ n := by
    intro heq
    obtain ⟨rfl, hgen⟩ := (h.slot_name hpos hlt).mp heq
    exact (h.layout.tree_slot n ht hlt).2.2 hpos hgen
  rw [update_of_ne hne]

theorem Rep.hashedSlot_table (hm : m n ≠ none) (ht : s.isTree.get? n = none) (b : Bool) (i : Nat)
    : s.hashedSlot (update hashed n b) i ↔
        (i = machPortIndex n ∧ b = true) ∨ (i ≠ machPortIndex n ∧ s.hashedSlot hashed i) := by
  obtain ⟨hpos, hlt, -, -, hname⟩ := h.used_of_table hm ht
  unfold Space.hashedSlot
  by_cases hi : i = machPortIndex n
  . subst hi
    rw [hname, update_self]
    simp [hpos, hlt]
  . simp only [hi, false_and, false_or, ne_eq, not_false_eq_true, true_and]
    refine and_congr_right (fun hpos' => and_congr_right (fun hlt' => ?_))
    have hne : machPortMake i (s.isTable i).ieBits.gen ≠ n := fun heq => hi ((h.slot_name hpos' hlt').mp heq).1
    rw [update_of_ne hne]

end

def Space.setHash (s : Space) (isIndex : Nat → Nat) (buckets : Nat → List Nat) (count : Nat)
    : Space :=
  { s with isIndex := isIndex, ihGlobal := buckets, isTreeHash := count }

section

variable (h : Rep s m hashed free)
include h

theorem Rep.setHash {count : Nat} (hlocal : LinearProbe.WF s.isTableSize s.home (s.hashedSlot hashed') isIndex)
    (hglobal : GlobalHash s.bucket buckets count s.isTree.toList hashed')
    (hobj : ∀ n, hashed' n = true → ∃ r, m n = some r ∧ r.object ≠ ioNull)
    : Rep (s.setHash isIndex buckets count) m hashed' free :=
  { h with
    local_hash := hlocal
    global_hash := hglobal
    hashed_object := hobj }

variable {r : Right}

theorem Rep.object_table (hm : m n = some r) (ht : s.isTree.get? n = none)
    : (s.isTable (machPortIndex n)).ieObject = r.object := by
  obtain ⟨hpos, hlt, hfree, hgen, -⟩ := h.used_of_table (by simp [hm]) ht
  have hslot := h.layout.used_slot n hpos hlt hfree id hgen
  rw [hm] at hslot
  rw [Option.some.inj hslot]
  rfl

theorem Rep.object_tree (hm : m n = some r) (ht : s.isTree.get? n = some e) : e.ieObject = r.object := by
  have hr := (h.layout.tree_entry n e ht).1
  rw [hm] at hr
  rw [Option.some.inj hr]
  rfl

theorem Rep.global_hash_table (ht : s.isTree.get? n = none) (b : Bool)
    : GlobalHash s.bucket s.ihGlobal s.isTreeHash s.isTree.toList (update hashed n b) := by
  apply h.global_hash.congr_hashed
  rintro ⟨n', e⟩ he
  apply update_of_ne
  rintro rfl
  rw [h.mem_tree, ht] at he
  contradiction

theorem Rep.hashed_update (hm : m n = some r) (hobj : r.object ≠ ioNull) (b : Bool)
    : ∀ n', update hashed n b n' = true → ∃ r, m n' = some r ∧ r.object ≠ ioNull := by
  intro n' hn'
  by_cases heq : n' = n
  . subst heq
    exact ⟨r, hm, hobj⟩
  . rw [update_of_ne heq] at hn'
    exact h.hashed_object n' hn'

theorem Rep.hashInsert (hm : m n = some r) (hobj : r.object ≠ ioNull) (hnew : hashed n = false)
    : ∃ isIndex buckets count, ipcHashInsert s r.object n (s.loc n) = some (s.setHash isIndex buckets count) ∧
        Rep (s.setHash isIndex buckets count) m (update hashed n true) free := by
  have hobj' := h.hashed_update hm hobj true
  cases ht : s.isTree.get? n with
  | none =>
    obtain ⟨hpos, hlt, -, -, hname⟩ := h.used_of_table (by simp [hm]) ht
    have hr := h.object_table hm ht
    have hnotin : ¬ s.hashedSlot hashed (machPortIndex n) := by
      rintro ⟨-, -, hin⟩
      rw [hname, hnew] at hin
      contradiction
    obtain ⟨isIndex, hins, hwf⟩ := localInsert_spec h.local_hash hpos hlt hnotin (by rw [hr]; exact hobj)
    refine ⟨isIndex, s.ihGlobal, s.isTreeHash, ?_, h.setHash ?_ (h.global_hash_table ht _) hobj'⟩
    . rw [hr] at hins
      simpa [ipcHashInsert, loc, ht, hlt, Space.setHash] using hins
    . refine hwf.congr ?_ (fun _ _ => rfl)
      intro i
      rw [h.hashedSlot_table (by simp [hm]) ht]
      by_cases hi : i = machPortIndex n <;> simp [hi]
  | some e =>
    have hr := h.object_tree hm ht
    obtain ⟨buckets, count, hins, hglobal⟩ := globalInsert_spec h.global_hash h.unique
      h.tree_total (h.mem_tree.mpr ht) hnew (by rw [hr]; exact hobj)
    refine ⟨s.isIndex, buckets, count, ?_, h.setHash ?_ hglobal hobj'⟩
    . rw [hr] at hins
      simpa [ipcHashInsert, loc, Space.entry, ht, hr, Space.setHash] using hins
    . refine congr h.local_hash ?_ (fun _ _ => rfl)
      intro i
      rw [h.hashedSlot_tree (by simp [ht])]

theorem Rep.hashDelete (hm : m n = some r) (hin : hashed n = true)
    : ∃ isIndex buckets count, ipcHashDelete s r.object n (s.loc n) = some (s.setHash isIndex buckets count) ∧
        Rep (s.setHash isIndex buckets count) m (update hashed n false) free := by
  have hobj : r.object ≠ ioNull := by
    obtain ⟨r', hr', hne⟩ := h.hashed_object n hin
    rw [hm] at hr'
    cases hr'
    exact hne
  have hobj' := h.hashed_update hm hobj false
  cases ht : s.isTree.get? n with
  | none =>
    obtain ⟨hpos, hlt, -, -, hname⟩ := h.used_of_table (by simp [hm]) ht
    have hr := h.object_table hm ht
    have hslot : s.hashedSlot hashed (machPortIndex n) := ⟨hpos, hlt, by rw [hname]; exact hin⟩
    obtain ⟨isIndex, hdel, hwf⟩ := localDelete_spec h.local_hash hslot (by rw [hr]; exact hobj)
    refine ⟨isIndex, s.ihGlobal, s.isTreeHash, ?_, h.setHash ?_ (h.global_hash_table ht _) hobj'⟩
    . rw [hr] at hdel
      simpa [ipcHashDelete, loc, ht, hlt, Space.setHash] using hdel
    . refine hwf.congr ?_ (fun _ _ => rfl)
      intro i
      rw [h.hashedSlot_table (by simp [hm]) ht]
      simp
  | some e =>
    have hr := h.object_tree hm ht
    obtain ⟨buckets, count, hdel, hglobal⟩ := globalDelete_spec h.global_hash h.unique
      (h.mem_tree.mpr ht) hin (by rw [hr]; exact hobj)
    refine ⟨s.isIndex, buckets, count, ?_, h.setHash ?_ hglobal hobj'⟩
    . rw [hr] at hdel
      simpa [ipcHashDelete, loc, Space.entry, ht, hr, Space.setHash] using hdel
    . refine congr h.local_hash ?_ (fun _ _ => rfl)
      intro i
      rw [h.hashedSlot_tree (by simp [ht])]

theorem Rep.localLookup_spec (hobj : obj ≠ ioNull)
    : ∃ found, ipcHashLocalLookup s obj = some found ∧
        (∀ n loc, found = some (n, loc) → loc = s.loc n ∧ hashed n = true ∧ ∃ r, m n = some r ∧ r.object = obj) ∧
        (found = none → ∀ n r, hashed n = true → m n = some r → s.isTree.get? n = none → r.object ≠ obj) := by
  have hsize := h.size_range
  have hlt : ihLocalHash obj s.isTableSize < s.isTableSize := Nat.mod_lt _ (by omega)
  obtain ⟨found, hlook, hsome, hnone⟩ := LinearProbe.WF.lookup_spec h.local_hash hlt
    fun index => (s.isTable index).ieObject == obj
  refine ⟨_, by simp only [ipcHashLocalLookup, hobj, ne_eq, not_false_eq_true, assert_of_true, hlook,
    Option.bind_eq_bind, Option.bind_some, Option.pure_def]; rfl, fun n loc hn => ?_, fun hf n r hin hm ht hr => ?_⟩
  . obtain ⟨index, rfl, hpair⟩ := Option.map_eq_some_iff.mp hn
    obtain ⟨⟨hpos, hlt, hin⟩, hp⟩ := hsome index rfl
    obtain ⟨rfl, rfl⟩ := Prod.mk.inj hpair
    have hindex := machPortIndex_make (i := index) (h.gen_lt hpos hlt)
    have hgen := machPortGen_make (i := index) (h.gen_lt hpos hlt)
    have ht : s.isTree.get? (machPortMake index (s.isTable index).ieBits.gen) = none := by
      by_contra hne
      refine (h.layout.tree_slot _ hne (by rw [hindex]; exact hlt)).2.2 (by rw [hindex]; exact hpos) ?_
      rw [hindex, hgen]
    obtain ⟨r, hm, -⟩ := h.hashed_object _ hin
    have hr := h.object_table hm ht
    rw [hindex] at hr
    exact ⟨by simp [loc, ht, hindex], hin, r, hm, hr ▸ beq_iff_eq.mp hp⟩
  . obtain ⟨hpos, hlt, -, -, hname⟩ := h.used_of_table (by simp [hm]) ht
    have hobject := h.object_table hm ht
    have hslot : s.hashedSlot hashed (machPortIndex n) := ⟨hpos, hlt, by rw [hname]; exact hin⟩
    have hno := hnone (Option.map_eq_none_iff.mp hf) _ hslot (by rw [Space.home, hobject, hr])
    rw [hobject, hr] at hno
    simp at hno

theorem Rep.globalLookup_spec (hobj : obj ≠ ioNull)
    : ∃ found buckets, ipcHashGlobalLookup s obj = some (found, s.setHash s.isIndex buckets s.isTreeHash) ∧
        Rep (s.setHash s.isIndex buckets s.isTreeHash) m hashed free ∧
        (∀ n loc, found = some (n, loc) → loc = s.loc n ∧ hashed n = true ∧ ∃ r, m n = some r ∧ r.object = obj) ∧
        (found = none → ∀ n r, hashed n = true → m n = some r → s.isTree.get? n ≠ none → r.object ≠ obj) := by
  have hmem := h.global_hash.mem (s.bucket obj)
  obtain ⟨found, rest, hfind, hsome, hnone⟩ := ihGlobalFind_spec (s := s) obj
    (s.ihGlobal (s.bucket obj)) fun n hn => by
      obtain ⟨-, e, he, -⟩ := (hmem n).mp hn
      simp [h.mem_tree.mp he]
  cases found with
  | none =>
    refine ⟨none, s.ihGlobal, by simp [ipcHashGlobalLookup, hobj, hfind, Space.setHash], h, by simp, ?_⟩
    intro _ n r hin hm ht hr
    obtain ⟨e, he⟩ := Option.ne_none_iff_exists'.mp ht
    have hobject := h.object_tree hm he
    refine hnone rfl n ((hmem n).mpr ⟨hin, e, h.mem_tree.mpr he, ?_⟩) e he (hobject.trans hr)
    rw [hobject, hr]
  | some n =>
    obtain ⟨⟨e, he, heq⟩, hperm⟩ := hsome n rfl
    have hin := ((hmem n).mp (hperm.mem_iff.mp List.mem_cons_self)).1
    have hm := (h.layout.tree_entry n e he).1
    refine ⟨some (n, .tree n), _, by simp [ipcHashGlobalLookup, hobj, hfind, Space.setHash, Space.setBucket]; rfl,
      h.setHash h.local_hash ?_ h.hashed_object, ?_, by simp⟩
    . refine ⟨fun b => ?_, fun b n' => ?_, h.global_hash.count_eq⟩
      . split
        . next hb => exact hperm.nodup_iff.mpr (h.global_hash.nodup _)
        . exact h.global_hash.nodup b
      . split
        . next hb => rw [hperm.mem_iff, hmem, hb]
        . exact h.global_hash.mem b n'
    . intro n' loc hn'
      cases hn'
      exact ⟨by simp [Space.loc, he], hin, e.right, hm, heq⟩

theorem Rep.hashLookup_spec (hobj : obj ≠ ioNull)
    : ∃ found buckets, ipcHashLookup s obj = some (found, s.setHash s.isIndex buckets s.isTreeHash) ∧
        Rep (s.setHash s.isIndex buckets s.isTreeHash) m hashed free ∧
        (∀ n loc, found = some (n, loc) → loc = s.loc n ∧ hashed n = true ∧ ∃ r, m n = some r ∧ r.object = obj) ∧
        (found = none → ∀ n r, hashed n = true → m n = some r → r.object ≠ obj) := by
  obtain ⟨found, hlocal, hsome, hnone⟩ := h.localLookup_spec hobj
  cases found with
  | some found => exact ⟨some found, s.ihGlobal, by simp [ipcHashLookup, hlocal, Space.setHash], h, hsome, by simp⟩
  | none =>
    by_cases hcount : 0 < s.isTreeHash
    . obtain ⟨found, buckets, hglobal, hrep, hsome', hnone'⟩ := h.globalLookup_spec hobj
      refine ⟨found, buckets, by simp [ipcHashLookup, hlocal, hcount, hglobal], hrep, hsome', ?_⟩
      intro hf n r hin hm
      by_cases ht : s.isTree.get? n = none
      . exact hnone rfl n r hin hm ht
      . exact hnone' hf n r hin hm ht
    . refine ⟨none, s.ihGlobal, by simp [ipcHashLookup, hlocal, hcount, Space.setHash], h, by simp, ?_⟩
      intro _ n r hin hm
      refine hnone rfl n r hin hm ?_
      -- no name of the tree is in the global table
      by_contra ht
      obtain ⟨e, he⟩ := Option.ne_none_iff_exists'.mp ht
      apply hcount
      rw [h.global_hash.count_eq]
      exact List.countP_pos_iff.mpr ⟨(n, e), h.mem_tree.mpr he, hin⟩

end

end Ipc
