import UtahMach.Ipc.Entry.Store

/-!
This module contains what giving an entry back does to the map that a space represents.
-/

namespace Ipc

open Space (entry)

open Option (bind_eq_bind bind_some ne_none_iff_exists' pure_def some)

open Splay.SplayTree

open Function (update update_eq_self update_of_ne)

section Collision

variable {s : Space}

-- the value that stands for a missing neighbour is not a name
theorem neighbour_iff {x : Option Nat} (hx : x ≠ some missing)
    : (x.getD missing != missing && machPortIndex (x.getD missing) == i) = true ↔
        ∃ b, x = some b ∧ machPortIndex b = i := by
  cases x with
  | none => simp
  | some b =>
    have hne : b ≠ missing := fun heq => hx (congrArg some heq)
    simp [hne]

theorem ipcEntryTreeCollision_spec (hactive : s.isActive = true) (hwf : s.isTree.WF)
    (hkeys : ∀ e ∈ s.isTree.toList, 0 < e.1 ∧ e.1 < machPortDead) (n : Nat)
    : ∃ b tree, ipcEntryTreeCollision s n = some (b, { s with isTree := tree }) ∧ tree.WF ∧
        tree.toList = s.isTree.toList ∧
        (b = true ↔ HasIndex s.isTree.get? (machPortIndex n)) := by
  have hspec := bounds_spec hwf n
  rcases hb : s.isTree.bounds n with ⟨⟨lower, upper⟩, tree⟩
  simp only [hb] at hspec
  obtain ⟨hlow, hup, htree, hlist⟩ := hspec
  refine ⟨(lower.getD machPortLargest != machPortLargest &&
      machPortIndex (lower.getD machPortLargest) == machPortIndex n) ||
    (upper.getD machPortSmallest != machPortSmallest &&
      machPortIndex (upper.getD machPortSmallest) == machPortIndex n), tree,
    by simp [ipcEntryTreeCollision, hactive, hb], htree, hlist, ?_⟩
  have hindex : HasIndex s.isTree.get? (machPortIndex n) ↔
      ∃ e ∈ s.isTree.toList, machPortIndex e.1 = machPortIndex n := by
    simp only [HasIndex, ne_none_iff_exists', get?_eq_some_iff hwf]
    constructor
    . rintro ⟨n', hi, e, he⟩
      exact ⟨(n', e), he, hi⟩
    . rintro ⟨⟨n', e⟩, he, hi⟩
      exact ⟨n', hi, e, he⟩
  have hl : lower ≠ some machPortLargest := by
    rintro rfl
    obtain ⟨v, hv⟩ := hlow.1
    exact (hkeys _ hv).2.ne rfl
  have hu : upper ≠ some machPortSmallest := by
    rintro rfl
    obtain ⟨v, hv⟩ := hup.1
    exact (hkeys _ hv).1.ne rfl
  rw [Bool.or_eq_true, neighbour_iff hl, neighbour_iff hu, hindex]
  constructor
  . rintro (⟨b, rfl, hi⟩ | ⟨b, rfl, hi⟩)
    . obtain ⟨v, hv⟩ := hlow.1
      exact ⟨(b, v), hv, hi⟩
    . obtain ⟨v, hv⟩ := hup.1
      exact ⟨(b, v), hv, hi⟩
  . rintro ⟨e, he, hi⟩
    rcases Nat.le_total e.1 n with hle | hle
    . left
      cases lower with
      | none => exact absurd (hlow e he) (by omega)
      | some b =>
        have h1 := hlow.2.1
        have h2 := hlow.2.2 e he hle
        refine ⟨b, rfl, ?_⟩
        simp only [machPortIndex] at *
        omega
    . right
      cases upper with
      | none => exact absurd (hup e he) (by omega)
      | some b =>
        have h1 := hup.2.1
        have h2 := hup.2.2 e he hle
        refine ⟨b, rfl, ?_⟩
        simp only [machPortIndex] at *
        omega

end Collision

variable {s : Space} {m : Nat → Option Right} {hashed : Nat → Bool} {free : List Nat} {n : Nat}
  {r : Right} {table' : Nat → Entry} {e : Entry} {t : Nat}

theorem Rep.not_hashed (h : Rep s m hashed free) (hm : m n = some r) (hobj : r.object = ioNull) : hashed n = false := by
  by_contra hne
  obtain ⟨r', hr', hne'⟩ := h.hashed_object n (by simpa using hne)
  rw [hm] at hr'
  cases hr'
  contradiction

theorem Rep.hashed_object_erase (h : Rep s m hashed free) (hn : hashed n = false)
    : ∀ n', hashed n' = true → ∃ r, update m n none n' = some r ∧ r.object ≠ ioNull := by
  intro n' hn'
  obtain ⟨r, hr, hne⟩ := h.hashed_object n' hn'
  refine ⟨r, ?_, hne⟩
  rw [update_of_ne (by rintro rfl; simp [hn] at hn')]
  exact hr

theorem Rep.bound_erase (h : Rep s m hashed free) (n' : Nat) (hne : update m n none n' ≠ none)
    : 0 < n' ∧ n' < machPortDead := by
  apply h.bound
  by_cases hn : n' = n
  . subst hn
    simp at hne
  . rw [update_of_ne hn] at hne
    exact hne

theorem LocalHash.congr_table (h : LocalHash s (s.hashedSlot hashed))
    (heq : ∀ i, 0 < i → i < s.isTableSize → (table' i).ieBits.gen = (s.isTable i).ieBits.gen ∧
      (table' i).ieObject = (s.isTable i).ieObject)
    : LinearProbe.WF s.isTableSize ({ s with isTable := table' } : Space).home
        (({ s with isTable := table' } : Space).hashedSlot hashed) s.isIndex := by
  apply LinearProbe.WF.congr h
  . intro i
    refine and_congr_right (fun hpos => and_congr_right (fun hlt => ?_))
    rw [(heq i hpos hlt).1]
  . rintro i ⟨hpos, hlt, -⟩
    simp only [Space.home, (heq i hpos hlt).2]

theorem Rep.release (h : Rep s m hashed free) (hm : m n = some r)
    (hobj : r.object = ioNull) (ht : s.isTree.get? n = none)
    (hcoll : (s.isTable (machPortIndex n)).ieBits.collision = false)
    (hzero : table' 0 = { s.isTable 0 with ieRequest := machPortIndex n })
    (hself : table' (machPortIndex n) =
      { s.isTable (machPortIndex n) with
        ieBits := .ofGen (s.isTable (machPortIndex n)).ieBits.gen
        ieRequest := (s.isTable 0).ieNext })
    (hother : ∀ i, 0 < i → i ≠ machPortIndex n → table' i = s.isTable i)
    : Rep { s with isTable := table' } (update m n none) hashed
        (machPortIndex n :: free) := by
  obtain ⟨hpos, hlt, hfree, hgen, -⟩ := h.used_of_table (by simp [hm]) ht
  have hbits : (table' (machPortIndex n)).ieBits = .ofGen (machPortGen n) := by
    rw [hself, hgen]
  have hobj' : (table' (machPortIndex n)).ieObject = ioNull := by
    rw [hself]
    exact (h.object_table hm ht).trans hobj
  have hnext : (table' (machPortIndex n)).ieNext = (s.isTable 0).ieNext := by
    rw [hself]
    rfl
  exact { h with
    bound := h.bound_erase
    layout := h.layout.release hpos hlt hfree id hgen hcoll (by simp only [hzero]) hother hbits hobj'
    head_bits := by
      simp only [hzero]
      exact h.head_bits
    chain := by
      refine ⟨by simp only [hzero]; rfl, by omega, h.chain.congr hnext ?_⟩
      intro j hj
      exact congrArg Entry.ieNext
        (hother j (h.layout.free_range j hj).1 (by rintro rfl; exact hfree hj))
    nodup := List.nodup_cons.mpr ⟨hfree, h.nodup⟩
    local_hash := by
      apply LocalHash.congr_table h.local_hash
      intro i hi _
      by_cases heq : i = machPortIndex n
      . rw [heq, hself]
        exact ⟨rfl, rfl⟩
      . rw [hother i hi heq]
        exact ⟨rfl, rfl⟩
    hashed_object := h.hashed_object_erase (h.not_hashed hm hobj)
  }

theorem Rep.recolored (h : Rep s m hashed free) (hother : ∀ i, i ≠ machPortIndex n → table' i = s.isTable i)
    (hself : machPortIndex n < s.isTableSize → ∃ b, table' (machPortIndex n) = { s.isTable (machPortIndex n) with
        ieBits := { (s.isTable (machPortIndex n)).ieBits with collision := b } })
    : ((table' 0).ieBits.type = .none ∧ (table' 0).ieBits.gen = genMask) ∧ FreeChain table' 0 free ∧
        LinearProbe.WF s.isTableSize ({ s with isTable := table' } : Space).home
          (({ s with isTable := table' } : Space).hashedSlot hashed) s.isIndex := by
  have hsize := h.size_range
  have hslots : ∀ i, i < s.isTableSize → (table' i).ieBits.gen = (s.isTable i).ieBits.gen ∧
      (table' i).right = (s.isTable i).right := by
    intro i hi
    by_cases heq : i = machPortIndex n
    . subst heq
      obtain ⟨b, hb⟩ := hself hi
      rw [hb]
      exact ⟨rfl, rfl⟩
    . rw [hother i heq]
      exact ⟨rfl, rfl⟩
  obtain ⟨hgen, hright⟩ := hslots 0 (by omega)
  refine ⟨⟨(congrArg Right.type hright).trans h.head_bits.1, hgen.trans h.head_bits.2⟩, ?_, ?_⟩
  . apply h.chain.congr
    . exact congrArg Right.request hright
    . intro j hj
      exact congrArg Right.request (hslots j (h.layout.free_range j hj).2).2
  . apply LocalHash.congr_table h.local_hash
    intro i _ hi
    exact ⟨(hslots i hi).1, congrArg Right.object (hslots i hi).2⟩

theorem Rep.leave (h : Rep s m hashed free) (ht : s.isTree.get? n = some e) (hn : hashed n = false) (hwf : tree'.WF)
    (hperm : s.isTree.toList.Perm ((n, e) :: tree'.toList))
    (hother : ∀ i, i ≠ machPortIndex n → table' i = s.isTable i)
    (hself : machPortIndex n < s.isTableSize → ∃ b, table' (machPortIndex n) = { s.isTable (machPortIndex n) with
        ieBits := { (s.isTable (machPortIndex n)).ieBits with collision := b } } ∧
      (b = true ↔ HasIndex tree'.get? (machPortIndex n)))
    (hsmall : small' = treeSmall tree'.get? s.isTableSize (itsSize s.isTableNext)) : Rep { s with
        isTable := table', isTree := tree', isTreeTotal := s.isTreeTotal - 1, isTreeSmall := small' }
        (update m n none) hashed free := by
  have hget := get?_erase_of_perm hwf h.tree_wf hperm
  obtain ⟨hhead, hchain, hlocal⟩ := h.recolored hother fun hlt => (hself hlt).imp fun _ hb => hb.1
  exact { h with
    bound := h.bound_erase
    layout := by
      apply h.layout.leave (by simp [ht]) hget hother
      intro hlt
      obtain ⟨b, hb, hiff⟩ := hself hlt
      rw [hb]
      exact ⟨rfl, rfl, hiff⟩
    head_bits := hhead
    chain := hchain
    tree_wf := hwf
    tree_total := by
      have hlen := hperm.length_eq
      rw [List.length_cons, ← h.tree_total] at hlen
      simp only
      omega
    tree_small := hsmall
    local_hash := hlocal
    global_hash := by
      refine (h.global_hash.perm hperm).congr ?_ ?_
      . intro n' obj hn'
        have hne : n' ≠ n := by
          rintro rfl
          simp [hn] at hn'
        simp [hne]
      . simp [hn]
    hashed_object := h.hashed_object_erase hn
  }

theorem GlobalHash.drop {bucket : Nat → Nat} {count : Nat}
    {xs rest : List (Nat × Entry)} (hu : UniqueNames xs) (hperm : xs.Perm ((t, e) :: rest))
    (h : GlobalHash bucket buckets count xs (update hashed t false)) : GlobalHash bucket buckets count rest hashed := by
  have hu' := hu.perm hperm
  have hdrop : GlobalHash bucket buckets count rest (update hashed t false) := by
    refine (h.perm hperm).congr ?_ ?_
    . intro n' obj hn'
      have hne : n' ≠ t := by
        rintro rfl
        simp at hn'
      simp [hne]
    . simp
  apply hdrop.congr_hashed
  rintro ⟨n', e'⟩ he'
  rw [update_of_ne]
  rintro rfl
  exact hu'.not_mem_of_cons he'

theorem moveToTable_spec {xs rest : List (Nat × Entry)} {index : Nat} (hl : LocalHash s recs)
    (hg : GlobalHash s.bucket s.ihGlobal s.isTreeHash xs hashed) (hu : UniqueNames xs)
    (hperm : xs.Perm ((t, e) :: rest)) (hagree : hashed t = true ↔ e.ieBits.type = .send)
    (hobj : hashed t = true → e.ieObject ≠ ioNull) (hpos : 0 < index)
    (hlt : index < s.isTableSize) (hrec : ¬ recs index)
    : ∃ isIndex buckets count, ipcEntryDealloc.moveToTable s index t e =
          some ((s.setTable index (e.orGen t)).setHash isIndex buckets count) ∧
        LocalHash ((s.setTable index (e.orGen t)).setHash isIndex buckets count)
          (fun i => (i = index ∧ hashed t = true) ∨ recs i) ∧ GlobalHash s.bucket buckets count rest hashed := by
  -- The reverse hash table does not look at the slot that is written.
  have hl' : LocalHash (s.setTable index (e.orGen t)) recs := by
    refine LinearProbe.WF.congr hl (fun _ => Iff.rfl) ?_
    intro i hi
    have hne : i ≠ index := by
      rintro rfl
      contradiction
    simp only [Space.home, setTable_of_ne s _ hne]
    rfl
  by_cases hsend : e.ieBits.type = .send
  . have ht := hagree.mpr hsend
    have hmem : (t, e) ∈ xs := hperm.mem_iff.mpr List.mem_cons_self
    have hne := hobj ht
    obtain ⟨buckets, count, hdel, hglobal⟩ := globalDelete_spec (s := s.setTable index (e.orGen t)) hg hu hmem ht hne
    have hl'' : LocalHash ((s.setTable index (e.orGen t)).setHash s.isIndex buckets count) recs := hl'
    have hslot : ((s.setTable index (e.orGen t)).setHash s.isIndex buckets count).isTable index = e.orGen t :=
      setTable_self s index _
    obtain ⟨isIndex, hins, hlocal⟩ := localInsert_spec hl'' hpos hlt hrec (by rw [hslot]; exact hne)
    refine ⟨isIndex, buckets, count, ?_, ?_, GlobalHash.drop hu hperm hglobal⟩
    . rw [hslot] at hins
      simp only [ipcEntryDealloc.moveToTable, hsend, if_true, hdel, bind_eq_bind, bind_some]
      exact hins
    . refine hlocal.congr ?_ (fun _ _ => rfl)
      simp [ht]
  . have ht : hashed t = false := by
      rw [← Bool.not_eq_true, hagree]
      exact hsend
    refine ⟨s.isIndex, s.ihGlobal, s.isTreeHash, ?_, ?_, ?_⟩
    . simp only [ipcEntryDealloc.moveToTable, hsend, if_false, pure_def]
      rfl
    . refine hl'.congr ?_ (fun _ _ => rfl)
      simp [ht]
    . apply GlobalHash.drop hu hperm
      rw [← ht, update_eq_self]
      exact hg

theorem gen_orGen (h : e.ieBits.gen = 0) (t : Nat) : (e.orGen t).ieBits.gen = machPortGen t := by
  simp [Entry.orGen, h]

theorem Rep.migrate (h : Rep s m hashed free) (hm : m n = some r)
    (hobj : r.object = ioNull) (ht : s.isTree.get? n = none)
    (hte : s.isTree.get? t = some e) (hindex : machPortIndex t = machPortIndex n) (hwf : tree'.WF)
    (hperm : s.isTree.toList.Perm ((t, e) :: tree'.toList)) (table' : Nat → Entry) (b : Bool)
    (hself : table' (machPortIndex n) = { e.orGen t with ieBits := { (e.orGen t).ieBits with collision := b } })
    (hb : b = true ↔ HasIndex tree'.get? (machPortIndex n))
    (hother : ∀ i, i ≠ machPortIndex n → table' i = s.isTable i) {count : Nat}
    (hlocal : LinearProbe.WF s.isTableSize ({ s with isTable := table' } : Space).home
      (fun i => (i = machPortIndex n ∧ hashed t = true) ∨ s.hashedSlot hashed i) isIndex)
    (hglobal : GlobalHash s.bucket buckets count tree'.toList hashed)
    : Rep ({ s with
        isTable := table', isTree := tree', isTreeTotal := s.isTreeTotal - 1 }.setHash
          isIndex buckets count)
        (update m n none) hashed free := by
  obtain ⟨hpos, hlt, hfree, hgen, hname⟩ := h.used_of_table (by simp [hm]) ht
  have hn := h.not_hashed hm hobj
  have hget := get?_erase_of_perm hwf h.tree_wf hperm
  have hgen' : (table' (machPortIndex n)).ieBits.gen = machPortGen t := by
    rw [hself]
    exact gen_orGen (h.layout.tree_entry t e hte).2.1 t
  have hright : (table' (machPortIndex n)).right = e.right := by
    rw [hself]
    rfl
  have hcoll : (table' (machPortIndex n)).ieBits.collision = true ↔
      HasIndex tree'.get? (machPortIndex n) := by
    rw [hself]
    exact hb
  exact { h with
    bound := h.bound_erase
    layout := h.layout.migrate hpos hlt hfree id hgen hte hindex hother rfl hright hgen' hget
      hcoll
    head_bits := by
      simp only [Space.setHash, hother 0 (by omega)]
      exact h.head_bits
    chain := h.chain.congr_of_ne hpos.ne hfree hother
    tree_wf := hwf
    tree_total := by
      have hlen := hperm.length_eq
      rw [List.length_cons, ← h.tree_total] at hlen
      simp only [Space.setHash]
      omega
    tree_small := by
      -- The indices that are counted are beyond the table.
      refine h.tree_small.trans (treeSmall_congr ?_)
      intro i hi _
      apply exists_congr
      intro n'
      refine and_congr_right (fun hn' => ?_)
      have hne : n' ≠ t := by
        rintro rfl
        omega
      simp only [Space.setHash, hget, if_neg hne]
    local_hash := by
      refine hlocal.congr ?_ (fun _ _ => rfl)
      intro i
      simp only [Space.hashedSlot, Space.setHash]
      by_cases hi : i = machPortIndex n
      . subst hi
        have hslot : machPortMake (machPortIndex n) (machPortGen t) = t := by
          rw [← hindex, machPortMake_index_gen]
        rw [hname, hn, hgen', hslot]
        simp [hpos, hlt]
      . simp [hi, hother i hi]
    global_hash := hglobal
    hashed_object := h.hashed_object_erase hn
  }

def KeepsLocs (index : Nat) (s s' : Space) : Prop := ∀ n, machPortIndex n ≠ index → s'.loc n = s.loc n

theorem KeepsLocs.of_perm {index : Nat} {tree' : Splay.SplayTree Nat Entry} (hwf' : tree'.WF) (hwf : s.isTree.WF)
    (hperm : s.isTree.toList.Perm ((t, e) :: tree'.toList)) (hindex : machPortIndex t = index) (s' : Space)
    (htree : s'.isTree = tree') : KeepsLocs index s s' := by
  intro n hn
  have hne : n ≠ t := by
    rintro rfl
    exact hn hindex
  simp only [Space.loc, htree, get?_erase_of_perm hwf' hwf hperm, if_neg hne]

theorem split_index (hwf : s.isTree.WF) (i : Nat)
    : ∃ tree c small collisions, s.isTree.split (machPortMake (i + 1) 0) = (tree, c) ∧
        c.split (machPortMake i 0) = (collisions, small) ∧ tree.WF ∧ small.WF ∧ collisions.WF ∧
        s.isTree.toList = small.toList ++ (collisions.toList ++ tree.toList) ∧
        (∀ e ∈ small.toList, machPortIndex e.1 < i) ∧ (∀ e ∈ collisions.toList, machPortIndex e.1 = i) ∧
        (∀ e ∈ tree.toList, i < machPortIndex e.1) := by
  have h1 := split_spec hwf (machPortMake (i + 1) 0)
  rcases hs1 : s.isTree.split (machPortMake (i + 1) 0) with ⟨tree, c⟩
  rw [hs1] at h1
  obtain ⟨htree, hc, hlist, hlt, hge⟩ := h1
  have h2 := split_spec hc (machPortMake i 0)
  rcases hs2 : c.split (machPortMake i 0) with ⟨collisions, small⟩
  rw [hs2] at h2
  obtain ⟨hcoll, hsmall, hlist', hlt', hge'⟩ := h2
  refine ⟨tree, c, small, collisions, rfl, hs2, htree, hsmall, hcoll, ?_, ?_, ?_, ?_⟩
  . rw [hlist, hlist', List.append_assoc]
  . intro e he
    have := hlt' e he
    simp only [machPortMake, machPortIndex] at *
    omega
  . intro e he
    have hup := hlt e (by rw [hlist']; exact List.mem_append_right _ he)
    have hlow := hge' e he
    simp only [machPortMake, machPortIndex] at *
    omega
  . intro e he
    have := hge e he
    simp only [machPortMake, machPortIndex] at *
    omega

theorem join_index {i : Nat} {tree small collisions : Splay.SplayTree Nat Entry}
    (htree : tree.WF) (hsmall : small.WF) (hcoll : collisions.WF) (hlt : ∀ e ∈ small.toList, machPortIndex e.1 < i)
    (heq : ∀ e ∈ collisions.toList, machPortIndex e.1 = i) (hgt : ∀ e ∈ tree.toList, i < machPortIndex e.1)
    : (join machPortSmallest (join machPortSmallest tree collisions) small).WF ∧ (join machPortSmallest
        (join machPortSmallest tree collisions) small).toList =
        small.toList ++ (collisions.toList ++ tree.toList) := by
  have lt_of_index : ∀ a b : Nat, machPortIndex a < machPortIndex b → a < b := by
    intro a b hab
    simp only [machPortIndex] at hab
    omega
  obtain ⟨hwf, hlist⟩ := join_spec machPortSmallest htree hcoll
    (by
      intro a ha b hb
      apply lt_of_index
      rw [heq a ha]
      exact hgt b hb)
    (fun e _ => Nat.zero_le _)
  obtain ⟨hwf', hlist'⟩ := join_spec machPortSmallest hwf hsmall
    (by
      intro a ha b hb
      apply lt_of_index
      rw [hlist, List.mem_append] at hb
      rcases hb with hin | hin
      . rw [heq b hin]
        exact hlt a ha
      . exact (hlt a ha).trans (hgt b hin))
    (fun e _ => Nat.zero_le _)
  exact ⟨hwf', by rw [hlist', hlist]⟩

section

variable (h : Rep s m hashed free) (hm : m n = some r) (hobj : r.object = ioNull)
include h hm hobj

theorem migrate_spec (ht : s.isTree.get? n = none)
    (hagree : ∀ n' r', n' ≠ n → m n' = some r' → (hashed n' = true ↔ r'.type = .send))
    (hcoll : (s.isTable (machPortIndex n)).ieBits.collision = true)
    : ∃ s', ipcEntryDealloc.migrate s (machPortIndex n) = some s' ∧ Rep s' (update m n none) hashed free ∧
        KeepsLocs (machPortIndex n) s s' := by
  obtain ⟨hpos, hlt, hfree, -, hname⟩ := h.used_of_table (by simp [hm]) ht
  obtain ⟨tree, c, small, collisions, hs1, hs2, htree, hsmall, hcollwf, hlist, hltS, heqC, hgtT⟩ :=
    split_index h.tree_wf (machPortIndex n)
  -- A name with this index can be picked.
  obtain ⟨hpick, hpick_mem⟩ := pick_spec collisions
  have hne : collisions.pick ≠ none := by
    rw [Ne, hpick]
    obtain ⟨n', hn', hin⟩ := (h.layout.used_collision _ hlt hfree id).mp hcoll
    obtain ⟨e', he'⟩ := ne_none_iff_exists'.mp hin
    rw [← h.mem_tree, hlist, List.mem_append, List.mem_append] at he'
    intro hnil
    rcases he' with hin | hin | hin
    . have := hltS _ hin
      simp only at this
      omega
    . rw [hnil] at hin
      contradiction
    . have := hgtT _ hin
      simp only at this
      omega
  obtain ⟨⟨t, e⟩, hte⟩ := ne_none_iff_exists'.mp hne
  have hmemC := hpick_mem _ hte
  have hindex : machPortIndex t = machPortIndex n := heqC _ hmemC
  have hmem : (t, e) ∈ s.isTree.toList := by
    rw [hlist]
    exact List.mem_append_right _ (List.mem_append_left _ hmemC)
  have hget := h.mem_tree.mp hmem
  have htn : t ≠ n := by
    rintro rfl
    rw [ht] at hget
    contradiction
  have hmt := (h.layout.tree_entry t e hget).1
  -- What is left of the tree.
  obtain ⟨hdelwf, hdelperm⟩ := delete_spec machPortLargest hcollwf
    ((get?_eq_some_iff hcollwf).mpr hmemC)
    (fun e' he' => h.tree_le_largest e' (by
      rw [hlist]
      exact List.mem_append_right _ (List.mem_append_left _ he')))
  generalize hdel : collisions.delete machPortLargest t = collisions' at hdelwf hdelperm
  have heqC' : ∀ e' ∈ collisions'.toList, machPortIndex e'.1 = machPortIndex n := fun e' he' =>
    heqC e' (hdelperm.mem_iff.mpr (List.mem_cons_of_mem _ he'))
  obtain ⟨hwf', hlist'⟩ := join_index htree hsmall hdelwf hltS heqC' hgtT
  generalize htree' : join machPortSmallest (join machPortSmallest tree collisions') small = tree' at hwf' hlist'
  have hperm : s.isTree.toList.Perm ((t, e) :: tree'.toList) := by
    rw [hlist, hlist']
    refine List.Perm.trans (List.Perm.append_left _ (hdelperm.append_right _)) ?_
    exact List.perm_middle
  have hlocs := KeepsLocs.of_perm (s := s) hwf' h.tree_wf hperm hindex
  have hhas : HasIndex tree'.get? (machPortIndex n) ↔ collisions'.toList ≠ [] := by
    simp only [HasIndex, ne_none_iff_exists', get?_eq_some_iff hwf', hlist', List.mem_append]
    constructor
    . rintro ⟨n', hn', e', hin | hin | hin⟩ hnil
      . exact absurd hn' (hltS _ hin).ne
      . simp [hnil] at hin
      . exact absurd hn' (hgtT _ hin).ne'
    . intro hne'
      obtain ⟨⟨n', e'⟩, hin⟩ := List.exists_mem_of_ne_nil _ hne'
      exact ⟨n', heqC' _ hin, e', Or.inr (Or.inl hin)⟩
  have hl : LocalHash { s with isTree := tree } (s.hashedSlot hashed) := h.local_hash
  obtain ⟨isIndex, buckets, count, hmove, hlocal, hglobal⟩ :=
    moveToTable_spec hl h.global_hash h.unique hperm (hagree t e.right htn hmt)
      (fun hh => by
        obtain ⟨r', hr', hne'⟩ := h.hashed_object t hh
        rw [hmt] at hr'
        cases hr'
        exact hne')
      hpos hlt
      (by
        rintro ⟨-, -, hin⟩
        rw [hname, h.not_hashed hm hobj] at hin
        contradiction)
  have htotal := tree_total_pos h (n := t) (by simp [hget])
  have hpos' : 0 < (({ s with isTree := tree }.setTable (machPortIndex n) (e.orGen t)).setHash
      isIndex buckets count).isTreeTotal := htotal
  simp only [ipcEntryDealloc.migrate, hs1, hs2, hte, hindex, assert_of_true, hmove, hpos', hdel, bind_eq_bind,
    bind_some, pure_def]
  cases hpick' : collisions'.pick with
  | none =>
    have hnil := (pick_spec collisions').1.mp hpick'
    have hj : join machPortSmallest tree collisions' = tree := by
      simp [join, toList_eq_nil_iff.mp hnil]
    rw [hj] at htree'
    rw [← htree'] at hwf' hperm hhas hglobal hlocs
    refine ⟨_, rfl, ?_, hlocs _ rfl⟩
    refine h.migrate hm hobj ht hget hindex hwf' hperm
      (s.setTable (machPortIndex n) (e.orGen t)).isTable false ?_ ?_ ?_ hlocal hglobal
    . rw [setTable_self, ← (h.layout.tree_entry t e hget).2.2]
      rfl
    . simp [hhas, hnil]
    . intro i hi
      exact setTable_of_ne s _ hi
  | some x =>
    have hne' : collisions'.toList ≠ [] := by
      intro hnil
      rw [(pick_spec collisions').1.mpr hnil] at hpick'
      contradiction
    rw [← htree'] at hwf' hperm hhas hglobal hlocs
    refine ⟨_, rfl, ?_, hlocs _ rfl⟩
    refine h.migrate hm hobj ht hget hindex hwf' hperm
      ((s.setTable (machPortIndex n) (e.orGen t)).setCollision (machPortIndex n) true).isTable true
      ?_ ?_ ?_ ?_ hglobal
    . rw [Space.setCollision, setTable_self, setTable_self]
    . simp [hhas, hne']
    . intro i hi
      rw [Space.setCollision, setTable_of_ne _ _ hi, setTable_of_ne _ _ hi]
    . refine hlocal.congr (fun _ => Iff.rfl) ?_
      intro i _
      by_cases hi : i = machPortIndex n
      . subst hi
        simp [Space.home, Space.setHash, Space.setCollision, Space.setTable]
      . simp [Space.home, Space.setHash, Space.setCollision, Space.setTable, hi]

theorem deallocTree_spec (hreq : r.request = 0) (ht : s.isTree.get? n = some e)
    : ∃ s', ipcEntryDealloc s n (.tree n) = some s' ∧ Rep s' (update m n none) hashed free ∧
        KeepsLocs (machPortIndex n) s s' := by
  have hr : e.right = r := by
    rw [(h.layout.tree_entry n e ht).1] at hm
    exact some.inj hm
  have hobj' : e.ieObject = ioNull := by
    rw [← hobj, ← hr]
    rfl
  have hreq' : e.ieRequest = 0 := by
    rw [← hreq, ← hr]
    rfl
  have hact : assert (s.isActive = true) = some () := assert_of_true h.active
  have htotal := tree_total_pos h (n := n) (by simp [ht])
  have hn := h.not_hashed hm hobj
  obtain ⟨hwf, hperm⟩ := delete_spec machPortLargest h.tree_wf ht h.tree_le_largest
  generalize hdel : s.isTree.delete machPortLargest n = tree at hwf hperm
  have hget := get?_erase_of_perm hwf h.tree_wf hperm
  have hkeys : ∀ e ∈ tree.toList, 0 < e.1 ∧ e.1 < machPortDead := by
    rintro ⟨n', e'⟩ he'
    have hmem := h.mem_tree.mp (hperm.mem_iff.mpr (List.mem_cons_of_mem _ he'))
    exact h.bound n' (h.layout.tree_names (by simp [hmem]))
  have hother : ∀ i, i ≠ machPortIndex n → (HasIndex s.isTree.get? i ↔ HasIndex tree.get? i) := by
    intro i hi
    apply exists_congr
    intro n'
    refine and_congr_right (fun hn' => ?_)
    rw [hget, if_neg]
    rintro rfl
    exact hi hn'.symm
  have hself : HasIndex s.isTree.get? (machPortIndex n) := ⟨n, rfl, by simp [ht]⟩
  obtain ⟨b, tree', hcoll, hwf', hlist', hb⟩ := ipcEntryTreeCollision_spec
    (s := { s with isTree := tree, isTreeTotal := s.isTreeTotal - 1 }) h.active hwf hkeys n
  have hget' : tree'.get? = tree.get? := get?_of_toList_eq hlist'
  have hperm' : s.isTree.toList.Perm ((n, e) :: tree'.toList) := by
    rw [hlist']
    exact hperm
  have hlocs := KeepsLocs.of_perm (s := s) hwf h.tree_wf hperm rfl
  have hlocs' := KeepsLocs.of_perm (s := s) hwf' h.tree_wf hperm' rfl
  simp only [ipcEntryDealloc, hact, entry, ht, hobj', hreq', htotal, hdel, assert_of_true, reduceCtorEq, and_false,
    if_false, bind_eq_bind, bind_some, pure_def]
  by_cases hlt : machPortIndex n < s.isTableSize
  . -- The slot of the name is used, and its collision bit may go off.
    obtain ⟨hfree, -, -⟩ := h.layout.tree_slot n (by simp [ht]) hlt
    have hbit := (h.layout.used_collision _ hlt hfree id).mpr hself
    have hsmall : s.isTreeSmall = treeSmall tree'.get? s.isTableSize (itsSize s.isTableNext) := by
      rw [h.tree_small, hget']
      apply treeSmall_congr
      intro i hi _
      exact hother i (by omega)
    cases b with
    | false =>
      refine ⟨_, by
        simp only [hlt, hbit, hcoll, assert_of_true, bind_some, if_false, if_true, Bool.false_eq_true]
        rfl, ?_, hlocs' _ rfl⟩
      refine h.leave ht hn hwf' hperm' ?_ ?_ hsmall
      . intro i hi
        exact setTable_of_ne s _ hi
      . intro _
        refine ⟨false, setTable_self s _ _, ?_⟩
        rw [hget']
        exact hb
    | true =>
      refine ⟨_, by
        simp only [hlt, hbit, hcoll, assert_of_true, bind_some, if_true]
        rfl, ?_, hlocs' _ rfl⟩
      refine h.leave ht hn hwf' hperm' (fun _ _ => rfl) ?_ hsmall
      intro _
      refine ⟨true, ?_, ?_⟩
      . rw [← hbit]
      . rw [hget']
        exact hb
  . by_cases hnext : machPortIndex n < itsSize s.isTableNext
    . cases b with
      | false =>
        have hgone : ¬ HasIndex tree.get? (machPortIndex n) := fun hc => Bool.false_ne_true (hb.mpr hc)
        have hsucc := treeSmall_succ s.isTableSize (itsSize s.isTableNext) (by omega) hnext hother hself hgone
        rw [← h.tree_small] at hsucc
        have hsmall : 0 < s.isTreeSmall := by omega
        refine ⟨_, by
          simp only [hlt, hnext, hcoll, hsmall, assert_of_true, bind_some, if_false, if_true, Bool.false_eq_true]
          rfl, ?_, hlocs' _ rfl⟩
        refine h.leave ht hn hwf' hperm' (fun _ _ => rfl) (fun hc => absurd hc hlt) ?_
        rw [hget']
        omega
      | true =>
        refine ⟨_, by
          simp only [hlt, hnext, hcoll, bind_some, if_false, if_true]
          rfl, ?_, hlocs' _ rfl⟩
        refine h.leave ht hn hwf' hperm' (fun _ _ => rfl) (fun hc => absurd hc hlt) ?_
        rw [hget']
        refine h.tree_small.trans (treeSmall_congr ?_)
        intro i _ _
        by_cases hi : i = machPortIndex n
        . rw [hi]
          exact iff_of_true hself (hb.mp rfl)
        . exact hother i hi
    . refine ⟨_, by
        simp only [hlt, hnext, if_false]
        rfl, ?_, hlocs _ rfl⟩
      refine h.leave ht hn hwf hperm (fun _ _ => rfl) (fun hc => absurd hc hlt) ?_
      refine h.tree_small.trans (treeSmall_congr ?_)
      intro i _ hi
      exact hother i (by omega)

theorem ipcEntryDealloc_spec (hreq : r.request = 0)
    (hagree : ∀ n' r', n' ≠ n → m n' = some r' → (hashed n' = true ↔ r'.type = .send))
    : ∃ s' free', ipcEntryDealloc s n (s.loc n) = some s' ∧ Rep s' (update m n none) hashed free' ∧
        KeepsLocs (machPortIndex n) s s' := by
  cases ht : s.isTree.get? n with
  | some e =>
    obtain ⟨s', hs', hrep, hlocs⟩ := deallocTree_spec h hm hobj hreq ht
    exact ⟨s', free, by simpa [Space.loc, ht] using hs', hrep, hlocs⟩
  | none =>
    obtain ⟨hpos, hlt, hfree, hgen, -⟩ := h.used_of_table (by simp [hm]) ht
    have hslot := h.layout.used_slot n hpos hlt hfree id hgen
    rw [hm] at hslot
    have hobj' : (s.isTable (machPortIndex n)).ieObject = ioNull := (h.object_table hm ht).trans hobj
    have hreq' : (s.isTable (machPortIndex n)).ieRequest = 0 := by
      rw [← hreq, some.inj hslot]
      rfl
    have hact : assert (s.isActive = true) = some () := assert_of_true h.active
    have hloc : s.loc n = .table (machPortIndex n) := by simp [Space.loc, ht]
    simp only [ipcEntryDealloc, hact, hloc, entry, hlt, if_true, hobj', hreq', hgen, assert_of_true, and_self,
      bind_eq_bind, bind_some]
    cases hcoll : (s.isTable (machPortIndex n)).ieBits.collision with
    | true =>
      obtain ⟨s', hs', hrep, hlocs⟩ := migrate_spec h hm hobj ht hagree hcoll
      exact ⟨s', free, hs', hrep, hlocs⟩
    | false =>
      refine ⟨_, machPortIndex n :: free, rfl, ?_, fun _ _ => rfl⟩
      refine h.release hm hobj ht hcoll ?_ ?_ ?_
      . simp [Space.setTable, hpos.ne]
      . simp [hpos.ne', hobj', hgen, Space.setTable]
      . intro i hi hne
        simp [hi.ne', hne, Space.setTable]

end

end Ipc
