import UtahMach.Ipc.Entry.GrowTable

/-!
This module contains the correctness of the functions that allocate entries.
-/

namespace Ipc

open Splay.SplayTree Right

open Function (update update_apply update_eq_self_iff update_of_ne)

variable {s : Space} {m : Nat → Option Right} {hashed : Nat → Bool} {free : List Nat} {n : Nat}

theorem ieNext_mk (bits : IeBits) (object next : Nat) : (Entry.mk bits object next).ieNext = next := rfl

theorem isTable_create (addr mask initial i : Nat) : (ipcSpaceCreate addr mask initial).isTable i =
        ⟨.ofGen genMask, ioNull, if i + 1 = itsSize initial then 0 else i + 1⟩ := rfl

theorem freeChain_create (addr mask initial i k : Nat) (hk : i + k + 1 = itsSize initial)
    : FreeChain (ipcSpaceCreate addr mask initial).isTable i (List.range' (i + 1) k) := by
  induction k generalizing i with
  | zero =>
    rw [List.range'_zero, FreeChain, isTable_create, ieNext_mk, if_pos (by omega)]
  | succ k ih =>
    refine ⟨?_, by omega, ih (i + 1) (by omega)⟩
    rw [isTable_create, ieNext_mk, if_neg (by omega)]

theorem ipcSpaceCreate_rep (addr mask : Nat) (hinitial : initial < 511)
    : Rep (ipcSpaceCreate addr mask initial) (fun _ => none) (fun _ => false)
        (List.range' 1 (itsSize initial - 1)) := by
  have hsize := itsSize_range (i := initial) (by omega)
  have hmem : ∀ i, i ∈ List.range' 1 (itsSize initial - 1) ↔ 0 < i ∧ i < itsSize initial := by
    intro i
    rw [List.mem_range'_1]
    omega
  have hget : ∀ n, (ipcSpaceCreate addr mask initial).isTree.get? n = none := fun n => get?_of_root_eq_nil rfl n
  have hno : ∀ i, ¬ HasIndex (ipcSpaceCreate addr mask initial).isTree.get? i := by
    rintro i ⟨n, -, hne⟩
    exact hne (hget n)
  exact {
    active := rfl
    growing := rfl
    next_range := ⟨by simp [ipcSpaceCreate], by simp only [ipcSpaceCreate]; omega⟩
    size_eq := rfl
    bound := by simp
    layout := {
      free_spare := fun i hi =>
        ⟨(hmem i).mp hi, rfl, by simp [ipcSpaceCreate, IeBits.ofGen, genMask], rfl, fun n _ => ⟨hget n, rfl⟩⟩
      blank_spare := by simp
      blank_slot := by simp
      blank_not_free := by simp
      used := fun i hi _ => {
        gen := fun hpos hlt => absurd ((hmem i).mpr ⟨hpos, hlt⟩) hi
        collision := fun _ => iff_of_false Bool.false_ne_true (hno i)
        owner := fun n hn hown => absurd ((hmem i).mpr (hn ▸ ⟨hown.1, hown.2.1⟩)) hi
        others := by simp [hget]
        entry := by simp [hget]
      }
    }
    head_bits := ⟨rfl, rfl⟩
    chain := freeChain_create addr mask initial 0 (itsSize initial - 1) (by omega)
    nodup := List.nodup_range'
    tree_wf := init_wf _
    tree_total := rfl
    tree_small := (treeSmall_eq_zero hno _ _).symm
    local_hash := by
      have hinit : LinearProbe.WF (itsSize initial) (ipcSpaceCreate addr mask initial).home
          (fun _ => False) (fun _ => 0) := LinearProbe.WF.init
      exact hinit.congr (by simp [Space.hashedSlot]) (fun _ _ => rfl)
    global_hash := {
      nodup := by simp [ipcSpaceCreate]
      mem := by simp [ipcSpaceCreate]
      count_eq := by simp [ipcSpaceCreate]
    }
    hashed_object := by simp
  }

section

variable (h : Rep s m hashed free)
include h

theorem Rep.not_hashed_of_none (hm : m n = none) : hashed n = false := by
  by_contra hne
  obtain ⟨r, hr, -⟩ := h.hashed_object n (by simpa using hne)
  simp [hm] at hr

theorem Rep.hashed_object_insert (hm : m n = none) : ∀ n', hashed n' = true →
        ∃ r', update m n (some r) n' = some r' ∧ r'.object ≠ ioNull := by
  intro n' hh
  have hne : n' ≠ n := by
    rintro rfl
    rw [h.not_hashed_of_none hm] at hh
    contradiction
  rw [update_of_ne hne]
  exact h.hashed_object n' hh

theorem Rep.bound_insert (hn : 0 < n ∧ n < machPortDead)
    : ∀ n', update m n (some r) n' ≠ none → 0 < n' ∧ n' < machPortDead := by
  intro n' hne
  by_cases heq : n' = n
  . rw [heq]
    exact hn
  . rw [update_of_ne heq] at hne
    exact h.bound n' hne

theorem Rep.take (hfree : machPortIndex n ∈ free) (hn : 0 < n ∧ n < machPortDead)
    (hself : table' (machPortIndex n) = ⟨.ofGen (machPortGen n), ioNull, 0⟩) (hother : ∀ i, i ≠ machPortIndex n →
      (table' i).ieBits = (s.isTable i).ieBits ∧ (table' i).ieObject = (s.isTable i).ieObject)
    (hused : ∀ i, 0 < i → i ≠ machPortIndex n → i ∉ free → table' i = s.isTable i)
    (hchain : FreeChain table' 0 (free.erase (machPortIndex n)))
    : Rep { s with isTable := table' } (update m n (some null)) hashed
        (free.erase (machPortIndex n)) := by
  obtain ⟨hpos, -⟩ := h.layout.free_range _ hfree
  have hm : ∀ n', machPortIndex n' = machPortIndex n → m n' = none := fun n' hn' => h.layout.free_names n' (hn' ▸ hfree)
  exact { h with
    bound := h.bound_insert hn
    layout := by
      refine h.layout.take (e := ⟨.ofGen (machPortGen n), ioNull, 0⟩) (Or.inl hfree) ?_ (by simp)
        hself rfl rfl (hother 0 hpos.ne).1 (fun i hi _ => hused i hi) (fun i _ => hother i)
      intro i
      rw [h.nodup.mem_erase_iff]
      exact and_comm
    head_bits := by
      simp only [(hother 0 (by omega)).1]
      exact h.head_bits
    chain := hchain
    nodup := h.nodup.erase _
    local_hash := by
      refine LinearProbe.WF.congr h.local_hash ?_ ?_
      . intro i
        unfold Space.hashedSlot
        by_cases hi : i = machPortIndex n
        . -- The slot was free, and nothing is recorded for the new name either.
          subst hi
          have hgen := (h.layout.free_slot _ hfree).2.1
          have h1 : hashed (machPortMake (machPortIndex n)
              (s.isTable (machPortIndex n)).ieBits.gen) = false :=
            h.not_hashed_of_none (hm _ (machPortIndex_make hgen))
          have h2 : hashed n = false := h.not_hashed_of_none (hm n rfl)
          have hname : machPortMake (machPortIndex n) (table' (machPortIndex n)).ieBits.gen = n := by
            rw [hself]
            exact machPortMake_index_gen n
          simp only [hname, h1, h2, Bool.false_eq_true, and_false]
        . simp only [(hother i hi).1]
      . rintro i ⟨-, -, hh⟩
        have hi : i ≠ machPortIndex n := by
          rintro rfl
          have hgen := (h.layout.free_slot _ hfree).2.1
          rw [h.not_hashed_of_none (hm _ (machPortIndex_make hgen))] at hh
          contradiction
        simp only [Space.home, (hother i hi).2]
    hashed_object := h.hashed_object_insert (hm n rfl)
  }

end

theorem make_lt_dead {i gen : Nat} (hi : i < 2 ^ 21) (hgen : gen < 256) : machPortMake i gen < machPortDead := by
  simp only [machPortMake, machPortDead]
  omega

section

variable (h : Rep s m hashed free)
include h

theorem Rep.loc_of_gen (hpos : 0 < machPortIndex n) (hlt : machPortIndex n < s.isTableSize)
    (hgen : (s.isTable (machPortIndex n)).ieBits.gen = machPortGen n) : s.loc n = .table (machPortIndex n) := by
  have htree : s.isTree.get? n = none := by
    by_contra hne
    exact (h.layout.tree_slot n hne hlt).2.2 hpos hgen
  simp [Space.loc, htree]

theorem ipcEntryGet_spec : (ipcEntryGet s = some (.error .noSpace, s) ∧ free = []) ∨
      ∃ n s' free', ipcEntryGet s = some (.ok (n, s'.loc n), s') ∧ m n = none ∧
        machPortValid n = true ∧ 0 < machPortIndex n ∧ s'.isTree = s.isTree ∧
        Rep s' (update m n (some null)) hashed free' := by
  have hact : assert (s.isActive = true) = some () := assert_of_true h.active
  have hhead := h.chain.next_eq_head
  cases hfree : free with
  | nil =>
    left
    rw [hfree] at hhead
    refine ⟨?_, rfl⟩
    simp [ipcEntryGet, hact, hhead]
  | cons i rest =>
    right
    rw [hfree] at hhead
    simp only [List.headD_cons] at hhead
    have hin : i ∈ free := by simp [hfree]
    obtain ⟨hpos, hlt⟩ := h.layout.free_range i hin
    obtain ⟨hbits, -, hobj⟩ := h.layout.free_slot i hin
    have hsize := h.size_range
    generalize hg : ((s.isTable i).ieBits.gen + 1) % 256 = gen
    have hgen' : gen < 256 := by omega
    have hindex := machPortIndex_make (i := i) hgen'
    have hgenEq := machPortGen_make (i := i) hgen'
    have hlt_dead := make_lt_dead (i := i) (by omega) hgen'
    have hpos' : 0 < machPortMake i gen := by
      simp only [machPortMake]
      omega
    have hvalid : machPortValid (machPortMake i gen) = true := by
      simp [machPortValid, machPortNull, hpos'.ne', hlt_dead.ne]
    generalize hs' : (s.setNext 0 (s.isTable i).ieNext).setTable i ⟨.ofGen gen, ioNull, 0⟩ = s'
    have hself : s'.isTable i = ⟨.ofGen gen, ioNull, 0⟩ := by
      rw [← hs', setTable_self]
    have hzero : s'.isTable 0 = { s.isTable 0 with ieRequest := (s.isTable i).ieNext } := by
      rw [← hs', setTable_of_ne _ _ (by omega), Space.setNext, setTable_self]
    have hothers : ∀ j, 0 < j → j ≠ i → s'.isTable j = s.isTable j := by
      intro j hj hji
      rw [← hs', setTable_of_ne _ _ hji, Space.setNext, setTable_of_ne _ _ (by omega)]
    have hrep : Rep s' (update m (machPortMake i gen) (some null)) hashed
        (free.erase (machPortIndex (machPortMake i gen))) := by
      have hs'' : s' = { s with isTable := s'.isTable } := by
        rw [← hs']
        rfl
      rw [hs'']
      apply h.take
      . rw [hindex]
        exact hin
      . exact ⟨hpos', hlt_dead⟩
      . rw [hindex, hgenEq]
        exact hself
      . intro j hj
        rw [hindex] at hj
        rcases Nat.eq_zero_or_pos j with rfl | hj0
        . rw [hzero]
          exact ⟨rfl, rfl⟩
        . rw [hothers j hj0 hj]
          exact ⟨rfl, rfl⟩
      . intro j hj0 hj _
        rw [hindex] at hj
        exact hothers j hj0 hj
      . have hchain := h.chain
        have hnodup := h.nodup
        rw [hfree] at hchain hnodup
        obtain ⟨-, -, hchain⟩ := hchain
        rw [hindex, hfree, List.erase_cons_head]
        apply hchain.congr
        . rw [hzero]
          rfl
        . intro j hj
          rw [hothers j (Nat.pos_of_ne_zero (hchain.ne_zero j hj))]
          rintro rfl
          exact (List.nodup_cons.mp hnodup).1 hj
    have hsize' : s'.isTableSize = s.isTableSize := by
      rw [← hs']
      rfl
    refine ⟨machPortMake i gen, s', _, ?_, ?_, hvalid, by rw [hindex]; exact hpos, by rw [← hs']; rfl, hrep⟩
    . have hloc : s'.loc (machPortMake i gen) = .table i := by
        rw [hrep.loc_of_gen, hindex]
        . rw [hindex]
          exact hpos
        . rw [hindex, hsize']
          exact hlt
        . rw [hindex, hself, hgenEq]
          rfl
      rw [hloc]
      simp only [ipcEntryGet, hact, hhead, hpos.ne', if_false, assert_of_true hbits, hg, hvalid,
        hobj, hs', assert_of_true, Option.bind_eq_bind, Option.bind_some, Option.pure_def]
    . apply h.layout.free_names
      rw [hindex]
      exact hin

theorem ipcEntryAlloc_spec (hsettled : Settled m)
    (hagree : Agree m hashed) (fuel : Nat) (hfuel : 512 - s.isTableNext ≤ fuel) (mem : Memory)
    : (∃ kr mem' s' free', ipcEntryAlloc fuel mem s = some (.error kr, mem', s') ∧ Rep s' m hashed free') ∨
      ∃ n mem' s' free', ipcEntryAlloc fuel mem s = some (.ok (n, s'.loc n), mem', s') ∧
        m n = none ∧ machPortValid n = true ∧ 0 < machPortIndex n ∧
        Rep s' (update m n (some null)) hashed free' := by
  induction fuel generalizing s free mem with
  | zero =>
    have := h.next_range
    omega
  | succ fuel ih =>
    rcases ipcEntryGet_spec h with ⟨hget, -⟩ | ⟨n, s', free', hget, hnew, hvalid, hpos, -, hrep⟩
    . obtain ⟨kr, mem', s', hgrow, ⟨free', hrep⟩, hsuccess, -⟩ := ipcEntryGrowTable_spec h
        hsettled hagree ipcTableEntriesSize (by simp only [ipcTableEntriesSize]; omega) mem
      by_cases hkr : kr = .success
      . subst hkr
        have hnext := hsuccess rfl
        have hretry : ipcEntryAlloc (fuel + 1) mem s = ipcEntryAlloc fuel mem' s' := by
          simp [ipcEntryAlloc, h.active, hget, hgrow]
        rw [hretry]
        exact ih hrep (by omega) mem'
      . left
        refine ⟨kr, mem', s', free', ?_, hrep⟩
        cases kr with
        | success => contradiction
        | _ => simp [ipcEntryAlloc, h.active, hget, hgrow]
    . right
      refine ⟨n, mem, s', free', ?_, hnew, hvalid, hpos, hrep⟩
      simp [ipcEntryAlloc, h.active, hget]

theorem Rep.type_eq_none_iff (hsettled : Settled m) {i : Nat}
    (hpos : 0 < i) (hlt : i < s.isTableSize) : (s.isTable i).ieBits.type = .none ↔ i ∈ free := by
  constructor
  . intro htype
    by_contra hfree
    exact hsettled _ _ (h.layout.used_name hpos hlt hfree id) htype
  . intro hfree
    rw [(h.layout.free_slot i hfree).1]
    rfl

theorem Rep.freePredecessor {i : Nat} (hfree : i ∈ free)
    : ∃ k, freePredecessor s.isTable i s.isTableSize 0 = some k ∧ (k = 0 ∨ k ∈ free) ∧ k ≠ i ∧
        ∀ table', (table' k).ieNext = (s.isTable i).ieNext →
          (∀ j, j ≠ k → j ≠ i → (table' j).ieNext = (s.isTable j).ieNext) → FreeChain table' 0 (free.erase i) := by
  have hzero : 0 ∉ free := fun hin => Nat.lt_irrefl 0 (h.layout.free_range 0 hin).1
  have hlen : free.length ≤ s.isTableSize := by
    have hsub : free ⊆ List.range s.isTableSize := fun i hi => List.mem_range.mpr (h.layout.free_range i hi).2
    simpa using (h.nodup.subperm hsub).length_le
  exact h.chain.freePredecessor_spec (List.nodup_cons.mpr ⟨hzero, h.nodup⟩) hfree s.isTableSize hlen

theorem rip_spec (hfree : machPortIndex n ∈ free) (hn : 0 < n ∧ n < machPortDead)
    : ∃ k s', freePredecessor s.isTable (machPortIndex n) s.isTableSize 0 = some k ∧
        s' = (s.setNext k (s.isTable (machPortIndex n)).ieNext).setTable (machPortIndex n)
          ⟨.ofGen (machPortGen n), ioNull, 0⟩ ∧ s'.loc n = .table (machPortIndex n) ∧
        Rep s' (update m n (some null)) hashed (free.erase (machPortIndex n)) := by
  obtain ⟨hpos, hlt⟩ := h.layout.free_range _ hfree
  obtain ⟨k, hk, hin, hkn, hchain⟩ := h.freePredecessor hfree
  generalize hs' : (s.setNext k (s.isTable (machPortIndex n)).ieNext).setTable (machPortIndex n)
    ⟨.ofGen (machPortGen n), ioNull, 0⟩ = s'
  have hself : s'.isTable (machPortIndex n) = ⟨.ofGen (machPortGen n), ioNull, 0⟩ := by
    rw [← hs', setTable_self]
  have hself' : s'.isTable k = { s.isTable k with ieRequest := (s.isTable (machPortIndex n)).ieNext } := by
    rw [← hs', setTable_of_ne _ _ hkn, Space.setNext, setTable_self]
  have hothers : ∀ j, j ≠ k → j ≠ machPortIndex n → s'.isTable j = s.isTable j := by
    intro j hjk hj
    rw [← hs', setTable_of_ne _ _ hj, Space.setNext, setTable_of_ne _ _ hjk]
  have hrep : Rep s' (update m n (some null)) hashed
      (free.erase (machPortIndex n)) := by
    have hs'' : s' = { s with isTable := s'.isTable } := by
      rw [← hs']
      rfl
    rw [hs'']
    apply h.take hfree hn hself
    . intro j hj
      by_cases hjk : j = k
      . subst hjk
        rw [hself']
        exact ⟨rfl, rfl⟩
      . rw [hothers j hjk hj]
        exact ⟨rfl, rfl⟩
    . intro j hj0 hj hjfree
      apply hothers j _ hj
      rintro rfl
      rcases hin with rfl | hin
      . omega
      . exact hjfree hin
    . apply hchain
      . rw [hself']
        rfl
      . intro j hjk hj
        rw [hothers j hjk hj]
  refine ⟨k, s', hk, hs'.symm, ?_, hrep⟩
  apply hrep.loc_of_gen hpos
  . rw [← hs']
    exact hlt
  . rw [hself]
    rfl

end

variable {tree' : Splay.SplayTree Nat Entry}

theorem Rep.enter (h : Rep s m hashed free) (hn : 0 < n ∧ n < machPortDead)
    (hnew : m n = none) (hslot : machPortIndex n < s.isTableSize → machPortIndex n ∉ free) (hwf : tree'.WF)
    (hperm : tree'.toList.Perm ((n, ⟨.ofGen 0, ioNull, 0⟩) :: s.isTree.toList))
    (hother : ∀ i, i ≠ machPortIndex n → table' i = s.isTable i)
    (hself : machPortIndex n < s.isTableSize → table' (machPortIndex n) = { s.isTable (machPortIndex n) with
        ieBits := { (s.isTable (machPortIndex n)).ieBits with collision := true } })
    (hsmall : small' = treeSmall tree'.get? s.isTableSize (itsSize s.isTableNext))
    : Rep { s with
        isTable := table', isTree := tree'
        isTreeTotal := s.isTreeTotal + 1, isTreeSmall := small' }
        (update m n (some null)) hashed free := by
  have hget : tree'.get? = update s.isTree.get? n (some ⟨.ofGen 0, ioNull, 0⟩) := by
    funext k
    rw [get?_of_perm h.tree_wf hwf hperm, update_apply]
  obtain ⟨hhead, hchain, hlocal⟩ := h.recolored hother fun hlt => ⟨true, hself hlt⟩
  exact { h with
    bound := h.bound_insert hn
    layout := by
      simp only [hget]
      exact h.layout.enter (e := ⟨.ofGen 0, ioNull, 0⟩) hnew
        (fun hlt => ⟨hslot hlt, id⟩) rfl rfl hother hself
    head_bits := hhead
    chain := hchain
    tree_wf := hwf
    tree_total := by
      have hlen := hperm.length_eq
      rw [List.length_cons, ← h.tree_total] at hlen
      exact hlen.symm
    tree_small := hsmall
    local_hash := hlocal
    global_hash := by
      have hnot := h.not_hashed_of_none hnew
      refine (h.global_hash.congr ?_ ?_).perm hperm.symm
      . intro n' obj hn'
        have hne : n' ≠ n := by
          rintro rfl
          simp [hnot] at hn'
        simp [hne]
      . simp [hnot]
    hashed_object := h.hashed_object_insert hnew
  }

def entered (m : Nat → Option Right) (n : Nat) : Nat → Option Right := update m n (some ((m n).getD Right.null))

theorem entered_of_none (h : m n = none) : entered m n = update m n (some null) := by
  rw [entered, h]
  rfl

theorem entered_of_ne_none (h : m n ≠ none) : entered m n = m := by
  obtain ⟨r, hr⟩ := Option.ne_none_iff_exists'.mp h
  rw [entered, hr]
  exact update_eq_self_iff.mpr hr.symm

def Space.growsFor (s : Space) (n : Nat) : Prop :=
  s.isTableSize ≤ machPortIndex n ∧ machPortIndex n < itsSize s.isTableNext ∧
    (itsSize s.isTableNext - s.isTableSize) * entryBytes < (s.isTreeSmall + 1) * treeEntryBytes

instance : Decidable (s.growsFor n) := by
  unfold Space.growsFor
  infer_instance

def allocNameRounds (n : Nat) (treeEntry : Bool) (s : Space) : Nat :=
  (if s.growsFor n then 2 else 0) + (if treeEntry then 0 else 1) + 1

def AllocNameResult (m : Nat → Option Right) (hashed : Nat → Bool) (n : Nat) (s : Space)
    : Except KernReturn Loc → Prop
  | .error kr => kr ≠ .success ∧ ∃ free, Rep s m hashed free
  | .ok loc => loc = s.loc n ∧ ∃ free, Rep s (entered m n) hashed free

def AllocStepResult (m : Nat → Option Right) (hashed : Nat → Bool) (n rounds : Nat)
    : AllocStep → Prop
  | .done res _ s => AllocNameResult m hashed n s res
  | .retry treeEntry _ s => (∃ free, Rep s m hashed free) ∧ allocNameRounds n treeEntry s < rounds

theorem itsSize_le_of_le {i j : Nat} (hle : i ≤ j) (hj : j ≤ 511) : itsSize i ≤ itsSize j := by
  induction j, hle using Nat.le_induction with
  | base => exact Nat.le_refl _
  | succ j hij ih => exact Nat.le_trans (ih (by omega)) (itsSize_le_succ (by omega))

theorem Rep.keys_range (h : Rep s m hashed free) : ∀ e ∈ s.isTree.toList, 0 < e.1 ∧ e.1 < machPortDead := by
  rintro ⟨k, e⟩ he
  have hne : s.isTree.get? k ≠ none := by simp [h.mem_tree.mp he]
  exact h.bound k (h.layout.tree_names hne)

structure Inserted (s : Space) (n : Nat) (tree' : Splay.SplayTree Nat Entry) : Prop where
  wf : tree'.WF
  perm : tree'.toList.Perm ((n, ⟨.ofGen 0, ioNull, 0⟩) :: s.isTree.toList)

theorem Rep.inserted (h : Rep s m hashed free) (hnew : m n = none)
    {tree : Splay.SplayTree Nat Entry} (hwf : tree.WF) (hlist : tree.toList = s.isTree.toList)
    : Inserted s n (tree.insert n ⟨.ofGen 0, ioNull, 0⟩) := by
  have hnone : tree.get? n = none := by
    rw [get?_of_toList_eq hlist]
    by_contra hne
    exact h.layout.tree_names hne hnew
  obtain ⟨hwf', hperm⟩ := insert_spec hwf hnone ⟨.ofGen 0, ioNull, 0⟩
  rw [hlist] at hperm
  exact ⟨hwf', hperm⟩

theorem Inserted.hasIndex (hi : Inserted s n tree') (hwf : s.isTree.WF) (i : Nat)
    : HasIndex tree'.get? i ↔ i = machPortIndex n ∨ HasIndex s.isTree.get? i := by
  simp only [HasIndex, Option.ne_none_iff_exists', get?_eq_some_iff hi.wf,
    get?_eq_some_iff hwf, hi.perm.mem_iff, List.mem_cons, Prod.mk.injEq]
  constructor
  . rintro ⟨k, rfl, e, ⟨rfl, -⟩ | he⟩
    . exact Or.inl rfl
    . exact Or.inr ⟨k, rfl, e, he⟩
  . rintro (rfl | ⟨k, rfl, e, he⟩)
    . exact ⟨n, rfl, _, Or.inl ⟨rfl, rfl⟩⟩
    . exact ⟨k, rfl, e, Or.inr he⟩

theorem Inserted.loc {s'' : Space} (hi : Inserted s n s''.isTree) (hwf : s.isTree.WF) : s''.loc n = .tree n := by
  rw [Space.loc, get?_of_perm hwf hi.wf hi.perm, if_pos rfl]
  rfl

theorem Inserted.treeSmall_eq (hi : Inserted s n tree') (hwf : s.isTree.WF) {lo hi' : Nat}
    (h : lo ≤ machPortIndex n → machPortIndex n < hi' → HasIndex s.isTree.get? (machPortIndex n))
    : treeSmall s.isTree.get? lo hi' = treeSmall tree'.get? lo hi' := by
  apply treeSmall_congr
  intro i hlo hhi
  rw [hi.hasIndex hwf]
  constructor
  . exact Or.inr
  . rintro (rfl | hin)
    . exact h hlo hhi
    . exact hin

section

variable (h : Rep s m hashed free)
include h

theorem enterTree_spec (hn : 0 < n ∧ n < machPortDead) (hnew : m n = none)
    (hslot : machPortIndex n < s.isTableSize → machPortIndex n ∉ free)
    : ∃ s' s'', ipcEntryAllocNameStep.enterTree n { s with isTreeTotal := s.isTreeTotal + 1 }
          (itsSize s.isTableNext) = some s' ∧
        s'' = { s' with isTree := s'.isTree.insert n ⟨.ofGen 0, ioNull, 0⟩ } ∧
        s''.loc n = .tree n ∧
        Rep s'' (update m n (some null)) hashed free := by
  by_cases hlt : machPortIndex n < s.isTableSize
  . have hins := h.inserted hnew h.tree_wf rfl
    refine ⟨({ s with isTreeTotal := s.isTreeTotal + 1 } : Space).setCollision (machPortIndex n) true,
      _, by simp [ipcEntryAllocNameStep.enterTree, hlt], rfl, hins.loc h.tree_wf, ?_⟩
    exact h.enter hn hnew hslot hins.wf hins.perm
      (fun i hi => setTable_of_ne { s with isTreeTotal := s.isTreeTotal + 1 } _ hi)
      (fun _ => setTable_self { s with isTreeTotal := s.isTreeTotal + 1 } _ _)
      (h.tree_small.trans (hins.treeSmall_eq h.tree_wf (by omega)))
  . by_cases hlt' : machPortIndex n < itsSize s.isTableNext
    . obtain ⟨b, tree, hcoll, hwf, hlist, hb⟩ := ipcEntryTreeCollision_spec (n := n)
        (s := { s with isTreeTotal := s.isTreeTotal + 1 }) h.active h.tree_wf h.keys_range
      have hins := h.inserted hnew hwf hlist
      cases b with
      | true =>
        refine ⟨{ s with isTreeTotal := s.isTreeTotal + 1, isTree := tree }, _,
          by simp [ipcEntryAllocNameStep.enterTree, hlt, hlt', hcoll], rfl, hins.loc h.tree_wf, ?_⟩
        exact h.enter hn hnew hslot hins.wf hins.perm (fun _ _ => rfl)
          (fun hc => absurd hc hlt)
          (h.tree_small.trans (hins.treeSmall_eq h.tree_wf (fun _ _ => hb.mp rfl)))
      | false =>
        refine ⟨{ s with
            isTreeTotal := s.isTreeTotal + 1, isTree := tree, isTreeSmall := s.isTreeSmall + 1 }, _,
          by simp [ipcEntryAllocNameStep.enterTree, hlt, hlt', hcoll], rfl, hins.loc h.tree_wf, ?_⟩
        refine h.enter hn hnew hslot hins.wf hins.perm (fun _ _ => rfl)
          (fun hc => absurd hc hlt) ?_
        have hnot : ¬ HasIndex s.isTree.get? (machPortIndex n) := fun hc => Bool.false_ne_true (hb.mpr hc)
        rw [h.tree_small]
        refine (treeSmall_succ _ _ (by omega) hlt' ?_ ((hins.hasIndex h.tree_wf _).mpr (Or.inl rfl))
          hnot).symm
        intro i hi
        simp [hins.hasIndex h.tree_wf, hi]
    . have hins := h.inserted hnew h.tree_wf rfl
      refine ⟨{ s with isTreeTotal := s.isTreeTotal + 1 }, _,
        by simp [ipcEntryAllocNameStep.enterTree, hlt, hlt'], rfl, hins.loc h.tree_wf, ?_⟩
      exact h.enter hn hnew hslot hins.wf hins.perm (fun _ _ => rfl)
        (fun hc => absurd hc hlt)
        (h.tree_small.trans (hins.treeSmall_eq h.tree_wf (fun _ hc => absurd hc hlt')))

section

variable (hsettled : Settled m) (hagree : Agree m hashed) (hn : 0 < n ∧ n < machPortDead)
include hsettled hagree hn

theorem notFound_spec (hnew : m n = none)
    (hslot : machPortIndex n < s.isTableSize → machPortIndex n ∉ free) (treeEntry : Bool) (mem : Memory)
    : ∃ step, ipcEntryAllocNameStep.notFound n treeEntry mem s = some step ∧
        AllocStepResult m hashed n (allocNameRounds n treeEntry s) step := by
  by_cases hgrows : s.growsFor n
  . obtain ⟨kr, mem', s', hgrow, ⟨free', hrep⟩, hsuccess, hnoSpace⟩ := ipcEntryGrowTable_spec h
      hsettled hagree ipcTableEntriesSize (by simp only [ipcTableEntriesSize]; omega) mem
    have hgrows' := hgrows
    unfold Space.growsFor at hgrows'
    by_cases hkr : kr = .success
    . subst hkr
      refine ⟨.retry treeEntry mem' s', ?_, ⟨free', hrep⟩, ?_⟩
      . simp [ipcEntryAllocNameStep.notFound, hgrows', hgrow]
      . -- The bigger table has a slot for the name.
        have hnext := hsuccess rfl
        have hle := itsSize_le_of_le (i := s.isTableNext) (j := s'.isTableNext - 1) (by omega)
          (by have := hrep.next_range; omega)
        rw [← hrep.size_eq] at hle
        have hnot : ¬ s'.growsFor n := by
          unfold Space.growsFor
          omega
        simp [allocNameRounds, hgrows, hnot]
    . have hkr' : kr ≠ .noSpace := by
        intro hc
        have heq := h.size_eq_next (hnoSpace hc)
        omega
      refine ⟨.done (.error kr) mem' s', ?_, hkr, free', hrep⟩
      cases kr with
      | success => contradiction
      | _ => simp_all [ipcEntryAllocNameStep.notFound]
  . have hgrows' := hgrows
    unfold Space.growsFor at hgrows'
    cases treeEntry with
    | true =>
      obtain ⟨s', s'', henter, hs'', hloc, hrep⟩ := enterTree_spec h hn hnew hslot
      refine ⟨.done (.ok (.tree n)) mem s'', ?_, hloc.symm, free, ?_⟩
      . rw [ipcEntryAllocNameStep.notFound, if_neg hgrows', if_pos rfl, henter, hs'']
        rfl
      . rw [entered_of_none hnew]
        exact hrep
    | false =>
      rcases hmem : mem.alloc with ⟨ok, mem'⟩
      cases ok with
      | true =>
        refine ⟨.retry true mem' s, ?_, ⟨free, h⟩, ?_⟩
        . rw [ipcEntryAllocNameStep.notFound, if_neg hgrows', if_neg Bool.false_ne_true, hmem]
          rfl
        . simp [allocNameRounds, hgrows]
      | false =>
        refine ⟨.done (.error .resourceShortage) mem' s, ?_, by decide, free, h⟩
        rw [ipcEntryAllocNameStep.notFound, if_neg hgrows', if_neg Bool.false_ne_true, hmem]
        rfl

theorem inTree_spec (hin : m n ≠ none → s.isTree.get? n ≠ none)
    (hslot : machPortIndex n < s.isTableSize → machPortIndex n ∉ free) (treeEntry : Bool) (mem : Memory)
    : ∃ step, ipcEntryAllocNameStep.inTree n treeEntry mem s = some step ∧
        AllocStepResult m hashed n (allocNameRounds n treeEntry s) step := by
  by_cases htotal : 0 < s.isTreeTotal
  . obtain ⟨hlook, hwf, hlist⟩ := lookup_spec h.tree_wf n
    have hrep := h.congr_tree hwf hlist
    rcases hl : s.isTree.lookup n with ⟨found, tree⟩
    rw [hl] at hlook hrep hlist
    simp only at hlook hlist
    cases hget : s.isTree.get? n with
    | none =>
      have hnew : m n = none := by
        by_contra hne
        exact hin hne hget
      obtain ⟨step, hstep, hres⟩ := notFound_spec hrep hsettled hagree hn hnew hslot treeEntry mem
      refine ⟨step, ?_, hres⟩
      rw [hget] at hlook
      rw [ipcEntryAllocNameStep.inTree, if_pos htotal, hl, hlook]
      exact hstep
    | some e =>
      have hm := (h.layout.tree_entry n e hget).1
      have htype : e.ieBits.type ≠ .none := hsettled n e.right hm
      refine ⟨.done (.ok (.tree n)) mem { s with isTree := tree }, ?_, ?_, free, ?_⟩
      . rw [hget] at hlook
        rw [ipcEntryAllocNameStep.inTree, if_pos htotal, hl, hlook]
        simp [htype]
      . have hget' : tree.get? n = some e := by
          rw [get?_of_toList_eq hlist, hget]
        simp [Space.loc, hget']
      . rw [entered_of_ne_none (by simp [hm])]
        exact hrep
  . have hnew : m n = none := by
      by_contra hne
      exact hin hne (not_mem_of_total_eq_zero h (by omega))
    obtain ⟨step, hstep, hres⟩ := notFound_spec h hsettled hagree hn hnew hslot treeEntry mem
    refine ⟨step, ?_, hres⟩
    rw [ipcEntryAllocNameStep.inTree, if_neg htotal]
    exact hstep

theorem ipcEntryAllocNameStep_spec (treeEntry : Bool) (mem : Memory)
    : ∃ step, ipcEntryAllocNameStep n treeEntry mem s = some step ∧
        AllocStepResult m hashed n (allocNameRounds n treeEntry s) step := by
  by_cases hrange : 0 < machPortIndex n ∧ machPortIndex n < s.isTableSize
  . obtain ⟨hpos, hlt⟩ := hrange
    have hfree_iff := h.type_eq_none_iff hsettled hpos hlt
    by_cases hfree : machPortIndex n ∈ free
    . obtain ⟨k, s', hk, hs', hloc, hrep⟩ := rip_spec h hfree hn
      refine ⟨.done (.ok (.table (machPortIndex n))) mem s', ?_, hloc.symm, free.erase (machPortIndex n), ?_⟩
      . have htype := hfree_iff.mpr hfree
        have hobj := (h.layout.free_slot _ hfree).2.2
        simp [ipcEntryAllocNameStep, h.active, hpos, hlt, htype, hk, hobj, hs']
      . rw [entered_of_none (h.layout.free_names n hfree)]
        exact hrep
    . have htype : (s.isTable (machPortIndex n)).ieBits.type ≠ .none := fun hc => hfree (hfree_iff.mp hc)
      by_cases hgen : (s.isTable (machPortIndex n)).ieBits.gen = machPortGen n
      . have hm := h.layout.used_slot n hpos hlt hfree id hgen
        refine ⟨.done (.ok (.table (machPortIndex n))) mem s, ?_, (h.loc_of_gen hpos hlt hgen).symm, free, ?_⟩
        . simp [ipcEntryAllocNameStep, h.active, hpos, hlt, htype, hgen]
        . rw [entered_of_ne_none (by simp [hm])]
          exact h
      . have hin : m n ≠ none → s.isTree.get? n ≠ none := by
          intro hne hnone
          exact hgen (h.layout.complete n hne hnone).2.2.2.2
        obtain ⟨step, hstep, hres⟩ := inTree_spec h hsettled hagree hn hin (fun _ => hfree) treeEntry mem
        refine ⟨step, ?_, hres⟩
        simp [ipcEntryAllocNameStep, h.active, hpos, hlt, htype, hgen, hstep]
  . have hin : m n ≠ none → s.isTree.get? n ≠ none := by
      intro hne hnone
      obtain ⟨hpos, hlt, -⟩ := h.layout.complete n hne hnone
      exact hrange ⟨hpos, hlt⟩
    obtain ⟨step, hstep, hres⟩ := inTree_spec h hsettled hagree hn hin
      (fun _ hfree => hrange (h.layout.free_range _ hfree)) treeEntry mem
    refine ⟨step, ?_, hres⟩
    simp [ipcEntryAllocNameStep, h.active, hrange, hstep]

theorem ipcEntryAllocName_spec (fuel : Nat)
    (treeEntry : Bool) (hfuel : allocNameRounds n treeEntry s ≤ fuel) (mem : Memory)
    : ∃ res mem' s', ipcEntryAllocName n fuel treeEntry mem s = some (res, mem', s') ∧
        AllocNameResult m hashed n s' res := by
  induction fuel generalizing s free treeEntry mem with
  | zero => simp [allocNameRounds] at hfuel
  | succ fuel ih =>
    obtain ⟨step, hstep, hres⟩ := ipcEntryAllocNameStep_spec h hsettled hagree hn treeEntry mem
    cases step with
    | done res mem' s' => exact ⟨res, mem', s', by simp [ipcEntryAllocName, hstep], hres⟩
    | retry treeEntry' mem' s' =>
      obtain ⟨⟨free', hrep⟩, hrounds⟩ := hres
      obtain ⟨res, mem'', s'', halloc, hres'⟩ := ih hrep treeEntry' (by omega) mem'
      exact ⟨res, mem'', s'', by simp [ipcEntryAllocName, hstep, halloc], hres'⟩

end

end

end Ipc
