import UtahMach.Ipc.Entry.Alloc

/-!
This module contains runs of the functions on a name space and what they store for each name.
-/

namespace Ipc

open Function (update update_of_ne update_self)

open Option (bind_eq_bind bind_some pure_def)

open Right

def Space.unhash (s : Space) (n : Nat) (loc : Loc) (e : Entry) : Option Space :=
  if e.ieBits.type = .send then ipcHashDelete s e.ieObject n loc else some s

def Space.putRight (s : Space) (n : Nat) (loc : Loc) (r : Right) : Option Space := do
  let e ← s.entry loc
  let s ← s.unhash n loc e
  let s := s.setEntry (e.setRight r) loc
  if r.type = .send then ipcHashInsert s r.object n loc else some s

def Space.discard (s : Space) (n : Nat) (loc : Loc) : Option Space := do
  let e ← s.entry loc
  let s ← s.unhash n loc e
  let s := s.setEntry (e.setRight { e.right with object := ioNull, request := 0 }) loc
  ipcEntryDealloc s n loc

inductive Op where
  | get (r : Option Right)
  | alloc (mem : Memory) (r : Option Right)
  | allocName (mem : Memory) (n : Nat) (r : Option Right)
  | store (n : Nat) (r : Right)
  | dealloc (n : Nat)
  | growTable (mem : Memory)
  | lookup (n : Nat)

inductive Event where
  | created (n : Nat)
  | stored (n : Nat) (r : Right)
  | removed (n : Nat)

def Event.apply (m : Nat → Option Right) : Event → Nat → Option Right
  | .created _ => m
  | .stored n r => update m n (some r)
  | .removed n => update m n none

def lastStored (log : List Event) : Nat → Option Right := log.foldl Event.apply (fun _ => none)

def Fresh (m : Nat → Option Right) : List Event → Prop
  | [] => True
  | ev :: log => (∀ n, ev = .created n → m n = none) ∧ Fresh (ev.apply m) log

def settle (s : Space) (n : Nat) (loc : Loc) : Option Right → Option (Space × List Event)
  | some r => do
    let s ← s.putRight n loc r
    return (s, [.stored n r])
  | none => do
    let s ← ipcEntryDealloc s n loc
    return (s, [])

def step (s : Space) : Op → Option (Space × List Event)
  | .get r => do
    match ← ipcEntryGet s with
    | (.error _, s) => return (s, [])
    | (.ok (n, loc), s) =>
      let (s, log) ← settle s n loc r
      return (s, .created n :: log)
  | .alloc mem r => do
    match ← ipcEntryAlloc ipcTableEntriesSize mem s with
    | (.error _, _, s) => return (s, [])
    | (.ok (n, loc), _, s) =>
      let (s, log) ← settle s n loc r
      return (s, .created n :: log)
  | .allocName mem n r => do
    match ← ipcEntryAllocName n 4 false mem s with
    | (.error _, _, s) => return (s, [])
    | (.ok loc, _, s) =>
      let e ← s.entry loc
      -- an entry that already was there is in use
      if e.ieBits.type = .none then settle s n loc r else return (s, [])
  | .store n r => do
    match ← ipcEntryLookup s n with
    | (none, s) => return (s, [])
    | (some loc, s) =>
      let s ← s.putRight n loc r
      return (s, [.stored n r])
  | .dealloc n => do
    match ← ipcEntryLookup s n with
    | (none, s) => return (s, [])
    | (some loc, s) =>
      let s ← s.discard n loc
      return (s, [.removed n])
  | .growTable mem => do
    let (_, _, s) ← ipcEntryGrowTable ipcTableEntriesSize mem s
    return (s, [])
  | .lookup n => do
    let (_, s) ← ipcEntryLookup s n
    return (s, [])

def run (s : Space) : List Op → Option (Space × List Event)
  | [] => some (s, [])
  | op :: ops => do
    let (s, log) ← step s op
    let (s, log') ← run s ops
    return (s, log ++ log')

def Right.Valid (r : Right) : Prop := r.type ≠ .none ∧ (r.type = .send → r.object ≠ ioNull)

def ValidName (n : Nat) : Prop := n < 2 ^ 32 ∧ machPortValid n = true ∧ 0 < machPortIndex n

def Op.Valid : Op → Prop
  | .get r => ∀ x ∈ r, x.Valid
  | .alloc _ r => ∀ x ∈ r, x.Valid
  | .allocName _ n r => ValidName n ∧ ∀ x ∈ r, x.Valid
  | .store n r => ValidName n ∧ r.Valid
  | .dealloc n => ValidName n
  | .growTable _ => True
  | .lookup n => ValidName n

/--
The calls that a caller may make: the name may have index 0.
-/
def Op.Sound : Op → Prop
  | .get r => ∀ x ∈ r, x.Valid
  | .alloc _ r => ∀ x ∈ r, x.Valid
  | .allocName _ n r => (n < 2 ^ 32 ∧ machPortValid n = true) ∧ ∀ x ∈ r, x.Valid
  | .store _ r => r.Valid
  | _ => True

theorem Op.Valid.sound {op : Op} (h : op.Valid) : op.Sound := by
  cases op with
  | allocName mem n r => exact ⟨⟨h.1.1, h.1.2.1⟩, h.2⟩
  | store n r => exact h.2
  | dealloc | growTable | lookup => trivial
  | get | alloc => exact h

theorem Agree.update (h : Agree m hashed) (n : Nat) (r : Right)
    : Agree (Function.update m n (some r)) (Function.update hashed n (decide (r.type = .send))) := by
  intro n' r' hr'
  by_cases heq : n' = n
  . subst heq
    rw [Function.update_self] at hr' ⊢
    cases hr'
    exact decide_eq_true_iff
  . rw [Function.update_of_ne heq] at hr' ⊢
    exact h n' r' hr'

theorem loc_setHash (s : Space) (isIndex : Nat → Nat) (buckets : Nat → List Nat) (count n : Nat)
    : (s.setHash isIndex buckets count).loc n = s.loc n := rfl

theorem entry_setHash (s : Space) (isIndex : Nat → Nat) (buckets : Nat → List Nat) (count : Nat)
    (loc : Loc) : (s.setHash isIndex buckets count).entry loc = s.entry loc := by
  cases loc <;> rfl

section

variable (h : Rep s m hashed free) (hagree : Agree m hashed)
include h hagree

theorem unhash_spec (hm : m n = some e.right)
    : ∃ isIndex buckets count, s.unhash n (s.loc n) e = some (s.setHash isIndex buckets count) ∧
        Rep (s.setHash isIndex buckets count) m (update hashed n false) free := by
  have hiff := hagree n _ hm
  unfold Space.unhash
  split
  . next htype => exact h.hashDelete hm (hiff.mpr htype)
  . next htype =>
    have hnot : hashed n = false := by
      by_contra hc
      exact htype (hiff.mp (by simpa using hc))
    refine ⟨s.isIndex, s.ihGlobal, s.isTreeHash, rfl, ?_⟩
    rw [Function.update_eq_self_iff.mpr hnot.symm]
    exact h

theorem unhash_store_spec (he : s.entry (s.loc n) = some e) (hm : m n = some e.right) (r : Right)
    : ∃ s', s.unhash n (s.loc n) e = some s' ∧ (s'.setEntry (e.setRight r) (s.loc n)).loc n = s.loc n ∧
        Rep (s'.setEntry (e.setRight r) (s.loc n)) (update m n (some r)) (update hashed n false) free := by
  obtain ⟨isIndex, buckets, count, hdel, hrep⟩ := unhash_spec h hagree hm
  obtain ⟨e', he', -, hrep'⟩ := hrep.store (r := r) hm (by simp)
  rw [loc_setHash, entry_setHash, he] at he'
  cases he'
  rw [loc_setHash] at hrep'
  refine ⟨_, hdel, ?_, hrep'⟩
  rw [loc_setEntry hrep.tree_wf, loc_setHash]

theorem putRight_spec (hm : m n = some r0) (hr : r.Valid) : ∃ s' hashed', s.putRight n (s.loc n) r = some s' ∧
        Rep s' (update m n (some r)) hashed' free ∧ Agree (update m n (some r)) hashed' := by
  obtain ⟨e, he, rfl⟩ := h.entry_loc hm
  obtain ⟨s0, hdel, hloc, hrep⟩ := unhash_store_spec h hagree he hm r
  generalize hs' : s0.setEntry (e.setRight r) (s.loc n) = s' at hloc hrep
  have hput : s.putRight n (s.loc n) r =
      if r.type = .send then ipcHashInsert s' r.object n (s'.loc n) else some s' := by
    simp only [Space.putRight, he, bind_eq_bind, bind_some, hdel, hs', hloc]
  have hagree' := hagree.update n r
  rw [hput]
  split
  . next htype =>
    obtain ⟨isIndex', buckets', count', hins, hrep''⟩ :=
      hrep.hashInsert (update_self ..) (hr.2 htype) (by simp)
    refine ⟨_, _, hins, hrep'', ?_⟩
    simpa [htype] using hagree'
  . next htype =>
    refine ⟨s', _, rfl, hrep, ?_⟩
    simpa [htype] using hagree'

theorem discard_spec (hm : m n = some r0) : ∃ s' free', s.discard n (s.loc n) = some s' ∧
        Rep s' (update m n none) (update hashed n false) free' := by
  obtain ⟨e, he, rfl⟩ := h.entry_loc hm
  obtain ⟨s0, hdel, hloc, hrep⟩ := unhash_store_spec h hagree he hm { e.right with object := ioNull, request := 0 }
  have hothers : ∀ n' r', n' ≠ n →
      update m n (some { e.right with object := ioNull, request := 0 }) n' = some r' →
      (update hashed n false n' = true ↔ r'.type = .send) := by
    intro n' r' hne hr'
    rw [update_of_ne hne] at hr' ⊢
    exact hagree n' r' hr'
  obtain ⟨s'', free', hdealloc, hrep'', -⟩ := ipcEntryDealloc_spec hrep (update_self ..) rfl rfl hothers
  rw [Function.update_idem] at hrep''
  refine ⟨s'', free', ?_, hrep''⟩
  rw [hloc] at hdealloc
  simp only [Space.discard, he, bind_eq_bind, bind_some, hdel, hdealloc]

end

def Represents (s : Space) (m : Nat → Option Right) : Prop :=
  ∃ hashed free, Rep s m hashed free ∧ Settled m ∧ Agree m hashed

theorem Settled.update (h : Settled m) (hr : ∀ x ∈ r, x.type ≠ .none) : Settled (Function.update m n r) := by
  intro n' r' hr'
  by_cases heq : n' = n
  . subst heq
    rw [Function.update_self] at hr'
    exact hr r' hr'
  . rw [Function.update_of_ne heq] at hr'
    exact h n' r' hr'

theorem settle_spec (hsettled : Settled m) (hagree : Agree m hashed) (hnew : m n = none)
    (hrep : Rep s (update m n (some null)) hashed free) (hnot : hashed n = false) (hr : ∀ x ∈ r, x.Valid)
    : ∃ s' log, settle s n (s.loc n) r = some (s', log) ∧
        Represents s' (log.foldl Event.apply m) ∧ ∀ k, Event.created k ∉ log := by
  have hagree' : Agree (update m n (some null)) hashed := by
    have hupd := hagree.update n null
    have hsame : update hashed n (decide (null.type = .send)) = hashed :=
      Function.update_eq_self_iff.mpr hnot.symm
    rwa [hsame] at hupd
  cases r with
  | some r =>
    obtain ⟨s', hashed', hput, hrep', hagree''⟩ := putRight_spec hrep hagree' (update_self ..) (hr r rfl)
    rw [Function.update_idem] at hrep' hagree''
    refine ⟨s', [.stored n r], by simp [settle, hput], ?_, by simp⟩
    exact ⟨hashed', free, hrep', hsettled.update fun x hx => (hr x hx).1, hagree''⟩
  | none =>
    obtain ⟨s', free', hdealloc, hrep', -⟩ := ipcEntryDealloc_spec hrep (update_self ..) rfl
      rfl (fun n' r' hne hr' => hagree' n' r' hr')
    rw [Function.update_idem, Function.update_eq_self_iff.mpr hnew.symm] at hrep'
    exact ⟨s', [], by simp [settle, hdealloc], ⟨hashed, free', hrep', hsettled, hagree⟩, by simp⟩

theorem Fresh.append {log log' : List Event} (h : Fresh m log)
    (h' : Fresh (log.foldl Event.apply m) log') : Fresh m (log ++ log') := by
  induction log generalizing m with
  | nil => exact h'
  | cons ev log ih => exact ⟨h.1, ih h.2 h'⟩

theorem fresh_of_not_created {log : List Event} (h : ∀ k, Event.created k ∉ log) : Fresh m log := by
  induction log generalizing m with
  | nil => trivial
  | cons ev log ih =>
    refine ⟨?_, ih (fun k hk => h k (List.mem_cons_of_mem _ hk))⟩
    rintro n rfl
    exact absurd List.mem_cons_self (h n)

def StepResult (m : Nat → Option Right) (res : Option (Space × List Event)) : Prop :=
  ∃ s log, res = some (s, log) ∧ Represents s (log.foldl Event.apply m) ∧ Fresh m log

theorem StepResult.stay (h : Represents s m) : StepResult m (some (s, [])) := ⟨s, [], rfl, h, trivial⟩

theorem created_spec (hsettled : Settled m) (hagree : Agree m hashed) (hnew : m n = none)
    (hrep : Rep s (update m n (some null)) hashed free) (hr : ∀ x ∈ r, x.Valid)
    : StepResult m ((settle s n (s.loc n) r).bind fun (s, log) => some (s, .created n :: log)) := by
  have hnot : hashed n = false := hrep.not_hashed (update_self ..) rfl
  obtain ⟨s', log, hsettle, hres, hno⟩ := settle_spec hsettled hagree hnew hrep hnot hr
  refine ⟨s', .created n :: log, by simp [hsettle], hres, ?_, fresh_of_not_created hno⟩
  intro k hk
  cases hk
  exact hnew

/--
The name that is spelled like slot 0, the head of the free list.
-/
theorem lookup_spec (h : Represents s m) (n : Nat) : ∃ s',
      ipcEntryLookup s n = some (if m n = none ∨ n = headName then none else some (s'.loc n), s') ∧
      Represents s' m := by
  obtain ⟨hashed, free, hrep, hsettled, hagree⟩ := h
  by_cases hn : n = headName
  . refine ⟨s, ?_, hashed, free, hrep, hsettled, hagree⟩
    rw [if_pos (Or.inr hn), hn]
    exact ipcEntryLookup_head hrep
  . obtain ⟨tree, hlook, hwf, hlist⟩ := ipcEntryLookup_spec hrep (hsettled n) hn
    refine ⟨{ s with isTree := tree }, ?_, hashed, free, hrep.congr_tree hwf hlist, hsettled, hagree⟩
    have hloc : ({ s with isTree := tree } : Space).loc n = s.loc n := by
      simp only [Space.loc, Splay.SplayTree.get?_of_toList_eq hlist]
    simp only [hlook, hloc, hn, or_false]

theorem removed_spec (h : Represents s m) (hm : m n ≠ none)
    : ∃ s', s.discard n (s.loc n) = some s' ∧ Represents s' (update m n none) := by
  obtain ⟨hashed, free, hrep, hsettled, hagree⟩ := h
  obtain ⟨r0, hm⟩ := Option.ne_none_iff_exists'.mp hm
  obtain ⟨s', free', hdiscard, hrep'⟩ := discard_spec hrep hagree hm
  refine ⟨s', hdiscard, _, free', hrep', hsettled.update nofun, ?_⟩
  intro n' r' hr'
  have hne : n' ≠ n := by
    rintro rfl
    simp at hr'
  rw [update_of_ne hne] at hr' ⊢
  exact hagree n' r' hr'

theorem step_spec (h : Represents s m) (op : Op) (hop : op.Sound) : StepResult m (step s op) := by
  cases op with
  | get r =>
    obtain ⟨hashed, free, hrep, hsettled, hagree⟩ := h
    rcases ipcEntryGet_spec hrep with ⟨hget, -⟩ | ⟨n, s', free', hget, hnew, -, -, -, hrep'⟩
    . simp only [step, hget, bind_eq_bind, bind_some, pure_def]
      exact .stay ⟨hashed, free, hrep, hsettled, hagree⟩
    . simp only [step, hget, bind_eq_bind, bind_some, pure_def]
      exact created_spec hsettled hagree hnew hrep' hop
  | alloc mem r =>
    obtain ⟨hashed, free, hrep, hsettled, hagree⟩ := h
    have hfuel : 512 - s.isTableNext ≤ ipcTableEntriesSize := by
      simp only [ipcTableEntriesSize]
      omega
    rcases ipcEntryAlloc_spec hrep hsettled hagree _ hfuel mem with
      ⟨kr, mem', s', free', halloc, hrep'⟩ | ⟨n, mem', s', free', halloc, hnew, -, -, hrep'⟩
    . simp only [step, halloc, bind_eq_bind, bind_some, pure_def]
      exact .stay ⟨hashed, free', hrep', hsettled, hagree⟩
    . simp only [step, halloc, bind_eq_bind, bind_some, pure_def]
      exact created_spec hsettled hagree hnew hrep' hop
  | allocName mem n r =>
    obtain ⟨hashed, free, hrep, hsettled, hagree⟩ := h
    obtain ⟨⟨hlt, hvalid⟩, hr⟩ := hop
    have hn : 0 < n ∧ n < machPortDead := by
      simp only [machPortValid, machPortNull, machPortDead, Bool.and_eq_true, bne_iff_ne, ne_eq] at hvalid ⊢
      omega
    have hfuel : allocNameRounds n false s ≤ 4 := by
      unfold allocNameRounds
      split <;> simp
    obtain ⟨res, mem', s', halloc, hres⟩ := ipcEntryAllocName_spec hrep hsettled hagree hn 4 false hfuel mem
    cases res with
    | error kr =>
      obtain ⟨-, free', hrep'⟩ := hres
      simp only [step, halloc, bind_eq_bind, bind_some, pure_def]
      exact .stay ⟨hashed, free', hrep', hsettled, hagree⟩
    | ok loc =>
      obtain ⟨rfl, free', hrep'⟩ := hres
      obtain ⟨e, he, hright⟩ := hrep'.entry_loc (update_self ..)
      have htype : e.ieBits.type = ((m n).getD null).type := by
        rw [← hright]
        rfl
      simp only [step, halloc, he, htype, bind_eq_bind, bind_some, pure_def]
      cases hm : m n with
      | none =>
        rw [entered_of_none hm] at hrep'
        have hnot : hashed n = false := hrep'.not_hashed (update_self ..) rfl
        obtain ⟨s'', log, hsettle, hrepr, hno⟩ := settle_spec hsettled hagree hm hrep' hnot hr
        exact ⟨s'', log, hsettle, hrepr, fresh_of_not_created hno⟩
      | some r0 =>
        rw [entered_of_ne_none (by simp [hm])] at hrep'
        have hne : r0.type ≠ .none := hsettled n r0 hm
        simp only [Option.getD_some, hne, if_false]
        exact .stay ⟨hashed, free', hrep', hsettled, hagree⟩
  | store n r =>
    obtain ⟨s', hlook, hashed, free, hrep, hsettled, hagree⟩ := lookup_spec h n
    by_cases hnone : m n = none ∨ n = headName
    . simp only [step, hlook, hnone, if_true, bind_eq_bind, bind_some, pure_def]
      exact .stay ⟨hashed, free, hrep, hsettled, hagree⟩
    . obtain ⟨r0, hm⟩ := Option.ne_none_iff_exists'.mp (not_or.mp hnone).1
      obtain ⟨s'', hashed', hput, hrep', hagree'⟩ := putRight_spec hrep hagree hm hop
      refine ⟨s'', [.stored n r], ?_, ?_, fresh_of_not_created (by simp)⟩
      . simp [step, hlook, hnone, hput]
      . exact ⟨hashed', free, hrep', hsettled.update (by simpa using hop.1), hagree'⟩
  | dealloc n =>
    obtain ⟨s', hlook, hrepr⟩ := lookup_spec h n
    by_cases hnone : m n = none ∨ n = headName
    . simp only [step, hlook, hnone, if_true, bind_eq_bind, bind_some, pure_def]
      exact .stay hrepr
    . obtain ⟨s'', hdiscard, hrepr'⟩ := removed_spec hrepr (not_or.mp hnone).1
      refine ⟨s'', [.removed n], ?_, hrepr', fresh_of_not_created (by simp)⟩
      simp [step, hlook, hnone, hdiscard]
  | growTable mem =>
    obtain ⟨hashed, free, hrep, hsettled, hagree⟩ := h
    obtain ⟨kr, mem', s', hgrow, ⟨free', hrep'⟩, -, -⟩ := ipcEntryGrowTable_spec hrep hsettled hagree
      ipcTableEntriesSize (by simp only [ipcTableEntriesSize]; omega) mem
    simp only [step, hgrow, bind_eq_bind, bind_some, pure_def]
    exact .stay ⟨hashed, free', hrep', hsettled, hagree⟩
  | lookup n =>
    obtain ⟨s', hlook, hrepr⟩ := lookup_spec h n
    simp only [step, hlook, bind_eq_bind, bind_some, pure_def]
    exact .stay hrepr

theorem run_spec (h : Represents s m) (ops : List Op) (hops : ∀ op ∈ ops, op.Sound) : StepResult m (run s ops) := by
  induction ops generalizing s m with
  | nil => exact .stay h
  | cons op ops ih =>
    obtain ⟨s1, log, hstep, hrepr, hfresh⟩ := step_spec h op (hops op List.mem_cons_self)
    obtain ⟨s2, log', hrun, hrepr', hfresh'⟩ := ih hrepr (fun op' hop' => hops op' (List.mem_cons_of_mem _ hop'))
    refine ⟨s2, log ++ log', by simp [run, hstep, hrun], ?_, hfresh.append hfresh'⟩
    rw [List.foldl_append]
    exact hrepr'

theorem create_represents (addr mask : Nat) (hinitial : initial < 511)
    : Represents (ipcSpaceCreate addr mask initial) (fun _ => none) := by
  refine ⟨_, _, ipcSpaceCreate_rep addr mask hinitial, ?_, ?_⟩
  . intro n r hr
    cases hr
  . intro n r hr
    cases hr

theorem lookup_run (addr mask initial : Nat) (hinitial : initial < 511) (ops : List Op)
    (hops : ∀ op ∈ ops, op.Valid) : ∃ s log, run (ipcSpaceCreate addr mask initial) ops = some (s, log) ∧
        Fresh (fun _ => none) log ∧ (∀ n, 0 < machPortIndex n → ∃ found s', ipcEntryLookup s n = some (found, s') ∧
          found.bind (fun loc => (s'.entry loc).map Entry.right) = lastStored log n ∧
          (found = none ↔ lastStored log n = none)) ∧ {n | lastStored log n ≠ none}.Finite := by
  obtain ⟨s, log, hrun, hrepr, hfresh⟩ := run_spec (create_represents addr mask hinitial) ops
    fun op hop => (hops op hop).sound
  refine ⟨s, log, hrun, hfresh, ?_, ?_⟩
  . intro n hpos
    have hn : n ≠ headName := by
      rintro rfl
      contradiction
    obtain ⟨s', hlook, hashed, free, hrep, -, -⟩ := lookup_spec hrepr n
    simp only [hn, or_false] at hlook
    refine ⟨_, s', hlook, ?_, ?_⟩
    . cases hm : lastStored log n with
      | none =>
        simp only [lastStored] at hm
        simp [hm]
      | some r =>
        simp only [lastStored] at hm
        obtain ⟨e, he, hright⟩ := hrep.entry_loc hm
        simp [hm, he, hright]
    . by_cases hm : List.foldl Event.apply (fun _ => none) log n = none
      . simp [lastStored, hm]
      . simp [lastStored, hm]
  . obtain ⟨hashed, free, hrep, -, -⟩ := hrepr
    exact Set.Finite.subset (Set.finite_lt_nat machPortDead) (fun n hn => (hrep.bound n hn).2)

def collidingOps : List Op :=
  [.get (some ⟨.send, 1, false, false, 5, 0⟩), .allocName [true] 257 (some ⟨.receive, 0, false, false, 6, 0⟩),
    .dealloc 256, .growTable [true]]

theorem lookup_run_colliding : (0 < 511 ∧ ∀ op ∈ collidingOps, op.Valid) ∧
      ∃ s log, run (ipcSpaceCreate 7 15 0) collidingOps = some (s, log) ∧ Fresh (fun _ => none) log ∧
        (∀ n, 0 < machPortIndex n → ∃ found s', ipcEntryLookup s n = some (found, s') ∧
          found.bind (fun loc => (s'.entry loc).map Entry.right) = lastStored log n ∧
          (found = none ↔ lastStored log n = none)) ∧ {n | lastStored log n ≠ none}.Finite := by
  have hvalid : ∀ op ∈ collidingOps, op.Valid := by
    simp [collidingOps, Op.Valid, Right.Valid, ValidName, machPortValid, machPortNull, machPortDead,
      machPortIndex, ioNull]
  exact ⟨⟨by decide, hvalid⟩, lookup_run 7 15 0 (by decide) collidingOps hvalid⟩

end Ipc
