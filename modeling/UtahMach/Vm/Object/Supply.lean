import UtahMach.Vm.Map.Basic

/-!
This module contains the supply of a page list to a memory object, and what becomes of the pages of the list.
-/

namespace Vm

structure ListPage where
  tabled : Bool
  error : Bool
  absent : Bool
  fictitious : Bool
deriving DecidableEq, Repr

def ListPage.isBad (m : ListPage) : Bool := m.tabled || m.error || m.absent || m.fictitious

inductive Target where
  | missing
  | requested
  | present
  -- the page is waited for, and the offset is looked up again
  | busy (next : Target)
deriving DecidableEq, Repr

def Target.isPresent : Target → Bool
  | missing => false
  | requested => false
  | present => true
  | busy next => next.isPresent

inductive CopyCont where
  | none
  | last (result : KernReturn)
  | more (pages : List ListPage) (next : CopyCont)
deriving DecidableEq, Repr

inductive SupplyReturn where
  | kern (result : KernReturn)
  | memoryPresent
deriving DecidableEq, Repr

structure PageListCopy where
  cpyPageList : List (Option ListPage)
  cpyNpages : Nat
  cpyCont : CopyCont

def PageListCopy.ofPages (pages : List ListPage) (cont : CopyCont) : PageListCopy :=
  ⟨pages.map some, pages.length, cont⟩

def PageListCopy.SamePages (copy copy' : PageListCopy) : Prop :=
  copy.cpyPageList = copy'.cpyPageList ∧ copy.cpyNpages = copy'.cpyNpages

/-- Copy 0 is `orig_copy`. A page is known by its copy and its place in the list. -/
structure Supply where
  copies : Nat → PageListCopy
  dataCopy : Option Nat
  pageList : Nat
  inserted : List (Nat × Nat)
  freed : List (Nat × Nat)

namespace Supply

def setCopy (s : Supply) (c : Nat) (copy : PageListCopy) : Supply :=
  { s with copies := fun i => if i = c then copy else s.copies i }

def vmMapCopyPageDiscard (c : Nat) (list : List (Option ListPage)) : Nat → List (Nat × Nat)
  | 0 => []
  | n + 1 =>
    match list[n]?.join with
    | some m => if m.tabled then vmMapCopyPageDiscard c list n else (c, n) :: vmMapCopyPageDiscard c list n
    | none => vmMapCopyPageDiscard c list n

def vmMapCopyDiscard (s : Supply) (c : Nat) : Supply :=
  -- a continuation that is aborted has no page of the list
  { s.setCopy c { s.copies c with cpyNpages := 0, cpyCont := .none } with
    freed := s.freed ++ vmMapCopyPageDiscard c (s.copies c).cpyPageList (s.copies c).cpyNpages }

def insertPage (s : Supply) (c : Nat) : Supply :=
  { s.setCopy c { s.copies c with
      cpyPageList := (s.copies c).cpyPageList.set s.pageList none
      cpyNpages := (s.copies c).cpyNpages - 1 } with
    pageList := s.pageList + 1
    inserted := s.inserted ++ [(c, s.pageList)] }

def invokeCont (s : Supply) (c : Nat) : KernReturn × Supply :=
  if (s.copies c).cpyNpages = 0 then
    -- the old copy is used up, so that discarding it frees no page
    let old := s.setCopy c { s.copies c with cpyCont := .none }
    match (s.copies c).cpyCont with
    | .none => (.success, s)
    | .last result => (result, if result = .success then { old with dataCopy := none } else old)
    | .more pages next =>
      (.success, { old.setCopy (c + 1) (.ofPages pages next) with dataCopy := some (c + 1), pageList := 0 })
  else (.success, s)

def supplyPages (target : Nat → Target) : Nat → Nat → Supply → Except Stop (SupplyReturn × Supply)
  | 0, _, s => .ok (.kern .success, s)
  | count + 1, offset, s =>
    match s.dataCopy with
    | none => .error .panic
    | some c => do
      Stop.check (0 < (s.copies c).cpyNpages)
      Stop.check ((s.copies c).cpyPageList[s.pageList]?.join.any (!·.isBad))
      if (target offset).isPresent then .ok (.memoryPresent, s)
      else if ((s.insertPage c).invokeCont c).1 = .success then
        supplyPages target count ((offset + pageSize) % wordSize) ((s.insertPage c).invokeCont c).2
      else .ok (.kern ((s.insertPage c).invokeCont c).1, ((s.insertPage c).invokeCont c).2)

def finish (s : Supply) (result : SupplyReturn) (c : Nat) : Supply :=
  let s := if (s.copies c).cpyCont ≠ .none then s.vmMapCopyDiscard c else s
  let s := if c ≠ 0 then s.vmMapCopyDiscard c else s
  if result = .kern .success then s.vmMapCopyDiscard 0 else s

end Supply

open Supply

def memoryObjectDataSupply (object : Option (Nat → Target)) (pagingOffset offset : Nat) (pages : List ListPage)
    (cont : CopyCont) (dataCnt : Nat) (lockValue : VmProt) : Except Stop (SupplyReturn × Supply) :=
  let s : Supply := ⟨fun _ => .ofPages pages cont, some 0, 0, [], []⟩
  match object with
  | none => .ok (.kern .invalidArgument, s)
  | some target =>
    if lockValue &&& ~~~VmProt.all ≠ 0 ∨ dataCnt % pageSize ≠ 0 then .ok (.kern .invalidArgument, s)
    else do
      let (result, s) ← supplyPages target (dataCnt / pageSize) ((offset + (wordSize - pagingOffset)) % wordSize) s
      match s.dataCopy with
      | none => .error .panic
      | some c => .ok (result, s.finish result c)

-- the caller discards the copy of a call that failed
def consumeOnSuccess (r : SupplyReturn × Supply) : Supply :=
  if r.1 = .kern .success then r.2 else r.2.vmMapCopyDiscard 0

namespace Supply

variable {pages : List ListPage} {k m c i : Nat} {s : Supply}

@[simp]
theorem setCopy_self (s : Supply) (c : Nat) (copy : PageListCopy) : (s.setCopy c copy).copies c = copy := if_pos rfl

theorem setCopy_of_ne (s : Supply) (copy : PageListCopy) (h : i ≠ c) : (s.setCopy c copy).copies i = s.copies i :=
  if_neg h

theorem setCopy_samePages (s : Supply) {copy : PageListCopy} (h : c = 0 → copy.SamePages (s.copies 0))
    : ((s.setCopy c copy).copies 0).SamePages (s.copies 0) := by
  by_cases hc : c = 0
  . subst hc
    rw [setCopy_self]
    exact h rfl
  . rw [setCopy_of_ne _ _ (Ne.symm hc)]
    exact ⟨rfl, rfl⟩

theorem count_pageDiscard (list : List (Option ListPage)) (c i n : Nat) : (vmMapCopyPageDiscard c list n).count (0, i) =
      if c = 0 ∧ i < n ∧ list[i]?.join.any (!·.tabled) then 1 else 0 := by
  induction n with
  | zero => simp [vmMapCopyPageDiscard]
  | succ n ih =>
    unfold vmMapCopyPageDiscard
    by_cases hi : i = n
    . subst hi
      cases list[i]?.join <;> grind
    . cases list[n]?.join <;> grind

/--
The first `k` pages of the original copy are inserted. Of the places that its count covered after that, those
from `m` up are gone through, and the pages there are freed.
-/
structure Account (pages : List ListPage) (k m : Nat) (s : Supply) : Prop where
  npages : (s.copies 0).cpyNpages = m
  entries : ∀ i, (s.copies 0).cpyPageList[i]?.join = if i < k then none else pages[i]?
  inserted : ∀ i, s.inserted.count (0, i) = if i < k then 1 else 0
  freed : ∀ i, s.freed.count (0, i) =
    if m ≤ i ∧ i < pages.length - k ∧ k ≤ i ∧ pages[i]?.any (!·.tabled) then 1 else 0

namespace Account

theorem congr (h : Account pages k m s) (hcopy : (s'.copies 0).SamePages (s.copies 0))
    (hinserted : ∀ i, s'.inserted.count (0, i) = s.inserted.count (0, i))
    (hfreed : ∀ i, s'.freed.count (0, i) = s.freed.count (0, i)) : Account pages k m s' := by
  refine ⟨?_, fun i => ?_, fun i => ?_, fun i => ?_⟩
  . rw [hcopy.2, h.npages]
  . rw [hcopy.1, h.entries]
  . rw [hinserted, h.inserted]
  . rw [hfreed, h.freed]

theorem discard (h : Account pages k m s) (hm : m ≤ pages.length - k)
    : Account pages k 0 (s.vmMapCopyDiscard 0) := by
  refine ⟨by simp [vmMapCopyDiscard], fun i => ?_, h.inserted, fun i => ?_⟩
  . simp [vmMapCopyDiscard, h.entries]
  . -- the places below the count are gone through now, and those from there up were before
    unfold vmMapCopyDiscard
    rw [List.count_append, h.freed, count_pageDiscard, h.entries, h.npages]
    by_cases hk : i < k
    . simp [hk, Nat.not_le.2 hk]
    by_cases hi : i < m
    . have hlt : i < pages.length - k := by omega
      simp [hi, hk, hlt, Nat.le_of_not_lt hk, Nat.not_le.2 hi]
    . simp [hi, Nat.le_of_not_lt hi]

theorem discard_of_ne (h : Account pages k m s) (hc : c ≠ 0) : Account pages k m (s.vmMapCopyDiscard c) := by
  refine h.congr (setCopy_samePages s fun h0 => absurd h0 hc) (fun _ => rfl) fun i => ?_
  unfold vmMapCopyDiscard
  rw [List.count_append, count_pageDiscard, if_neg fun hcond => hc hcond.1, Nat.add_zero]

theorem insertPage (h : Account pages k (pages.length - k) s) (hk : k < pages.length) (hat : s.pageList = k)
    : Account pages (k + 1) (pages.length - (k + 1)) (s.insertPage 0) := by
  refine ⟨?_, fun i => ?_, fun i => ?_, fun i => ?_⟩
  . simp [Supply.insertPage, h.npages, Nat.sub_add_eq]
  . have hold := h.entries i
    simp only [Supply.insertPage, setCopy_self, hat, List.getElem?_set]
    by_cases hi : i = k
    . subst hi
      rw [if_pos rfl, if_pos (Nat.lt_succ_self i)]
      split <;> rfl
    . rw [if_neg (Ne.symm hi), hold]
      simp only [Nat.lt_succ_iff_lt_or_eq, hi, or_false]
  . simp only [Supply.insertPage, hat, List.count_append, h.inserted]
    by_cases hi : i = k
    . subst hi
      simp
    . have hlt : i < k + 1 ↔ i < k := by omega
      simp [hlt, Ne.symm hi]
  . have hold := h.freed i
    rw [if_neg (by omega)] at hold ⊢
    exact hold

theorem insertPage_of_ne (h : Account pages k m s) (hc : c ≠ 0) : Account pages k m (s.insertPage c) := by
  refine h.congr (setCopy_samePages s fun h0 => absurd h0 hc) (fun i => ?_) fun _ => rfl
  simp [Supply.insertPage, List.count_append, hc]

theorem invokeCont (h : Account pages k m s) (c : Nat) : Account pages k m (s.invokeCont c).2 := by
  have hold : ((s.setCopy c { s.copies c with cpyCont := .none }).copies 0).SamePages (s.copies 0) := by
    apply setCopy_samePages
    rintro rfl
    exact ⟨rfl, rfl⟩
  unfold Supply.invokeCont
  split
  . cases (s.copies c).cpyCont with
    | none => exact h
    | last result =>
      dsimp only
      split
      . exact h.congr hold (fun _ => rfl) fun _ => rfl
      . exact h.congr hold (fun _ => rfl) fun _ => rfl
    | more pages next =>
      refine h.congr ?_ (fun _ => rfl) fun _ => rfl
      dsimp only
      rw [setCopy_of_ne _ _ (Nat.succ_ne_zero c).symm]
      exact hold
  . exact h

-- with pages inserted, the last page of a list that is not used up is outside the count
theorem once_iff (h : Account pages k 0 s)
    : (∀ i < pages.length, s.inserted.count (0, i) + s.freed.count (0, i) = 1) ↔
      pages.length ≤ k ∨ k = 0 ∧ ∀ page ∈ pages, !page.tabled := by
  constructor
  . intro honce
    by_cases hk : pages.length ≤ k
    . exact .inl hk
    have hlast := honce (pages.length - 1) (by omega)
    rw [h.inserted, h.freed, if_neg (by omega), Nat.zero_add] at hlast
    have hzero : k = 0 := by
      by_contra hne
      rw [if_neg (by omega)] at hlast
      contradiction
    subst hzero
    refine .inr ⟨rfl, fun page hpage => ?_⟩
    obtain ⟨i, hi, rfl⟩ := List.mem_iff_getElem.1 hpage
    have hpage := honce i hi
    rw [h.inserted, h.freed, if_neg (Nat.not_lt_zero i), Nat.zero_add] at hpage
    split at hpage
    . next hcond => simpa [List.getElem?_eq_getElem hi] using hcond.2.2.2
    . contradiction
  . rintro (hall | ⟨rfl, huntabled⟩) i hi
    . rw [h.inserted, h.freed, if_pos (by omega), if_neg (by omega)]
    . have hpage : pages[i]?.any (!·.tabled) = true := by
        simpa [List.getElem?_eq_getElem hi] using huntabled _ (List.getElem_mem hi)
      rw [h.inserted, h.freed, if_neg (Nat.not_lt_zero i), if_pos ⟨Nat.zero_le i, hi, Nat.zero_le i, hpage⟩]

theorem once_iff_untabled (h : Account pages 0 0 s)
    : (∀ i < pages.length, s.inserted.count (0, i) + s.freed.count (0, i) = 1) ↔ ∀ page ∈ pages, !page.tabled := by
  rw [h.once_iff]
  constructor
  . rintro (hnil | ⟨-, huntabled⟩) page hpage
    . exact absurd (List.length_pos_of_mem hpage) (Nat.not_lt.2 hnil)
    . exact huntabled page hpage
  . exact fun huntabled => .inr ⟨rfl, huntabled⟩

theorem consumeOnSuccess {r : SupplyReturn} (h : Account pages k m s) (hm : m ≤ pages.length - k)
    (hr : r = .kern .success → m = 0) : Account pages k 0 (consumeOnSuccess (r, s)) := by
  unfold Vm.consumeOnSuccess
  split
  . next hsuccess => exact hr hsuccess ▸ h
  . exact h.discard hm

theorem finish (h : Account pages k (pages.length - k) s) (r : SupplyReturn) (c : Nat)
    : Account pages k 0 (Vm.consumeOnSuccess (r, s.finish r c)) := by
  have hdiscard {m : Nat} {s : Supply} (p : Prop) [Decidable p] (h : Account pages k m s) (hm : m ≤ pages.length - k)
      : ∃ m ≤ pages.length - k, Account pages k m (if p then s.vmMapCopyDiscard c else s) := by
    split
    . by_cases hc : c = 0
      . exact ⟨0, Nat.zero_le _, hc ▸ h.discard hm⟩
      . exact ⟨m, hm, h.discard_of_ne hc⟩
    . exact ⟨m, hm, h⟩
  obtain ⟨m, hm, hend⟩ := hdiscard ((s.copies c).cpyCont ≠ .none) h (Nat.le_refl _)
  obtain ⟨m, hm, hlast⟩ := hdiscard (c ≠ 0) hend hm
  unfold Supply.finish
  dsimp only
  split
  . exact (hlast.discard hm).consumeOnSuccess (Nat.zero_le _) fun _ => rfl
  . next hfails => exact hlast.consumeOnSuccess hm fun hr => absurd hr hfails

end Account

theorem invokeCont_of_pos (hn : (s.copies c).cpyNpages ≠ 0) : s.invokeCont c = (.success, s) := if_neg hn

theorem invokeCont_cases (hcopy : s.dataCopy = some c)
    : ((s.copies c).cpyNpages = 0 ∨ (s.invokeCont c).1 = .success ∧ (s.invokeCont c).2.dataCopy = some c) ∧
      ((s.invokeCont c).2.dataCopy = some 0 → c = 0 ∧ (s.invokeCont c).2.pageList = s.pageList) := by
  by_cases hn : (s.copies c).cpyNpages = 0
  . refine ⟨.inl hn, ?_⟩
    unfold invokeCont
    rw [if_pos hn]
    cases (s.copies c).cpyCont with
    | none => exact fun h0 => ⟨Option.some.inj (hcopy.symm.trans h0), rfl⟩
    | last result =>
      dsimp only
      split
      . exact fun h0 => absurd h0 (by simp)
      . exact fun h0 => ⟨Option.some.inj (hcopy.symm.trans h0), rfl⟩
    | more pages next => exact fun h0 => absurd (Option.some.inj h0) (Nat.succ_ne_zero c)
  . rw [invokeCont_of_pos hn]
    exact ⟨.inr ⟨rfl, hcopy⟩, fun h0 => ⟨Option.some.inj (hcopy.symm.trans h0), rfl⟩⟩

def pageOffset (first i : Nat) : Nat := (first + i * pageSize) % wordSize

theorem pageOffset_succ (first i : Nat) : (pageOffset first i + pageSize) % wordSize = pageOffset first (i + 1) := by
  unfold pageOffset
  rw [Nat.mod_add_mod, Nat.succ_mul, Nat.add_assoc]

theorem untabled_of_good {page : Option ListPage} (h : page.any (!·.isBad) = true)
    : page.any (!·.tabled) = true := by
  cases page with
  | none => exact h
  | some page =>
    simp only [Option.any_some, ListPage.isBad, Bool.not_or, Bool.and_eq_true] at h
    exact h.1.1.1

structure Progress (pages : List ListPage) (first total count offset k : Nat) (s : Supply) : Prop where
  account : Account pages k (pages.length - k) s
  original : s.dataCopy = some 0 → s.pageList = k ∧ offset = pageOffset first k ∧ k + count = total
  later : s.dataCopy ≠ some 0 → pages.length ≤ k

theorem Progress.dataCopy (h : Progress pages first total count offset k s) (hk : k < pages.length)
    : s.dataCopy = some 0 := by
  by_contra hne
  exact Nat.not_le.2 hk (h.later hne)

theorem Progress.insert_original (h : Progress pages first total (count + 1) offset k s) (hcopy : s.dataCopy = some 0)
    (hk : k < pages.length) : Account pages (k + 1) (pages.length - (k + 1)) ((s.insertPage 0).invokeCont 0).2 ∧
      (((s.insertPage 0).invokeCont 0).1 = .success →
        Progress pages first total count ((offset + pageSize) % wordSize) (k + 1) ((s.insertPage 0).invokeCont 0).2) ∧
      (((s.insertPage 0).invokeCont 0).1 ≠ .success → pages.length ≤ k + 1) := by
  obtain ⟨hpage, hoffset, htotal⟩ := h.original hcopy
  have hinsert := h.account.insertPage hk hpage
  obtain ⟨hnext, hsame⟩ := invokeCont_cases (show (s.insertPage 0).dataCopy = some 0 from hcopy)
  have hlast (hzero : ((s.insertPage 0).copies 0).cpyNpages = 0) : pages.length ≤ k + 1 := by
    rw [hinsert.npages] at hzero
    omega
  have hkept := hinsert.invokeCont 0
  refine ⟨hkept, fun _ => ⟨hkept, fun h0 => ⟨?_, ?_, ?_⟩, fun h0 => ?_⟩, fun hfails => ?_⟩
  . rw [(hsame h0).2]
    exact congrArg (· + 1) hpage
  . rw [hoffset, pageOffset_succ]
  . omega
  . exact hlast (hnext.resolve_right fun hdata => h0 hdata.2)
  . exact hlast (hnext.resolve_right fun hdata => hfails hdata.1)

theorem Progress.insert_later (h : Progress pages first total (count + 1) offset k s)
    (hcopy : s.dataCopy = some c) (hc : c ≠ 0)
    : Progress pages first total count ((offset + pageSize) % wordSize) k ((s.insertPage c).invokeCont c).2 := by
  have hle : pages.length ≤ k := h.later fun h0 => hc (Option.some.inj (hcopy.symm.trans h0))
  obtain ⟨-, hsame⟩ := invokeCont_cases (show (s.insertPage c).dataCopy = some c from hcopy)
  exact ⟨(h.account.insertPage_of_ne hc).invokeCont c, fun h0 => absurd (hsame h0).1 hc, fun _ => hle⟩

-- iteration k takes page k of the original copy as long as there is one
theorem supplyPages_account {target : Nat → Target} {r : SupplyReturn} {s' : Supply}
    (h : Progress pages first total count offset k s) (hrun : supplyPages target count offset s = .ok (r, s'))
    : ∃ k', Account pages k' (pages.length - k') s' ∧ k ≤ k' ∧
        (∀ i, k ≤ i → i < k' → i < total ∧ pages[i]?.any (!·.tabled) ∧ ¬(target (pageOffset first i)).isPresent) ∧
        (k' < pages.length → k' = total ∨ (target (pageOffset first k')).isPresent) := by
  have hnone {k : Nat} {p : Nat → Prop} : ∀ i, k ≤ i → i < k → p i := fun i hle hlt => absurd hle (Nat.not_le.2 hlt)
  induction count generalizing offset k s with
  | zero =>
    cases hrun
    exact ⟨k, h.account, Nat.le_refl k, hnone, fun hk => .inl (h.original (h.dataCopy hk)).2.2⟩
  | succ count ih =>
    unfold supplyPages at hrun
    cases hcopy : s.dataCopy with
    | none =>
      rw [hcopy] at hrun
      contradiction
    | some c =>
      simp only [hcopy] at hrun
      obtain ⟨-, hrun⟩ := Stop.check_bind_ok.1 hrun
      obtain ⟨hgood, hrun⟩ := Stop.check_bind_ok.1 hrun
      by_cases hpresent : (target offset).isPresent = true
      . rw [if_pos hpresent] at hrun
        cases hrun
        refine ⟨k, h.account, Nat.le_refl k, hnone, fun hk => .inr ?_⟩
        rw [← (h.original (h.dataCopy hk)).2.1]
        exact hpresent
      rw [if_neg hpresent] at hrun
      by_cases hc : c = 0
      . subst hc
        obtain ⟨hpage, hoffset, htotal⟩ := h.original hcopy
        rw [hpage, h.account.entries, if_neg (Nat.lt_irrefl k)] at hgood
        have hk : k < pages.length := by
          by_contra hle
          rw [List.getElem?_eq_none (Nat.le_of_not_lt hle)] at hgood
          contradiction
        have hfirst : k < total ∧ pages[k]?.any (!·.tabled) ∧ ¬(target (pageOffset first k)).isPresent :=
          ⟨by omega, untabled_of_good hgood, hoffset ▸ hpresent⟩
        obtain ⟨hkept, hsuccess, hfails⟩ := h.insert_original hcopy hk
        split at hrun
        . next hresult =>
          obtain ⟨k', h', hle, hbelow, hstop⟩ := ih (hsuccess hresult) hrun
          refine ⟨k', h', Nat.le_of_succ_le hle, fun i hki hi => ?_, hstop⟩
          rcases Nat.eq_or_lt_of_le hki with rfl | hlt
          . exact hfirst
          . exact hbelow i hlt hi
        . next hresult =>
          cases hrun
          have hle := hfails hresult
          refine ⟨k + 1, hkept, Nat.le_succ k, fun i hki hi => ?_, fun hlt => absurd hle (Nat.not_le.2 hlt)⟩
          rw [Nat.le_antisymm (Nat.le_of_lt_succ hi) hki]
          exact hfirst
      . have hnext := h.insert_later hcopy hc
        have hle : pages.length ≤ k := h.later fun h0 => hc (Option.some.inj (hcopy.symm.trans h0))
        split at hrun
        . exact ih hnext hrun
        . cases hrun
          exact ⟨k, hnext.account, Nat.le_refl k, hnone, fun hk => absurd hle (Nat.not_le.2 hk)⟩

end Supply

theorem memoryObjectDataSupply_consumes {object : Option (Nat → Target)} {pagingOffset offset dataCnt : Nat}
    {pages : List ListPage} {cont : CopyCont} {lockValue : VmProt} {r : SupplyReturn × Supply}
    (hrun : memoryObjectDataSupply object pagingOffset offset pages cont dataCnt lockValue = .ok r)
    : (∀ i < pages.length, (consumeOnSuccess r).inserted.count (0, i) + (consumeOnSuccess r).freed.count (0, i) = 1) ↔
      (∀ page ∈ pages, !page.tabled) ∧ ∀ target, object = some target → lockValue &&& ~~~VmProt.all = 0 →
        dataCnt % pageSize = 0 → dataCnt / pageSize = 0 ∨
          (target (pageOffset (offset + (wordSize - pagingOffset)) 0)).isPresent ∨
          pages.length ≤ dataCnt / pageSize ∧
            ∀ i < pages.length, ¬(target (pageOffset (offset + (wordSize - pagingOffset)) i)).isPresent := by
  have hinit : Account pages 0 (pages.length - 0) ⟨fun _ => .ofPages pages cont, some 0, 0, [], []⟩ := by
    refine ⟨rfl, fun i => ?_, fun i => rfl, fun i => ?_⟩
    . simp only [PageListCopy.ofPages, List.getElem?_map]
      cases pages[i]? <;> rfl
    . rw [if_neg (by omega)]
      rfl
  have hprogress : Progress pages (offset + (wordSize - pagingOffset)) (dataCnt / pageSize) (dataCnt / pageSize)
      ((offset + (wordSize - pagingOffset)) % wordSize) 0 ⟨fun _ => .ofPages pages cont, some 0, 0, [], []⟩ :=
    ⟨hinit, fun _ => ⟨rfl, rfl, Nat.zero_add _⟩, fun h0 => absurd rfl h0⟩
  unfold memoryObjectDataSupply at hrun
  cases object with
  | none =>
    cases hrun
    rw [(hinit.consumeOnSuccess (Nat.le_refl _) (by simp)).once_iff_untabled]
    exact ⟨fun h => ⟨h, fun _ htarget => absurd htarget (by simp)⟩, And.left⟩
  | some target =>
    dsimp only at hrun
    by_cases hbad : lockValue &&& ~~~VmProt.all ≠ 0 ∨ dataCnt % pageSize ≠ 0
    . rw [if_pos hbad] at hrun
      cases hrun
      rw [(hinit.consumeOnSuccess (Nat.le_refl _) (by simp)).once_iff_untabled]
      exact ⟨fun h => ⟨h, fun _ _ hlock hcnt => hbad.elim (absurd hlock) (absurd hcnt)⟩, And.left⟩
    rw [if_neg hbad] at hrun
    obtain ⟨⟨result, s⟩, hpages, hrun⟩ := Stop.bind_ok.1 hrun
    obtain ⟨k, h, -, hbelow, hstop⟩ := supplyPages_account hprogress hpages
    cases hcopy : s.dataCopy with
    | none =>
      simp only [hcopy] at hrun
      contradiction
    | some c =>
      simp only [hcopy] at hrun
      cases hrun
      rw [(h.finish result c).once_iff]
      constructor
      . rintro (hall | ⟨rfl, huntabled⟩)
        . refine ⟨fun page hpage => ?_, fun target' htarget _ _ => .inr (.inr ⟨?_, fun i hi => ?_⟩)⟩
          . obtain ⟨i, hi, rfl⟩ := List.mem_iff_getElem.1 hpage
            have hpage := (hbelow i (Nat.zero_le i) (Nat.lt_of_lt_of_le hi hall)).2.1
            simpa [List.getElem?_eq_getElem hi] using hpage
          . by_contra hlt
            have hless := (hbelow (dataCnt / pageSize) (Nat.zero_le _) (by omega)).1
            exact Nat.lt_irrefl _ hless
          . cases htarget
            exact (hbelow i (Nat.zero_le i) (Nat.lt_of_lt_of_le hi hall)).2.2
        . refine ⟨huntabled, fun target' htarget _ _ => ?_⟩
          cases htarget
          by_cases hlen : 0 < pages.length
          . exact (hstop hlen).imp Eq.symm .inl
          . exact .inr (.inr ⟨Nat.le_trans (Nat.le_of_not_lt hlen) (Nat.zero_le _), fun i hi => absurd hi (by omega)⟩)
      . rintro ⟨huntabled, hcond⟩
        have hstart (hnot : ¬ (0 < dataCnt / pageSize ∧
            ¬ (target (pageOffset (offset + (wordSize - pagingOffset)) 0)).isPresent = true)) : k = 0 := by
          by_contra hk
          obtain ⟨hlt, -, hmissing⟩ := hbelow 0 (Nat.le_refl 0) (Nat.pos_of_ne_zero hk)
          exact hnot ⟨hlt, hmissing⟩
        rw [not_or, not_not, not_not] at hbad
        rcases hcond target rfl hbad.1 hbad.2 with hzero | hpresent | ⟨hlen, hmissing⟩
        . exact .inr ⟨hstart fun hlt => absurd hzero (Nat.ne_of_gt hlt.1), huntabled⟩
        . exact .inr ⟨hstart fun hlt => hlt.2 hpresent, huntabled⟩
        . left
          by_contra hlt
          rcases hstop (Nat.lt_of_not_le hlt) with htotal | hpresent
          . exact hlt (htotal ▸ hlen)
          . exact hmissing k (Nat.lt_of_not_le hlt) hpresent

def stolen : ListPage := ⟨false, false, false, false⟩

def secondAsked (offset : Nat) : Target := if offset = 4096 then .busy .requested else .missing

theorem memoryObjectDataSupply_consumes_stolen
    : ∃ r, memoryObjectDataSupply (some secondAsked) 0 0 [stolen, stolen] (.more [stolen] .none) 12288 .none = .ok r ∧
        ∀ i < 2, (consumeOnSuccess r).inserted.count (0, i) + (consumeOnSuccess r).freed.count (0, i) = 1 := by
  have hrun : memoryObjectDataSupply (some secondAsked) 0 0 [stolen, stolen] (.more [stolen] .none) 12288 .none =
      .ok _ := rfl
  refine ⟨_, hrun, (memoryObjectDataSupply_consumes hrun).2 ⟨by decide, ?_⟩⟩
  rintro target ⟨⟩ - -
  exact .inr (.inr (by decide))

def firstMissing (offset : Nat) : Target := if offset = 0 then .missing else .present

theorem memoryObjectDataSupply_loses
    : ∃ r, memoryObjectDataSupply (some firstMissing) 0 0 [stolen, stolen] .none 8192 .none = .ok r ∧
        r.1 = .memoryPresent ∧
        (consumeOnSuccess r).inserted.count (0, 1) + (consumeOnSuccess r).freed.count (0, 1) = 0 :=
  ⟨_, rfl, rfl, by decide⟩

end Vm
