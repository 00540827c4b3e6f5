import UtahMach.DefaultPager.Realloc

/-!
This module contains the moves of pages that `destroy_paging_partition` makes.
-/

namespace DefaultPager

open Store Parts

open Vm (pageSize)
open Lists

variable {β : Type} {pindex : Nat} {s s' s'' : Store β}

theorem pagerDeallocPage_locked {i off : Nat} {part : Part β} (hi : ps.partAt i = some part)
    (hindex : i ≠ pIndexInvalid) (hoff : off < part.totalSize)
    : pagerDeallocPage ps i off false = .ok (ps.setPart i (part.release off)) := by
  rw [pagerDeallocPage, if_neg hindex, partitionOf_of_part hi]
  show (if part.totalSize ≤ off then _ else _) = _
  rw [if_neg (Nat.not_le.2 hoff)]
  rfl

theorem Leaving.available_eq_zero (h : Leaving pindex s)
    (hnone : ∀ k part, s.parts.partAt k = some part → Candidate pindex k part → ptoa part.free < ptoa 1)
    : s.parts.available = 0 := by
  rw [available, List.sum_eq_zero]
  intro n hn
  rw [List.mem_map] at hn
  obtain ⟨x, hx, rfl⟩ := hn
  cases x with
  | none => rfl
  | some part =>
    obtain ⟨k, hk⟩ := List.mem_iff_getElem?.1 hx
    have hpart : s.parts.partAt k = some part := by
      rw [partAt, hk]
      rfl
    show (if part.goingAway = true then 0 else part.free) = 0
    split
    . rfl
    . next hstay =>
      have hne : k ≠ pindex := by
        rintro rfl
        obtain ⟨part', hpart', hleaves, -⟩ := h.leaves
        rw [hpart] at hpart'
        cases hpart'
        exact hstay hleaves
      have hlt := hnone k part hpart ⟨hne, Bool.eq_false_iff.2 hstay⟩
      rw [(h.exact k part hpart).ptoa_free, ptoa_eq (by decide)] at hlt
      omega

theorem Leaving.pagerMovePage {o p : Nat} {ds : Object} (h : Leaving pindex s) (ho : s.objects[o]? = some ds)
    (hfrom : (ds.dpager.blockAt p).pIndex = pindex) (rsize wsize : Nat)
    : DefaultPager.pagerMovePage s.parts (ds.dpager.blockAt p) (some rsize, some wsize) = .ok (s.parts, noBlock) ∧
          s.parts.available = 0 ∨
        ∃ ps' b pager', DefaultPager.pagerMovePage s.parts (ds.dpager.blockAt p) (some rsize, some wsize) =
            .ok (ps', b) ∧ b ≠ noBlock ∧ ds.dpager.setEntry p b = .ok pager' ∧
          pager'.size = ds.dpager.size ∧ (pager'.blockAt p).pIndex ≠ pindex ∧
          Moved pindex (some rsize, some wsize) s (s.setObject o ps' { ds with dpager := pager' }) := by
  have hinvalid : pindex ≠ pIndexInvalid := Nat.ne_of_lt h.pindex_lt
  obtain ⟨old, hold, -, -⟩ := h.leaves
  have hset := h.owned_from ho hfrom hold
  obtain ⟨ps1, newPindex, hchoose, hchosen⟩ := chooseFrom_chosen (ptoa 1) pindex 0 s.parts
    fun k part hk hcand => h.unlocked k part hk (by rw [← Nat.zero_add k]; exact hcand.1)
  rw [DefaultPager.pagerMovePage, hfrom, choosePartition, hchoose]
  cases hchosen with
  | nowhere hnone =>
    refine Or.inl ⟨rfl, h.available_eq_zero ?_⟩
    intro k part hk hcand
    apply hnone k part hk
    rwa [Nat.zero_add]
  | @here k part hk hcand hsize =>
    rw [Nat.zero_add] at hcand
    have hindex := h.index k part hk
    have hexact := h.exact k part hk
    have hklt := lt_length_of_part hk
    have hkne : k ≠ pIndexInvalid := Nat.ne_of_lt hindex
    have hmod : (0 + k) % 256 = k := by
      rw [pIndexInvalid] at hindex
      omega
    rw [hmod, decide_eq_true hinvalid]
    have hlocked1 : (s.parts.setPart k { part with locked := true }).partAt k = some { part with locked := true } :=
      part_setPart_self hklt
    have hexact1 : Part.Exact { part with locked := true } :=
      { hexact with }
    obtain ⟨hfree, -⟩ | ⟨-, off, hoff, hclear, hok⟩ :=
      Parts.Good.pagerAllocPage_eq false hexact1 hlocked1 hkne hcand.2 rfl
    . change part.free = 0 at hfree
      rw [hexact.ptoa_free, ptoa_eq (by decide)] at hsize
      omega
    . rw [setPart_setPart] at hok
      change pagerAllocPage _ k false = .ok (s.parts.setPart k (part.take off), some off) at hok
      change off < part.totalSize at hoff
      have hbound := hexact.bound
      have hold1 : (s.parts.setPart k (part.take off)).partAt pindex = some old :=
        (part_setPart_of_ne hcand.1).trans hold
      have hnew : (⟨off, k⟩ : Block) ≠ noBlock := by
        intro heq
        injection heq with _ heq
        exact hkne heq
      obtain ⟨pager', hentry, hshaped, hsize', hcur, hblock⟩ := (h.usable o ds ho).shaped.setEntry
        ((h.usable o ds ho).shaped.lt_of_blockAt (h.ne_noBlock_of_from hfrom))
        (Dpager.reaches_of_blockAt (h.ne_noBlock_of_from hfrom)) ⟨off, k⟩
      have haway : (pager'.blockAt p).pIndex ≠ pindex := by
        rw [hblock, if_pos rfl]
        exact hcand.1
      refine Or.inr ⟨_, ⟨off, k⟩, pager', ?_, hnew, hentry, hsize', haway,
        .mk ho hfrom hold hk hcand.1 hcand.2 hoff hclear hshaped hsize' hcur hblock rfl rfl⟩
      show (if k = pIndexInvalid then _ else (pagerAllocPage _ k false >>= _)) = _
      rw [if_neg hkne, hok]
      show (partitionOf _ pindex >>= _) = _
      rw [partitionOf_of_part hold1]
      show (pagerDeallocPage _ pindex _ false >>= _) = _
      rw [pagerDeallocPage_locked hold1 hinvalid ((h.exact pindex old hold).lt_of_test hset)]
      show (partitionOf _ k >>= _) = _
      rw [partitionOf_of_part ((part_setPart_of_ne (Ne.symm hcand.1)).trans (part_setPart_self hklt))]
      show Except.ok (_, (⟨off % 2 ^ 24, k⟩ : Block)) = _
      rw [Nat.mod_eq_of_lt (by omega)]
      rfl

def takeMoves : Nat → List Move → List Move
  | 0, _ => []
  | n + 1, io => io.headD wholeMove :: takeMoves n io.tail

theorem length_takeMoves (n : Nat) (io : List Move) : (takeMoves n io).length = n := by
  induction n generalizing io with
  | zero => rfl
  | succ n ih => exact congrArg (· + 1) (ih io.tail)

theorem takeMoves_add (n m : Nat) (io : List Move)
    : takeMoves (n + m) io = takeMoves n io ++ takeMoves m (io.drop n) := by
  induction n generalizing io with
  | zero => rw [Nat.zero_add, List.drop_zero, takeMoves, List.nil_append]
  | succ n ih =>
    rw [Nat.succ_add, takeMoves, takeMoves, ih, List.cons_append, List.drop_tail]

def Whole : Move → Prop
  | (some rsize, some wsize) => pageSize ≤ rsize ∧ pageSize ≤ wsize
  | _ => False

instance : DecidablePred Whole := fun io =>
  match io with
  | (some rsize, some wsize) => inferInstanceAs (Decidable (pageSize ≤ rsize ∧ pageSize ≤ wsize))
  | (none, _) => inferInstanceAs (Decidable False)
  | (some _, none) => inferInstanceAs (Decidable False)

theorem whole_takeMoves (n : Nat) (io : List Move) : (∀ m ∈ takeMoves n io, Whole m) ↔ ∀ m ∈ io.take n, Whole m := by
  induction n generalizing io with
  | zero => rfl
  | succ n ih =>
    rw [takeMoves, List.forall_mem_cons, ih]
    cases io with
    | nil =>
      constructor
      . intro _ m hm
        exact absurd hm List.not_mem_nil
      . intro _
        refine ⟨⟨Nat.le_refl _, Nat.le_refl _⟩, ?_⟩
        intro m hm
        rw [List.tail_nil, List.take_nil] at hm
        exact absurd hm List.not_mem_nil
    | cons m io => rw [List.headD_cons, List.tail_cons, List.take_succ_cons, List.forall_mem_cons]

inductive Moves (pindex : Nat) : List Move → Store β → Store β → Prop where
  | refl (s : Store β) : Moves pindex [] s s
  | move {io : Move} {ios : List Move} {s s' s'' : Store β} (hm : Moved pindex io s s')
      (hrest : Moves pindex ios s' s'') : Moves pindex (io :: ios) s s''
  | choose {ios : List Move} {s s'' : Store β} {o cur : Nat} {ds : Object} (ho : s.objects[o]? = some ds)
      (hcur : s.parts.Valid cur)
      (hrest : Moves pindex ios
        (s.setObject o s.parts { ds with dpager := { ds.dpager with curPartition := cur } }) s'')
      : Moves pindex ios s s''

variable {ios ios' : List Move}

theorem Moves.trans (h : Moves pindex ios s s') (h' : Moves pindex ios' s' s'') : Moves pindex (ios ++ ios') s s'' := by
  induction h with
  | refl => exact h'
  | move hm _ ih => exact .move hm (ih h')
  | choose ho hcur _ ih => exact .choose ho hcur (ih h')

section choose

variable {o cur : Nat} {ds : Object}

theorem blockAt_choose (ho : s.objects[o]? = some ds) (o' p : Nat)
    : (s.setObject o s.parts { ds with dpager := { ds.dpager with curPartition := cur } }).blockAt o' p =
        s.blockAt o' p := by
  rw [blockAt_setObject ho]
  split
  . next heq =>
    subst heq
    exact (blockAt_eq ho).symm
  . rfl

theorem page_choose (ho : s.objects[o]? = some ds) (o' p : Nat)
    : (s.setObject o s.parts { ds with dpager := { ds.dpager with curPartition := cur } }).page o' p =
        s.page o' p := by
  rw [page, blockAt_choose ho]
  rfl

theorem held_choose (ho : s.objects[o]? = some ds)
    : (s.setObject o s.parts { ds with dpager := { ds.dpager with curPartition := cur } }).held pindex =
        s.held pindex := by
  have hsum := sum_map_set (f := fun ds : Object => ds.dpager.heldIn pindex)
    (y := { ds with dpager := { ds.dpager with curPartition := cur } }) ho
  exact Nat.add_right_cancel hsum

theorem Leaving.choose (h : Leaving pindex s) (ho : s.objects[o]? = some ds) (hcur : s.parts.Valid cur)
    : Leaving pindex (s.setObject o s.parts { ds with dpager := { ds.dpager with curPartition := cur } }) := by
  refine ⟨h.exact, h.index, h.unlocked, h.leaves, ?_, ?_, ?_⟩
  . exact forall_set h.usable ((h.usable o ds ho).setCur hcur)
  . refine ⟨?_, ?_⟩
    . intro o' p hb
      rw [blockAt_choose ho] at hb ⊢
      exact h.linked.owned o' p hb
    . intro o1 p1 o2 p2 hb heq
      rw [blockAt_choose ho] at hb heq
      rw [blockAt_choose ho] at heq
      exact h.linked.distinct o1 p1 o2 p2 hb heq
  . intro i part off hi htest
    obtain ⟨o', p, hb⟩ := h.complete i part off hi htest
    exact ⟨o', p, (blockAt_choose ho o' p).trans hb⟩

end choose

namespace Moves

section

variable (h : Moves pindex ios s s')
include h

section

variable (hs : Leaving pindex s)
include hs

theorem leaving : Leaving pindex s' := by
  induction h with
  | refl => exact hs
  | move hm _ ih => exact ih (hs.moved hm)
  | choose ho hcur _ ih => exact ih (hs.choose ho hcur)

theorem held : s'.held pindex + ios.length = s.held pindex := by
  induction h with
  | refl => rfl
  | move hm _ ih =>
    rw [← hs.moved_held hm, ← ih (hs.moved hm)]
    rfl
  | choose ho hcur _ ih => exact (ih (hs.choose ho hcur)).trans (held_choose ho)

theorem available : s'.parts.available + ios.length = s.parts.available := by
  induction h with
  | refl => rfl
  | move hm _ ih =>
    rw [← hs.moved_available hm, ← ih (hs.moved hm)]
    rfl
  | choose ho hcur _ ih => exact ih (hs.choose ho hcur)

theorem settled {o p : Nat}
    (hp : (s.blockAt o p).pIndex ≠ pindex) : s'.blockAt o p = s.blockAt o p ∧ s'.page o p = s.page o p := by
  induction h with
  | refl => exact ⟨rfl, rfl⟩
  | @move io _ s s' _ hm _ ih =>
    have hstep : s'.blockAt o p = s.blockAt o p ∧ s'.page o p = s.page o p := by
      obtain ⟨rsize, wsize, rfl⟩ := hm.succeeds
      obtain ⟨o1, p1, i, off, part, x, hfrom, -, -, -, -, -, -, -, hothers⟩ := hs.moved_page hm
      apply hothers
      rintro ⟨rfl, rfl⟩
      exact hp hfrom
    obtain ⟨hblock, hpage⟩ := ih (hs.moved hm) (by rw [hstep.1]; exact hp)
    exact ⟨hblock.trans hstep.1, hpage.trans hstep.2⟩
  | choose ho hcur _ ih =>
    obtain ⟨hblock, hpage⟩ := ih (hs.choose ho hcur) (by rw [blockAt_choose ho]; exact hp)
    exact ⟨hblock.trans (blockAt_choose ho o p), hpage.trans (page_choose ho o p)⟩

theorem from_of_from {o p : Nat} (hp : (s'.blockAt o p).pIndex = pindex) : (s.blockAt o p).pIndex = pindex := by
  apply Classical.byContradiction
  intro hne
  rw [(h.settled hs hne).1] at hp
  exact hne hp

theorem page_eq {o p : Nat} (hwhole : ∀ m ∈ ios, Whole m) : s'.page o p = s.page o p := by
  induction h with
  | refl => rfl
  | @move io _ s s' _ hm _ ih =>
    rw [List.forall_mem_cons] at hwhole
    rw [ih (hs.moved hm) hwhole.2]
    obtain ⟨rsize, wsize, rfl⟩ := hm.succeeds
    obtain ⟨hrsize, hwsize⟩ := hwhole.1
    obtain ⟨o1, p1, i, off, part, x, -, hpage, -, -, -, -, -, hpage', hothers⟩ := hs.moved_page hm
    by_cases heq : o1 = o ∧ p1 = p
    . obtain ⟨rfl, rfl⟩ := heq
      rw [hpage, hpage']
      congr 1
      funext k
      rw [Nat.min_eq_right hrsize, Nat.min_eq_right hwsize, if_pos k.isLt]
    . exact (hothers o p heq).2
  | choose ho hcur _ ih => exact (ih (hs.choose ho hcur) hwhole).trans (page_choose ho o p)

theorem lost {b : β} (hblank : Leaving.Blank pindex b s) (hshort : ∃ m ∈ ios, ¬ Whole m)
    : ∃ o p x, (s.blockAt o p).pIndex = pindex ∧ s'.page o p = some x ∧ x Leaving.lastByte = b := by
  induction h with
  | refl =>
    obtain ⟨m, hm, -⟩ := hshort
    exact absurd hm List.not_mem_nil
  | @move io ios s s' s'' hm hrest ih =>
    by_cases htail : ∃ m ∈ ios, ¬ Whole m
    . obtain ⟨o, p, x, hfrom, hpage, hx⟩ := ih (hs.moved hm) (hs.moved_blank hm hblank) htail
      refine ⟨o, p, x, ?_, hpage, hx⟩
      exact (Moves.move hm (.refl s')).from_of_from hs hfrom
    . obtain ⟨m, hmem, hnot⟩ := hshort
      obtain rfl | hmem := List.mem_cons.1 hmem
      . obtain ⟨rsize, wsize, rfl⟩ := hm.succeeds
        obtain ⟨o, p, i, off, part, x, hfrom, -, hi, hne, hoff, hclear, hblock, hpage, -⟩ := hs.moved_page hm
        have hexact := hs.exact i part hi
        have hsettled := hrest.settled (hs.moved hm) (o := o) (p := p) (by rw [hblock]; exact hne)
        refine ⟨o, p, _, hfrom, hsettled.2.trans hpage, ?_⟩
        have hlast : (Leaving.lastByte : Nat) = 4095 := rfl
        have hsize : pageSize = 4096 := rfl
        have hnot' : ¬ (pageSize ≤ rsize ∧ pageSize ≤ wsize) := hnot
        rw [if_neg (by omega)]
        exact hblank i part off hi hne (Nat.lt_trans hoff hexact.bound) hclear
      . exact absurd ⟨m, hmem, hnot⟩ htail
  | choose ho hcur _ ih =>
    obtain ⟨o, p, x, hfrom, hpage, hx⟩ := ih (hs.choose ho hcur) hblank hshort
    refine ⟨o, p, x, ?_, hpage, hx⟩
    rwa [blockAt_choose ho] at hfrom

end

end

end Moves

def Succeed (io : List Move) : Prop := ∀ m ∈ io, ∃ rsize wsize, m = (some rsize, some wsize)

theorem Succeed.headD (h : Succeed io) : ∃ rsize wsize, io.headD wholeMove = (some rsize, some wsize) := by
  cases io with
  | nil => exact ⟨pageSize, pageSize, rfl⟩
  | cons m io => exact h m List.mem_cons_self

theorem Succeed.tail (h : Succeed io) : Succeed io.tail := fun m hm => h m (List.mem_of_mem_tail hm)

theorem Succeed.drop (h : Succeed io) (n : Nat) : Succeed (io.drop n) :=
  fun m hm => h m (List.mem_of_mem_drop hm)

def Away (pindex : Nat) (ds : Object) : Prop := ∀ p, (ds.dpager.blockAt p).pIndex ≠ pindex

namespace Leaving

section

variable (h : Leaving pindex s)
include h

theorem held_eq_zero_iff : s.held pindex = 0 ↔ ∀ ds ∈ s.objects, Away pindex ds := by
  rw [held, List.sum_eq_zero_iff, List.forall_mem_map]
  refine forall₂_congr ?_
  intro ds hds
  obtain ⟨o, ho⟩ := List.mem_iff_getElem?.1 hds
  rw [Dpager.heldIn, Nat.count_iff_forall_not]
  constructor
  . intro hall p hp
    have hlt := (h.usable o ds ho).shaped.lt_of_blockAt (h.ne_noBlock_of_from hp)
    exact hall p hlt (decide_eq_true hp)
  . intro haway p _ hp
    exact haway p (of_decide_eq_true hp)

theorem choosePartition
    : ∃ cur, DefaultPager.choosePartition s.parts 0 pIndexInvalid = .ok (s.parts, cur) ∧ s.parts.Valid cur := by
  -- the partition that leaves is not looked at
  have hunlocked (k : Nat) (part : Part β) (hk : s.parts.partAt k = some part) (hstay : part.goingAway = false)
      : part.locked = false := by
    apply h.unlocked k part hk
    rintro rfl
    obtain ⟨part', hpart', hleaves, -⟩ := h.leaves
    rw [hk] at hpart'
    cases hpart'
    rw [hstay] at hleaves
    contradiction
  obtain ⟨ps', cur, heq, hchosen⟩ := chooseFrom_chosen 0 pIndexInvalid 0 s.parts
    fun k part hk hcand => hunlocked k part hk hcand.2
  rw [DefaultPager.choosePartition, heq]
  cases hchosen with
  | nowhere => exact ⟨pIndexInvalid, rfl, Or.inl rfl⟩
  | @here k part hk hcand hsize =>
    have hindex := h.index k part hk
    rw [pIndexInvalid] at hindex
    refine ⟨k, ?_, Or.inr (lt_length_of_part hk)⟩
    rw [Nat.zero_add, Nat.mod_eq_of_lt (by omega), decide_eq_false (not_not.2 rfl),
      ← hunlocked k part hk hcand.2, setPart_eq hk]

theorem reallocPages {o : Nat} {ds : Object}
    (ho : s.objects[o]? = some ds) (hl : ∀ p ∈ l, p < ds.dpager.mapPages) (hio : Succeed io)
    : ∃ n ps' pager' ok, DefaultPager.reallocPages pindex l s.parts ds.dpager io = .ok (ps', pager', io.drop n, ok) ∧
        Moves pindex (takeMoves n io) s (s.setObject o ps' { ds with dpager := pager' }) ∧
        (ok = true → ∀ p ∈ l, (pager'.blockAt p).pIndex ≠ pindex) ∧
        (ok = false → ps'.available = 0 ∧ ¬ Away pindex { ds with dpager := pager' }) := by
  induction l generalizing s ds io with
  | nil =>
    refine ⟨0, s.parts, ds.dpager, true, rfl, ?_, ?_, ?_⟩
    . rw [setObject_self ho]
      exact .refl s
    . intro _ p hp
      exact absurd hp List.not_mem_nil
    . intro hok
      contradiction
  | cons p l ih =>
    rw [List.forall_mem_cons] at hl
    rw [DefaultPager.reallocPages, (h.usable o ds ho).shaped.entry_of_lt_mapPages hl.1]
    show ∃ n ps' pager' ok, (if (ds.dpager.blockAt p).pIndex = pindex then _ else _) = _ ∧ _
    by_cases hfrom : (ds.dpager.blockAt p).pIndex = pindex
    . rw [if_pos hfrom]
      obtain ⟨rsize, wsize, hhead⟩ := hio.headD
      rw [hhead]
      obtain ⟨heq, hfull⟩ | ⟨ps1, b, pager1, heq, hb, hentry, hsize, haway, hm⟩ := h.pagerMovePage ho hfrom rsize wsize
      . rw [heq]
        refine ⟨0, s.parts, ds.dpager, false, rfl, ?_, ?_, ?_⟩
        . rw [setObject_self ho]
          exact .refl s
        . intro hok
          contradiction
        . intro _
          exact ⟨hfull, fun haway => haway p hfrom⟩
      . have ho1 := objects_setObject_self ho ps1 { ds with dpager := pager1 }
        have hl1 (q : Nat) (hq : q ∈ l) : q < pager1.mapPages := by
          rw [Dpager.mapPages, hsize]
          exact hl.2 q hq
        obtain ⟨n, ps', pager', ok, hrest, hmoves, hok, hfailed⟩ := ih (h.moved hm) ho1 hl1 hio.tail
        rw [heq]
        refine ⟨n + 1, ps', pager', ok, ?_, ?_, ?_, hfailed⟩
        . show (if b = noBlock then _ else (ds.dpager.setEntry p b >>= _)) = _
          rw [if_neg hb, hentry, ← List.drop_tail]
          exact hrest
        . rw [setObject_setObject] at hmoves
          rw [takeMoves, hhead]
          exact .move hm hmoves
        . intro hok'
          rw [List.forall_mem_cons]
          refine ⟨?_, hok hok'⟩
          have hsettled := hmoves.settled (h.moved hm) (o := o) (p := p) (by rw [blockAt_eq ho1]; exact haway)
          rw [blockAt_setObject ho1, if_pos rfl, blockAt_eq ho1] at hsettled
          rw [hsettled.1]
          exact haway
    . rw [if_neg hfrom]
      obtain ⟨n, ps', pager', ok, hrest, hmoves, hok, hfailed⟩ := ih h ho hl.2 hio
      refine ⟨n, ps', pager', ok, hrest, hmoves, ?_, hfailed⟩
      intro hok'
      rw [List.forall_mem_cons]
      refine ⟨?_, hok hok'⟩
      have hsettled := hmoves.settled h (o := o) (p := p) (by rw [blockAt_eq ho]; exact hfrom)
      rw [blockAt_setObject ho, if_pos rfl, blockAt_eq ho] at hsettled
      rw [hsettled.1]
      exact hfrom

theorem pagerRealloc {o : Nat} {ds : Object} (ho : s.objects[o]? = some ds) (hio : Succeed io)
    : ∃ n ps' pager' ok, DefaultPager.pagerRealloc s.parts ds.dpager pindex io = .ok (ps', pager', io.drop n, ok) ∧
        Moves pindex (takeMoves n io) s (s.setObject o ps' { ds with dpager := pager' }) ∧
        (ok = true → Away pindex { ds with dpager := pager' }) ∧
        (ok = false → ps'.available = 0 ∧ ¬ Away pindex { ds with dpager := pager' }) := by
  obtain ⟨n, ps', pager', ok, heq, hmoves, hok, hfailed⟩ :=
    h.reallocPages (l := List.range ds.dpager.mapPages) ho (fun p hp => List.mem_range.1 hp) hio
  have h' := hmoves.leaving h
  have ho' := objects_setObject_self ho ps' { ds with dpager := pager' }
  rw [DefaultPager.pagerRealloc, heq]
  cases ok with
  | false => exact ⟨n, ps', pager', false, rfl, hmoves, fun hok => by contradiction, hfailed⟩
  | true =>
    obtain ⟨cur, hchoose, hcur⟩ := h'.choosePartition
    refine ⟨n, ps', { pager' with curPartition := cur }, true, ?_, ?_, ?_, fun hok => by contradiction⟩
    . show (DefaultPager.choosePartition ps' 0 pIndexInvalid >>= _) = _
      rw [show DefaultPager.choosePartition ps' 0 pIndexInvalid = _ from hchoose]
      rfl
    . have hlast : Moves pindex [] _ _ := .choose ho' hcur (.refl _)
      rw [setObject_setObject] at hlast
      have hall := hmoves.trans hlast
      rw [List.append_nil] at hall
      exact hall
    . intro _ p hp
      have hfrom := hmoves.from_of_from h (o := o) (p := p) (by
        rw [blockAt_setObject ho, if_pos rfl]
        exact hp)
      rw [blockAt_eq ho] at hfrom
      have hshaped := (h.usable o ds ho).shaped
      have hlt := hshaped.lt_of_blockAt (h.ne_noBlock_of_from hfrom)
      exact hok rfl p (List.mem_range.2 (Nat.lt_of_lt_of_le hlt (Dpager.size_le_mapPages _))) hp

theorem reallocObjects {rest done : List Object}
    (hobjects : s.objects = done ++ rest) (hdone : ∀ ds ∈ done, Away pindex ds) (hio : Succeed io)
    : ∃ n ps' rest' ok, DefaultPager.reallocObjects pindex rest s.parts io = .ok (ps', rest', ok) ∧
        Moves pindex (takeMoves n io) s ⟨ps', done ++ rest'⟩ ∧ (ok = true → ∀ ds ∈ done ++ rest', Away pindex ds) ∧
        (ok = false → ps'.available = 0 ∧ ∃ ds ∈ rest', ¬ Away pindex ds) := by
  induction rest generalizing s done io with
  | nil =>
    refine ⟨0, s.parts, [], true, rfl, ?_, ?_, fun hok => by contradiction⟩
    . rw [← hobjects]
      exact .refl s
    . intro _
      rw [List.append_nil]
      exact hdone
  | cons ds rest ih =>
    have ho : s.objects[done.length]? = some ds := by
      rw [hobjects, List.getElem?_append_right (Nat.le_refl _), Nat.sub_self]
      rfl
    obtain ⟨n, ps1, pager1, ok1, heq, hmoves, hok1, hfailed1⟩ := h.pagerRealloc ho hio
    have hset : s.setObject done.length ps1 { ds with dpager := pager1 } =
        ⟨ps1, done ++ { ds with dpager := pager1 } :: rest⟩ := by
      rw [setObject, hobjects, List.set_append_right _ _ (Nat.le_refl _), Nat.sub_self]
      rfl
    rw [hset] at hmoves
    rw [DefaultPager.reallocObjects, heq]
    cases ok1 with
    | false =>
      refine ⟨n, ps1, { ds with dpager := pager1 } :: rest, false, rfl, hmoves, fun hok => by contradiction, ?_⟩
      intro _
      obtain ⟨hfull, hstays⟩ := hfailed1 rfl
      exact ⟨hfull, _, List.mem_cons_self, hstays⟩
    | true =>
      rw [List.append_cons] at hmoves
      have hdone1 (ds' : Object) (hds' : ds' ∈ done ++ [{ ds with dpager := pager1 }]) : Away pindex ds' := by
        rw [List.mem_append, List.mem_singleton] at hds'
        obtain hds' | rfl := hds'
        . exact hdone ds' hds'
        . exact hok1 rfl
      obtain ⟨m, ps', rest', ok, heq', hmoves', hok, hfailed⟩ := ih (hmoves.leaving h) rfl hdone1 (hio.drop n)
      refine ⟨n + m, ps', { ds with dpager := pager1 } :: rest', ok, ?_, ?_, ?_, ?_⟩
      . show (DefaultPager.reallocObjects pindex rest ps1 (io.drop n) >>= _) = _
        rw [heq']
        rfl
      . rw [takeMoves_add, List.append_cons]
        exact hmoves.trans hmoves'
      . rw [List.append_cons]
        exact hok
      . intro hok'
        obtain ⟨hfull, ds', hds', hstays⟩ := hfailed hok'
        exact ⟨hfull, ds', List.mem_cons_of_mem _ hds', hstays⟩

end

end Leaving

end DefaultPager
