import UtahMach.DefaultPager.Refine

/-!
This module contains how a paging partition is removed.
-/

namespace DefaultPager

open Parts (length_setPart lt_length_of_part part_setPart_of_ne part_setPart_self)

open Bitmap Store

open Vm (pageSize)
open Lists

variable {β : Type}

abbrev Move := Option Nat × Option Nat

def wholeMove : Move := (some pageSize, some pageSize)

def copied (raddr : Nat → β) (offset size : Nat) (disk : Nat → β) : Nat → β := fun a =>
  if offset ≤ a ∧ a < offset + size then raddr (a - offset) else disk a

def pagerMovePage (ps : Parts β) (block : Block) (io : Move) : Except Halt (Parts β × Block) := do
  let (ps, newPindex) ← choosePartition ps (ptoa 1) block.pIndex
  if newPindex = pIndexInvalid then .ok (ps, noBlock)
  else
    let (ps, newOffset) ← pagerAllocPage ps newPindex false
    match newOffset with
    | none => .error (.panic "%spager_move_page")
    | some newOffset =>
      match ← ps.partitionOf block.pIndex with
      | none => .error .astray
      | some oldPart =>
        match io with
        | (some rsize, some wsize) =>
          let raddr := fun i => oldPart.disk (ptoa block.pOffset + i)
          let size := min rsize pageSize
          let ps ← pagerDeallocPage ps block.pIndex block.pOffset false
          match ← ps.partitionOf newPindex with
          | none => .error .astray
          | some newPart =>
            -- what has been read is written with one transfer
            let disk := copied raddr (ptoa newOffset) (min wsize size) newPart.disk
            .ok (ps.setPart newPindex (newPart.setDisk disk), ⟨newOffset % 2 ^ 24, newPindex⟩)
        | _ => .error (.panic "%spager_move_page")

def reallocPages (pindex : Nat)
    : List Nat → Parts β → Dpager → List Move → Except Halt (Parts β × Dpager × List Move × Bool)
  | [], ps, pager, io => .ok (ps, pager, io, true)
  | p :: rest, ps, pager, io => do
    let block ← pager.entry p
    if block.pIndex = pindex then
      let (ps, newBlock) ← pagerMovePage ps block (io.headD wholeMove)
      if newBlock = noBlock then .ok (ps, pager, io, false)
      else
        let pager ← pager.setEntry p newBlock
        reallocPages pindex rest ps pager io.tail
    else reallocPages pindex rest ps pager io

def pagerRealloc (ps : Parts β) (pager : Dpager) (pindex : Nat) (io : List Move)
    : Except Halt (Parts β × Dpager × List Move × Bool) := do
  let (ps, pager, io, ok) ← reallocPages pindex (List.range pager.mapPages) ps pager io
  if ok then
    let (ps, curPartition) ← choosePartition ps 0 pIndexInvalid
    .ok (ps, { pager with curPartition := curPartition }, io, true)
  else .ok (ps, pager, io, false)

def reallocObjects (pindex : Nat)
    : List Object → Parts β → List Move → Except Halt (Parts β × List Object × Bool)
  | [], ps, _ => .ok (ps, [], true)
  | ds :: rest, ps, io => do
    let (ps, dpager, io, ok) ← pagerRealloc ps ds.dpager pindex io
    if ok then
      let (ps, rest, ok) ← reallocObjects pindex rest ps io
      .ok (ps, { ds with dpager := dpager } :: rest, ok)
    else .ok (ps, { ds with dpager := dpager } :: rest, false)

inductive KernReturn where
  | success
  | invalidArgument
  | failure
deriving DecidableEq, Repr

def isNamed (name : List (BitVec 8)) : Option (Part β) → Bool
  | none => false
  | some part => decide (part.id = partId name)

def destroyPagingPartition (s : Store β) (name : List (BitVec 8)) (io : List Move)
    : Except Halt (Store β × KernReturn) :=
  match s.parts.findIdx? (isNamed name) with
  | none => .ok (s, .invalidArgument)
  | some pindex =>
    match s.parts.partAt pindex with
    | none => .error .astray
    | some part => do
      let part ← { part with goingAway := true }.lock
      let (ps, objects, allOk) ← reallocObjects pindex s.objects (s.parts.setPart pindex part) io
      if allOk then .ok (⟨ps.set pindex none, objects⟩, .success)
      else
        match ps.partAt pindex with
        | none => .error .astray
        | some part => .ok (⟨ps.setPart pindex { part with goingAway := false }, objects⟩, .failure)

structure Leaving (pindex : Nat) (s : Store β) : Prop where
  exact : ∀ i part, s.parts.partAt i = some part → part.Exact
  index : ∀ i part, s.parts.partAt i = some part → i < pIndexInvalid
  unlocked : ∀ i part, s.parts.partAt i = some part → i ≠ pindex → part.locked = false
  leaves : ∃ part, s.parts.partAt pindex = some part ∧ part.goingAway = true ∧ part.locked = true
  usable : ∀ (o : Nat) (ds : Object), s.objects[o]? = some ds → ds.dpager.Usable s.parts
  linked : Linked s.parts s.blockAt
  complete : ∀ i part off, s.parts.partAt i = some part → Bitmap.test part.bitmap off = true →
    ∃ o p, s.blockAt o p = ⟨off, i⟩

inductive Moved (pindex : Nat) : Move → Store β → Store β → Prop where
  | mk {s s' : Store β} {o p i off rsize wsize : Nat} {ds : Object} {pager' : Dpager} {old part : Part β}
      (ho : s.objects[o]? = some ds) (hfrom : (ds.dpager.blockAt p).pIndex = pindex)
      (hold : s.parts.partAt pindex = some old) (hi : s.parts.partAt i = some part) (hne : i ≠ pindex)
      (hstay : part.goingAway = false) (hoff : off < part.totalSize)
      (hclear : Bitmap.test part.bitmap off = false) (hshaped : pager'.Shaped)
      (hsize : pager'.size = ds.dpager.size) (hcur : pager'.curPartition = ds.dpager.curPartition)
      (hblock : ∀ q, pager'.blockAt q = if p = q then ⟨off, i⟩ else ds.dpager.blockAt q)
      (hobjects : s'.objects = s.objects.set o { ds with dpager := pager' })
      (hparts : s'.parts = ((s.parts.setPart i (part.take off)).setPart pindex
        (old.release (ds.dpager.blockAt p).pOffset)).setPart i ((part.take off).setDisk (copied
          (fun k => old.disk (ptoa (ds.dpager.blockAt p).pOffset + k)) (ptoa off) (min wsize (min rsize pageSize))
          part.disk)))
      : Moved pindex (some rsize, some wsize) s s'

theorem Moved.succeeds {s s' : Store β} (h : Moved pindex io s s')
    : ∃ rsize wsize, io = (some rsize, some wsize) := by
  cases h with
  | mk => exact ⟨_, _, rfl⟩

def Store.page (s : Store β) (o p : Nat) : Option (Page β) := s.parts.readBlock (s.blockAt o p)

def Dpager.heldIn (pindex : Nat) (pager : Dpager) : Nat :=
  Nat.count (fun p => decide ((pager.blockAt p).pIndex = pindex) = true) pager.size

def Store.held (pindex : Nat) (s : Store β) : Nat := (s.objects.map fun ds => ds.dpager.heldIn pindex).sum

def Part.available (part : Part β) : Nat := if part.goingAway then 0 else part.free

def Parts.available (ps : Parts β) : Nat := (ps.map (Parts.sizeOf Part.available)).sum

section

variable {ps : Parts β} {i : Nat} {part : Part β} (hi : ps.partAt i = some part)
include hi

theorem available_setPart (part' : Part β)
    : (ps.setPart i part').available + part.available = ps.available + part'.available :=
  sum_map_set (f := Parts.sizeOf Part.available) (Parts.getElem?_of_part hi)

theorem readBlock_copied_of_ne {b : Block} (raddr : Nat → β) (hoff : off < 2 ^ 20) (hsize : size ≤ pageSize)
    (hb : b.pIndex = i → b.pOffset < 2 ^ 20 ∧ b.pOffset ≠ off)
    : (ps.setPart i (part.setDisk (copied raddr (ptoa off) size part.disk))).readBlock b = ps.readBlock b := by
  apply readBlock_setPart hi
  intro heq k
  obtain ⟨hlt, -⟩ := hb heq
  have hk := k.isLt
  change k.val < 4096 at hk
  change size ≤ 4096 at hsize
  rw [ptoa_eq hoff, ptoa_eq hlt]
  show copied raddr (off * 4096) size part.disk (b.pOffset * 4096 + k) = _
  rw [copied, if_neg (by omega)]

theorem readBlock_copied {b : Block} (hb : b = ⟨off, i⟩) (hne : b ≠ noBlock)
    : (ps.setPart i (part.setDisk (copied raddr (ptoa off) size part.disk))).readBlock b =
        some fun k : Fin pageSize => if k < size then raddr k else part.disk (ptoa off + k) := by
  subst hb
  rw [readBlock_of_part hne (part_setPart_self (lt_length_of_part hi))]
  congr 1
  funext k
  show copied raddr (ptoa off) size part.disk (ptoa off + k) = _
  rw [copied]
  by_cases hk : k < size
  . rw [if_pos hk, if_pos (by omega), Nat.add_sub_cancel_left]
  . rw [if_neg hk, if_neg (by omega)]

end

namespace Leaving

variable {pindex : Nat} {io : Move} {s s' : Store β}

theorem pindex_lt (h : Leaving pindex s) : pindex < pIndexInvalid := by
  obtain ⟨part, hpart, -⟩ := h.leaves
  exact h.index pindex part hpart

theorem ne_noBlock_of_from (h : Leaving pindex s) {b : Block} (hb : b.pIndex = pindex) : b ≠ noBlock := by
  rintro rfl
  have hlt := h.pindex_lt
  rw [← hb] at hlt
  exact absurd hlt (by decide)

theorem partAt_moved {ps : Parts β} {i j : Nat} {a b c : Part β} (hi : i < ps.length) (hp : pindex < ps.length)
    (hne : i ≠ pindex) : (((ps.setPart i a).setPart pindex b).setPart i c).partAt j =
        if j = i then some c else if j = pindex then some b else ps.partAt j := by
  by_cases hj : j = i
  . subst hj
    rw [if_pos rfl, part_setPart_self]
    rw [length_setPart, length_setPart]
    exact hi
  . rw [if_neg hj, part_setPart_of_ne (Ne.symm hj)]
    by_cases hj' : j = pindex
    . subst hj'
      rw [if_pos rfl, part_setPart_self]
      rw [length_setPart]
      exact hp
    . rw [if_neg hj', part_setPart_of_ne (Ne.symm hj'), part_setPart_of_ne (Ne.symm hj)]

theorem partAt_released {ps : Parts β} {i : Nat} {part : Part β} (hi : ps.partAt i = some part) (hne : i ≠ pindex)
    (a b : Part β) : ((ps.setPart i a).setPart pindex b).partAt i = some a :=
  (part_setPart_of_ne (Ne.symm hne)).trans (part_setPart_self (lt_length_of_part hi))

theorem blockAt_moved {o p : Nat} {ds : Object} {b : Block} (ho : s.objects[o]? = some ds)
    (hblock : ∀ q, pager'.blockAt q = if p = q then b else ds.dpager.blockAt q)
    (hobjects : s'.objects = s.objects.set o { ds with dpager := pager' }) (o' q : Nat)
    : s'.blockAt o' q = if o = o' ∧ p = q then b else s.blockAt o' q := by
  have heq : s' = s.setObject o s'.parts { ds with dpager := pager' } := by
    rw [setObject, ← hobjects]
  rw [heq]
  exact blockAt_setEntry ho hblock

section

variable (h : Leaving pindex s)
include h

theorem moved_available (hm : Moved pindex io s s') : s'.parts.available + 1 = s.parts.available := by
  obtain @⟨_, _, o, p, i, off, rsize, wsize, ds, pager', old, part, -, -, hold, hi, hne, hstay, hoff, hclear,
    -, -, -, -, -, hparts⟩ := hm
  obtain ⟨old', hold', hleaves, -⟩ := h.leaves
  rw [hold] at hold'
  cases hold'
  have hpos := (h.exact i part hi).free_ne_zero hoff hclear
  have h1 := available_setPart hi (part.take off)
  have hold1 : (s.parts.setPart i (part.take off)).partAt pindex = some old := (part_setPart_of_ne hne).trans hold
  have h2 := available_setPart hold1 (old.release (ds.dpager.blockAt p).pOffset)
  have hi2 := partAt_released hi hne (part.take off) (old.release (ds.dpager.blockAt p).pOffset)
  have h3 := available_setPart hi2 ((part.take off).setDisk (copied
    (fun k => old.disk (ptoa (ds.dpager.blockAt p).pOffset + k)) (ptoa off)
      (min wsize (min rsize pageSize)) part.disk))
  have hpart : part.available = part.free := by
    rw [Part.available, hstay]
    rfl
  have htake : (part.take off).available = part.free - 1 := by
    show (if part.goingAway = true then 0 else part.free - 1) = _
    rw [hstay]
    rfl
  have hold' : old.available = 0 := by
    rw [Part.available, hleaves]
    rfl
  have hrelease : (old.release (ds.dpager.blockAt p).pOffset).available = 0 := by
    show (if old.goingAway = true then 0 else old.free + 1) = 0
    rw [hleaves]
    rfl
  change _ + (part.take off).available = _ + (part.take off).available at h3
  rw [hparts]
  omega

theorem moved_held (hm : Moved pindex io s s') : s'.held pindex + 1 = s.held pindex := by
  obtain @⟨_, _, o, p, i, off, rsize, wsize, ds, pager', old, part, ho, hfrom, -, -, hne, -, -, -,
    -, hsize, -, hblock, hobjects, -⟩ := hm
  have hsum := sum_map_set (f := fun ds : Object => ds.dpager.heldIn pindex) (y := { ds with dpager := pager' }) ho
  have hlt := (h.usable o ds ho).shaped.lt_of_blockAt (h.ne_noBlock_of_from hfrom)
  have hcount : ds.dpager.heldIn pindex = pager'.heldIn pindex + 1 := by
    rw [Dpager.heldIn, Dpager.heldIn, hsize]
    apply count_add_one hlt
    . rw [hblock, if_pos rfl]
      exact decide_eq_false hne
    . exact decide_eq_true hfrom
    . intro q hq
      rw [hblock, if_neg (Ne.symm hq)]
  dsimp only at hsum
  rw [held, held, hobjects]
  omega

theorem owned_from {o p : Nat} {ds : Object} (ho : s.objects[o]? = some ds)
    (hfrom : (ds.dpager.blockAt p).pIndex = pindex) (hold : s.parts.partAt pindex = some old)
    : test old.bitmap (ds.dpager.blockAt p).pOffset = true := by
  have hat := blockAt_eq (p := p) ho
  obtain ⟨part, hpart, hset⟩ := h.linked.owned o p (by rw [hat]; exact h.ne_noBlock_of_from hfrom)
  rw [hat] at hpart hset
  rw [hfrom, hold] at hpart
  cases hpart
  exact hset

theorem moved (hm : Moved pindex io s s') : Leaving pindex s' := by
  obtain @⟨_, _, o, p, i, off, rsize, wsize, ds, pager', old, part, ho, hfrom, hold, hi, hne, -, hoff, hclear,
    hshaped, -, hcur, hblock, hobjects, hparts⟩ := hm
  generalize copied (fun k => old.disk (ptoa (ds.dpager.blockAt p).pOffset + k)) (ptoa off)
    (min wsize (min rsize pageSize)) part.disk = disk at hparts
  have hset := h.owned_from ho hfrom hold
  have hilt := lt_length_of_part hi
  have hplt := lt_length_of_part hold
  have hexact := h.exact i part hi
  have hexactOld := h.exact pindex old hold
  have hat := blockAt_eq (p := p) ho
  have hpart (j : Nat) : s'.parts.partAt j =
      if j = i then some ((part.take off).setDisk disk)
      else if j = pindex then some (old.release (ds.dpager.blockAt p).pOffset) else s.parts.partAt j := by
    rw [hparts]
    exact partAt_moved hilt hplt hne
  have hblocks := blockAt_moved ho hblock hobjects
  refine ⟨?_, ?_, ?_, ?_, ?_, ?_, ?_⟩
  . intro j q hq
    rw [hpart] at hq
    split at hq
    . cases hq
      exact (hexact.take hoff hclear).setDisk disk
    . split at hq
      . cases hq
        exact hexactOld.release hset
      . exact h.exact j q hq
  . intro j q hq
    rw [hpart] at hq
    split at hq
    . next heq => exact heq ▸ h.index i part hi
    . split at hq
      . next heq => exact heq ▸ h.index pindex old hold
      . exact h.index j q hq
  . intro j q hq hj
    rw [hpart] at hq
    split at hq
    . cases hq
      rfl
    . exact h.unlocked j q hq hj
  . obtain ⟨old', hold', hleaves⟩ := h.leaves
    rw [hold] at hold'
    cases hold'
    refine ⟨old.release (ds.dpager.blockAt p).pOffset, ?_, hleaves⟩
    rw [hpart, if_neg (Ne.symm hne), if_pos rfl]
  . have hlen : s'.parts.length = s.parts.length := by
      rw [hparts, length_setPart, length_setPart, length_setPart]
    rw [hobjects]
    apply forall_set fun o' ds' ho' => (h.usable o' ds' ho').of_length hlen
    exact Dpager.Usable.of_length ⟨hshaped, hcur ▸ (h.usable o ds ho).valid⟩ hlen
  . have hlinked1 := h.linked.take hexact hi hoff hclear hblocks
    have hold1 : (s.parts.setPart i (part.take off)).partAt pindex = some old := (part_setPart_of_ne hne).trans hold
    have hlinked2 := hlinked1.releaseFree hexactOld hold1 hset (by
      intro o' q hb heq
      rw [hblocks] at hb heq
      split at hb
      . next hpage =>
        rw [if_pos hpage] at heq
        injection heq with _ heq
        exact hne heq
      . next hpage =>
        rw [if_neg hpage] at heq
        apply hpage
        apply h.linked.distinct o p o' q
        . rw [hat]
          exact h.ne_noBlock_of_from hfrom
        . rw [hat, heq, ← hfrom])
    rw [hparts]
    exact hlinked2.setDisk (partAt_released hi hne _ _) disk
  . -- a block that another page has is still there
    have hkeep (j off' : Nat) (hother : (⟨off', j⟩ : Block) ≠ s.blockAt o p)
        (hb : ∃ o' q', s.blockAt o' q' = ⟨off', j⟩) : ∃ o' q', s'.blockAt o' q' = ⟨off', j⟩ := by
      obtain ⟨o', q', hb⟩ := hb
      refine ⟨o', q', ?_⟩
      rw [hblocks, if_neg]
      . exact hb
      . rintro ⟨rfl, rfl⟩
        exact hother hb.symm
    intro j q off' hq htest
    rw [hpart] at hq
    split at hq
    . next heq =>
      subst heq
      cases hq
      change test (set part.bitmap off) off' = true at htest
      rw [test_set (hexact.lt_bits hoff)] at htest
      by_cases hoff' : off = off'
      . refine ⟨o, p, ?_⟩
        rw [hblocks, if_pos ⟨rfl, rfl⟩, hoff']
      . rw [decide_eq_false hoff', Bool.false_or] at htest
        apply hkeep j off' _ (h.complete j part off' hi htest)
        rw [hat]
        intro heq
        rw [← heq] at hfrom
        exact hne hfrom
    . split at hq
      . next heq =>
        subst heq
        cases hq
        change test (clear old.bitmap (ds.dpager.blockAt p).pOffset) off' = true at htest
        rw [test_clear (hexactOld.lt_bits (hexactOld.lt_of_test hset)), Bool.and_eq_true] at htest
        apply hkeep j off' _ (h.complete j old off' hold htest.2)
        rw [hat]
        intro heq
        have hne' := htest.1
        rw [← heq, decide_eq_true rfl] at hne'
        contradiction
      . next hj =>
        apply hkeep j off' _ (h.complete j q off' hq htest)
        rw [hat]
        intro heq
        rw [← heq] at hfrom
        exact hj hfrom

theorem moved_page {rsize wsize : Nat} (hm : Moved pindex (some rsize, some wsize) s s')
    : ∃ o p i off part x, (s.blockAt o p).pIndex = pindex ∧ s.page o p = some x ∧
        s.parts.partAt i = some part ∧ i ≠ pindex ∧ off < part.totalSize ∧
        test part.bitmap off = false ∧ s'.blockAt o p = ⟨off, i⟩ ∧ s'.page o p = some (fun k : Fin pageSize =>
          if k < min wsize (min rsize pageSize) then x k else part.disk (ptoa off + k)) ∧
        ∀ o' p', ¬ (o = o' ∧ p = p') → s'.blockAt o' p' = s.blockAt o' p' ∧ s'.page o' p' = s.page o' p' := by
  obtain @⟨_, _, o, p, i, off, rsize, wsize, ds, pager', old, part, ho, hfrom, hold, hi, hne, -, hoff, hclear,
    -, -, -, hblock, hobjects, hparts⟩ := hm
  have hat := blockAt_eq (p := p) ho
  have hblocks := blockAt_moved ho hblock hobjects
  have hexact := h.exact i part hi
  have hindex := h.index i part hi
  have hnew : (⟨off, i⟩ : Block) ≠ noBlock := by
    intro heq
    injection heq with _ heq
    subst heq
    exact absurd hindex (by decide)
  have hold1 : (s.parts.setPart i (part.take off)).partAt pindex = some old := (part_setPart_of_ne hne).trans hold
  have hi2 := partAt_released hi hne (part.take off) (old.release (ds.dpager.blockAt p).pOffset)
  refine ⟨o, p, i, off, part, fun k => old.disk (ptoa (ds.dpager.blockAt p).pOffset + k), ?_, ?_, hi, hne, hoff,
    hclear, ?_, ?_, ?_⟩
  . rw [hat]
    exact hfrom
  . rw [page, hat]
    exact readBlock_of_part (h.ne_noBlock_of_from hfrom) (hfrom ▸ hold)
  . rw [hblocks, if_pos ⟨rfl, rfl⟩]
  . rw [page, hblocks, if_pos ⟨rfl, rfl⟩, hparts]
    exact readBlock_copied hi2 rfl hnew
  . intro o' p' hother
    have hsame : s'.blockAt o' p' = s.blockAt o' p' := by rw [hblocks, if_neg hother]
    refine ⟨hsame, ?_⟩
    rw [page, page, hsame, hparts]
    by_cases hb : s.blockAt o' p' = noBlock
    . rw [hb, readBlock_noBlock, readBlock_noBlock]
    . obtain ⟨q, hq, hset⟩ := h.linked.owned o' p' hb
      have hlt := (h.linked.owned o' p' hb).lt h.exact
      have hcopied := readBlock_copied_of_ne (b := s.blockAt o' p') hi2
        (fun k => old.disk (ptoa (ds.dpager.blockAt p).pOffset + k))
        (Nat.lt_trans hoff hexact.bound)
        (Nat.le_trans (Nat.min_le_right wsize (min rsize pageSize)) (Nat.min_le_right _ _)) (by
          intro heq
          refine ⟨hlt, ?_⟩
          rintro rfl
          rw [heq, hi] at hq
          cases hq
          rw [hclear] at hset
          contradiction)
      have hrelease : ((s.parts.setPart i (part.take off)).setPart pindex
          (old.release (ds.dpager.blockAt p).pOffset)).readBlock (s.blockAt o' p') =
            (s.parts.setPart i (part.take off)).readBlock (s.blockAt o' p') :=
        readBlock_setPart hold1 fun _ _ => rfl
      apply hcopied.trans
      apply hrelease.trans
      exact readBlock_setPart hi fun _ _ => rfl

end

def lastByte : Fin pageSize := ⟨4095, by decide⟩

def Blank (pindex : Nat) (b : β) (s : Store β) : Prop :=
  ∀ i part off, s.parts.partAt i = some part → i ≠ pindex → off < 2 ^ 20 →
    Bitmap.test part.bitmap off = false → part.disk (ptoa off + lastByte) = b

theorem moved_blank {b : β} (h : Leaving pindex s) (hm : Moved pindex io s s') (hblank : Blank pindex b s)
    : Blank pindex b s' := by
  obtain @⟨_, _, o, p, i, off, rsize, wsize, ds, pager', old, part, -, -, hold, hi, hne, -, hoff, -,
    -, -, -, -, -, hparts⟩ := hm
  intro j q off' hq hj hlt htest
  have hexact := h.exact i part hi
  rw [hparts, partAt_moved (lt_length_of_part hi) (lt_length_of_part hold) hne] at hq
  split at hq
  . next heq =>
    subst heq
    cases hq
    change test (set part.bitmap off) off' = false at htest
    rw [test_set (hexact.lt_bits hoff), Bool.or_eq_false_iff] at htest
    obtain ⟨hoff', hclear'⟩ := htest
    have hne' := of_decide_eq_false hoff'
    have hold' := hblank j part off' hi hj hlt hclear'
    have hbound := hexact.bound
    have hle := Nat.le_trans (Nat.min_le_right wsize (min rsize pageSize)) (Nat.min_le_right _ _)
    change _ ≤ 4096 at hle
    have hbyte : (lastByte : Nat) = 4095 := rfl
    have hptoa : ptoa off = off * 4096 := ptoa_eq (by omega)
    rw [← hold', ptoa_eq hlt]
    dsimp only [Part.setDisk]
    rw [copied, if_neg (by omega)]
  . exact hblank j q off' hq hj hlt htest

end Leaving

end DefaultPager
