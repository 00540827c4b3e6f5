import UtahMach.DefaultPager.Refine

/-!
This module contains what the default pager does with each message in terms of the abstract store.
-/

namespace DefaultPager

open Function Parts

open Vm (pageSize)
open Lists

variable {β : Type}

namespace Store

variable {s : Store β} {a : Spec β} {capacity o p offset : Nat} {ds ds' : Object} {ao ao' : SpecObject β}
  {ps ps' : Parts β} {page : Page β} {io : Transfers}

theorem getElem?_set_self_of (hao : a[o]? = some ao) (ao' : SpecObject β) : (a.set o ao')[o]? = some ao' := by
  obtain ⟨hlt, -⟩ := List.getElem?_eq_some_iff.1 hao
  exact List.getElem?_set_self hlt

namespace Refines

section

variable (h : s.Refines a capacity)
include h

section

variable (ho : s.objects[o]? = some ds) (hao : a[o]? = some ao)
include ho hao

theorem same : (s.setObject o s.parts ds).Refines (a.set o ao) capacity := by
  obtain ⟨-, rfl⟩ := List.getElem?_eq_some_iff.1 hao
  rw [setObject_self ho, List.set_getElem_self]
  exact h

theorem pagerReadOffset (hlt : atop offset < ao.size)
    : DefaultPager.pagerReadOffset ds.dpager offset = .ok (ds.dpager.blockAt (atop offset)) := by
  rw [← h.size o ds ao ho hao] at hlt
  rw [DefaultPager.pagerReadOffset, if_neg (Nat.not_le.2 hlt)]
  exact (h.usable o ds ho).1.shaped.entry hlt

theorem writeOne (hio : none ∉ io) (hroom : Spec.present (a.set o (ao.write (atop offset) page)) ≤ capacity)
    : ∃ ps' ds', DefaultPager.writeOne s.parts ds page offset io = .ok (ps', ds') ∧
        (s.setObject o ps' ds').Refines (a.set o (ao.write (atop offset) page)) capacity := by
  obtain ⟨husable, -, hunfit⟩ := h.usable o ds ho
  obtain ⟨ps1, pager1, hrun, hfull, hnone⟩ | ⟨ps1, pager1, block, hrun, hblock, hwrote, hgood, hlen, husable1,
    hcur1, hsize1⟩ := husable.pagerWriteOffset h.good offset
  . -- there is a free block if the page has none
    exfalso
    have hnone' : ds.dpager.blockAt (atop offset) = noBlock := hnone.elim id fun hinvalid => hunfit hinvalid _
    have hfree : (ao.pages (atop offset)).isSome = false := by
      rw [Bool.eq_false_iff]
      exact fun hsome => (h.isSome_iff ho hao).1 hsome hnone'
    have hcount := SpecObject.count_write (h.size_pos ho hao) (h.outside ho hao) (atop offset) page
    rw [hfree] at hcount
    change _ = ao.count + 1 at hcount
    have hpresent := present_set hao (ao.write (atop offset) page)
    have hzero := totalFree_eq_zero_of_full hfull h.stay
    have hspace := h.space
    omega
  . obtain ⟨x, hat, h1⟩ := h.wrote ho hao hblock hwrote hgood hlen husable1 hcur1 hsize1
    have ho1 := objects_setObject_self ho ps1 ⟨pager1, ds.errors⟩
    have hao1 := getElem?_set_self_of hao (ao.write (atop offset) x)
    obtain ⟨part, hpart, -⟩ := h1.linked.owned o (atop offset) (by
      rw [blockAt_eq ho1]
      exact hat ▸ hblock)
    rw [blockAt_eq ho1] at hpart
    have h2 := h1.writeDisk page ho1 hao1 (show pager1.blockAt (atop offset) ≠ noBlock from hat ▸ hblock) hpart
    have hwrite : (⟨(ao.write (atop offset) x).size,
        update (ao.write (atop offset) x).pages (atop offset) (some page)⟩ : SpecObject β) =
        ao.write (atop offset) page := by
      rw [SpecObject.write, update_idem]
      rfl
    rw [hat] at hpart h2
    rw [setObject_setObject, List.set_set, hwrite] at h2
    refine ⟨_, ⟨pager1, ds.errors⟩, ?_, h2⟩
    rw [DefaultPager.writeOne, defaultWrite_eq hrun hblock hpart hio]
    rfl

theorem initializeOne (hio : none ∉ io) (hroom : Spec.present (a.set o (ao.writeNew (atop offset) page)) ≤ capacity)
    (hlt : atop offset < ao.size) : ∃ ps' ds', DefaultPager.initializeOne s.parts ds page offset io = .ok (ps', ds') ∧
        (s.setObject o ps' ds').Refines (a.set o (ao.writeNew (atop offset) page)) capacity := by
  have hiff := h.isSome_iff (p := atop offset) ho hao
  rw [DefaultPager.initializeOne, defaultHasPage, h.pagerReadOffset ho hao hlt]
  cases hpage : ao.pages (atop offset) with
  | some x =>
    rw [hpage] at hiff
    have hnew : ao.writeNew (atop offset) page = ao := by
      rw [SpecObject.writeNew, hpage]
    refine ⟨s.parts, ds, ?_, ?_⟩
    . show (if decide (ds.dpager.blockAt (atop offset) ≠ noBlock) = true then _ else _) = _
      rw [decide_eq_true (hiff.1 rfl)]
      rfl
    . rw [hnew]
      exact h.same ho hao
  | none =>
    rw [hpage] at hiff
    have hnew : ao.writeNew (atop offset) page = ao.write (atop offset) page := by
      rw [SpecObject.writeNew, hpage]
    have hnone : ¬ ds.dpager.blockAt (atop offset) ≠ noBlock := fun hne => Bool.false_ne_true (hiff.2 hne)
    rw [hnew] at hroom ⊢
    show ∃ ps' ds', (if decide (ds.dpager.blockAt (atop offset) ≠ noBlock) = true then _ else _) = _ ∧ _
    rw [decide_eq_false hnone, if_neg Bool.false_ne_true]
    exact h.writeOne ho hao hio hroom

theorem initializeOne_panic (hle : ao.size ≤ atop offset)
    : DefaultPager.initializeOne s.parts ds page offset io = .error (.panic "%spager_read_offset") := by
  rw [← h.size o ds ao ho hao] at hle
  rw [DefaultPager.initializeOne, defaultHasPage, DefaultPager.pagerReadOffset, if_pos hle]
  rfl

theorem release {part : Part β} (hb : ds.dpager.blockAt p ≠ noBlock)
    (hi : s.parts.partAt (ds.dpager.blockAt p).pIndex = some part)
    (hset : Bitmap.test part.bitmap (ds.dpager.blockAt p).pOffset = true) (hshaped : pager'.Shaped)
    (hsize : pager'.size = ds.dpager.size) (hcur : pager'.curPartition = ds.dpager.curPartition)
    (hblock : ∀ q, pager'.blockAt q = if p = q then noBlock else ds.dpager.blockAt q)
    : (s.setObject o (s.parts.setPart (ds.dpager.blockAt p).pIndex (part.release (ds.dpager.blockAt p).pOffset))
          ⟨pager', ds.errors⟩).Refines (a.set o (ao.release p)) capacity := by
  obtain ⟨husable, herrors, hunfit⟩ := h.usable o ds ho
  have hat := blockAt_eq (p := p) ho
  have hread (b : Block) : (s.parts.setPart (ds.dpager.blockAt p).pIndex
      (part.release (ds.dpager.blockAt p).pOffset)).readBlock b = s.parts.readBlock b :=
    readBlock_setPart hi fun _ _ => rfl
  have hlt : p < ao.size := by
    rw [← h.size o ds ao ho hao]
    exact husable.shaped.lt_of_blockAt hb
  apply h.setObject ho hao (h.good.release hi hset) _ length_setPart
  . refine ⟨⟨hshaped, ?_⟩, herrors, ?_⟩
    . rw [Parts.Valid, length_setPart, hcur]
      exact husable.valid
    . intro hinvalid q
      rw [hcur] at hinvalid
      rw [hblock]
      split
      . rfl
      . exact hunfit hinvalid q
  . exact hsize.trans (h.size o ds ao ho hao)
  . have hlinked : Linked
        (s.parts.setPart (s.blockAt o p).pIndex (part.release (s.blockAt o p).pOffset))
        fun o' p' => if o = o' ∧ p = p' then noBlock else s.blockAt o' p' :=
      h.linked.release h.good (hat.symm ▸ hi) (hat.symm ▸ hb) fun _ _ => rfl
    rw [hat] at hlinked
    have hblocks : (s.setObject o (s.parts.setPart (ds.dpager.blockAt p).pIndex
        (part.release (ds.dpager.blockAt p).pOffset)) ⟨pager', ds.errors⟩).blockAt =
        fun o' p' => if o = o' ∧ p = p' then noBlock else s.blockAt o' p' := by
      funext o' q
      exact blockAt_setEntry ho hblock
    rw [hblocks]
    exact hlinked
  . intro q
    show update ao.pages p none q = _
    rw [hread]
    show _ = s.parts.readBlock (pager'.blockAt q)
    rw [hblock]
    by_cases hq : q = p
    . subst hq
      rw [update_self, if_pos rfl, readBlock_noBlock]
    . rw [update_of_ne hq, if_neg (Ne.symm hq)]
      exact h.pages ho hao q
  . intro o' q _
    exact hread _
  . have hcount := SpecObject.count_release hlt ((h.isSome_iff ho hao).2 hb)
    have htotal := totalFree_setPart hi (part.release (ds.dpager.blockAt p).pOffset)
    change _ + part.free = _ + (part.free + 1) at htotal
    omega
  . exact forall_setPart h.stay (h.stay _ part hi)

end

end

theorem dataRequest (write : Bool) (buffer : Page β) (h : s.Refines a capacity) (ho : s.objects[o]? = some ds)
    (hao : a[o]? = some ao) (hio : none ∉ io) (hlt : atop offset < ao.size)
    : ∃ ps' ds' reply, DefaultPager.dataRequest s.parts ds offset write buffer io = .ok (ps', ds', reply) ∧
        reply.contents = some (ao.pages (atop offset)) ∧
        (s.setObject o ps' ds').Refines (if write then a.set o (ao.release (atop offset)) else a) capacity := by
  obtain ⟨husable, herrors, -⟩ := h.usable o ds ho
  have hpage := h.pages ho hao (atop offset)
  have hread := h.pagerReadOffset ho hao hlt
  generalize hb : ds.dpager.blockAt (atop offset) = block at hread hpage
  rw [DefaultPager.dataRequest, if_neg (not_not.2 herrors)]
  by_cases hblock : block = noBlock
  . subst hblock
    refine ⟨s.parts, ds, .unavailable, ?_, ?_, ?_⟩
    . rw [defaultRead_absent hread]
      rfl
    . rw [hpage]
      rfl
    . rw [SpecObject.release_eq hpage]
      cases write with
      | false =>
        rw [setObject_self ho]
        exact h
      | true => exact h.same ho hao
  . obtain ⟨part, hpart, hset⟩ := h.linked.owned o (atop offset) (by rw [blockAt_eq ho, hb]; exact hblock)
    rw [blockAt_eq ho, hb] at hpart hset
    rw [readBlock_of_part hblock hpart] at hpage
    rw [defaultRead_eq hread hblock hpart hio]
    -- the reply is one of two, both with the page that was read
    cases write with
    | false =>
      have hsame : (s.setObject o s.parts ds).Refines a capacity := by
        rw [setObject_self ho]
        exact h
      cases wholeAtOnce io
      all_goals exact ⟨s.parts, ds, _, rfl, by rw [hpage]; rfl, hsame⟩
    | true =>
      subst hb
      obtain ⟨pager', hrelease, hshaped, hsize, hcur, hblocks⟩ := husable.pagerReleaseOffset h.good hblock hpart hset
      have hreleased := h.release ho hao hblock hpart hset hshaped hsize hcur hblocks
      rw [if_pos rfl, hrelease]
      cases wholeAtOnce io
      all_goals exact ⟨_, ⟨pager', ds.errors⟩, _, rfl, by rw [hpage]; rfl, hreleased⟩

theorem dataRequest_panic {write : Bool} (h : s.Refines a capacity)
    (ho : s.objects[o]? = some ds) (hao : a[o]? = some ao) (hle : ao.size ≤ atop offset)
    : DefaultPager.dataRequest s.parts ds offset write buffer io = .error (.panic "%spager_read_offset") := by
  obtain ⟨-, herrors, -⟩ := h.usable o ds ho
  rw [← h.size o ds ao ho hao] at hle
  rw [DefaultPager.dataRequest, if_neg (not_not.2 herrors), defaultRead, DefaultPager.pagerReadOffset, if_pos hle]
  rfl

theorem create (h : s.Refines a capacity) (newSize : Nat)
    : ∃ ps' ds, pagerPortAlloc s.parts newSize = .ok (ps', ds) ∧ (⟨ps', s.objects ++ [ds]⟩ : Store β).Refines
          (a ++ [⟨(pagerAlloc pIndexInvalid newSize).size, fun _ => none⟩]) capacity := by
  obtain ⟨part, halloc, hvalid⟩ : ∃ part,
      pagerPortAlloc s.parts newSize = .ok (s.parts, ⟨pagerAlloc part newSize, 0⟩) ∧ s.parts.Valid part := by
    obtain ⟨part, heq, hvalid, -⟩ := h.good.chooseAny newSize
    obtain ⟨part', heq', hvalid', -⟩ := h.good.chooseAny 0
    rw [pagerPortAlloc, heq]
    show ∃ part', (if part = pIndexInvalid then (choosePartition s.parts 0 pIndexInvalid >>= _) else _) = _ ∧ _
    by_cases hpart : part = pIndexInvalid
    . rw [if_pos hpart, heq']
      exact ⟨part', rfl, hvalid'⟩
    . rw [if_neg hpart]
      exact ⟨part, rfl, hvalid⟩
  obtain ⟨hshaped, hnone⟩ := pagerAlloc_shaped part newSize
  have hblock (o p : Nat) : Store.blockAt ⟨s.parts, s.objects ++ [⟨pagerAlloc part newSize, 0⟩]⟩ o p =
      s.blockAt o p := by
    rw [blockAt, blockAt]
    by_cases hlt : o < s.objects.length
    . rw [List.getElem?_append_left hlt]
    . rw [List.getElem?_append_right (Nat.le_of_not_lt hlt), List.getElem?_eq_none (Nat.le_of_not_lt hlt)]
      cases o - s.objects.length with
      | zero => exact hnone p
      | succ k => rfl
  have hcount : SpecObject.count (⟨(pagerAlloc pIndexInvalid newSize).size, fun _ => none⟩ : SpecObject β) = 0 := by
    rw [SpecObject.count, Nat.count_iff_forall_not]
    intro p _
    exact Bool.false_ne_true
  refine ⟨s.parts, ⟨pagerAlloc part newSize, 0⟩, halloc, h.good, h.stay, ⟨?_, ?_⟩, ?_, ?_, ?_, ?_⟩
  . show (s.objects ++ [_]).length = (a ++ [_]).length
    rw [List.length_append, List.length_append, h.shows.1]
    rfl
  . intro o ao hao p
    rw [hblock]
    obtain hao | ⟨rfl, rfl⟩ := getElem?_append_singleton hao
    . exact h.shows.2 o ao hao p
    . rw [blockAt, ← h.shows.1, List.getElem?_eq_none (Nat.le_refl _)]
      exact (readBlock_noBlock s.parts).symm
  . intro o ds ho
    obtain ho | ⟨rfl, rfl⟩ := getElem?_append_singleton ho
    . exact h.usable o ds ho
    . exact ⟨⟨hshaped, hvalid⟩, rfl, fun _ => hnone⟩
  . intro o ds ao ho hao
    obtain ho | ⟨rfl, rfl⟩ := getElem?_append_singleton ho
    . obtain hao | ⟨rfl, rfl⟩ := getElem?_append_singleton hao
      . exact h.size o ds ao ho hao
      . rw [← h.shows.1, List.getElem?_eq_none (Nat.le_refl _)] at ho
        cases ho
    . obtain hao | ⟨-, rfl⟩ := getElem?_append_singleton hao
      . rw [h.shows.1, List.getElem?_eq_none (Nat.le_refl _)] at hao
        cases hao
      . rfl
  . have heq : Store.blockAt ⟨s.parts, s.objects ++ [⟨pagerAlloc part newSize, 0⟩]⟩ = s.blockAt := by
      funext o p
      exact hblock o p
    rw [heq]
    exact h.linked
  . have hspace := h.space
    show s.parts.totalFree + Spec.present (a ++ [_]) = capacity
    rw [Spec.present, List.map_append, List.sum_append, List.map_singleton, List.sum_singleton, hcount]
    exact hspace

end Refines

end Store

structure SpecObject.Solid (o : SpecObject β) : Prop where
  pos : 0 < o.size
  outside : ∀ q, o.size ≤ q → o.pages q = none

namespace SpecObject

variable {o : SpecObject β} {p : Nat} {page : Page β}

theorem Solid.write (h : o.Solid) : (o.write p page).Solid ∧ o.count ≤ (o.write p page).count := by
  have hsize := le_size_write o p page
  have hlt := lt_size_write h.pos p page
  refine ⟨⟨by omega, ?_⟩, ?_⟩
  . intro q hq
    show update o.pages p (some page) q = none
    rw [update_of_ne (by omega)]
    exact h.outside q (by omega)
  . rw [count_write h.pos h.outside]
    omega

theorem Solid.writeNew (h : o.Solid) : (o.writeNew p page).Solid ∧ o.count ≤ (o.writeNew p page).count := by
  rw [SpecObject.writeNew]
  split
  . exact ⟨h, Nat.le_refl _⟩
  . exact h.write

theorem size_writeNew (hlt : p < o.size) : (o.writeNew p page).size = o.size := by
  rw [writeNew]
  split
  . rfl
  . exact if_neg (Nat.not_le.2 hlt)

def OkAll (one : SpecObject β → Nat → Page β → SpecObject β) (ok : SpecObject β → Nat → Prop)
    : SpecObject β → Nat → Pages β → Prop
  | _, _, [] => True
  | o, offset, (page, _) :: rest =>
    ok o (atop (offset % 2 ^ 32)) ∧
      OkAll one ok (one o (atop (offset % 2 ^ 32)) page) (offset + pageSize) rest

theorem okAll_writeNew_iff (o : SpecObject β) (offset : Nat) (pages : Pages β)
    : OkAll writeNew (fun o p => p < o.size) o offset pages ↔
        ∀ i < pages.length, atop ((offset + i * pageSize) % 2 ^ 32) < o.size := by
  induction pages generalizing o offset with
  | nil => exact iff_of_true trivial nofun
  | cons x rest ih =>
    constructor
    . rintro ⟨hlt, hrest⟩ i hi
      rw [ih, size_writeNew hlt] at hrest
      cases i with
      | zero =>
        exact hlt
      | succ i =>
        have := hrest i (by rw [List.length_cons] at hi; omega)
        rwa [Nat.succ_mul, Nat.add_comm (i * pageSize), ← Nat.add_assoc]
    . intro hall
      have hlt := hall 0 (Nat.succ_pos _)
      rw [Nat.zero_mul, Nat.add_zero] at hlt
      refine ⟨hlt, ?_⟩
      rw [ih, size_writeNew hlt]
      intro i hi
      have := hall (i + 1) (by rw [List.length_cons]; omega)
      rwa [Nat.succ_mul, Nat.add_comm (i * pageSize), ← Nat.add_assoc] at this

end SpecObject

section EachPage

variable {s : Store β} {a : Spec β} {capacity o : Nat} {ds : Object} {ao : SpecObject β}
  {one : Parts β → Object → Page β → Nat → Transfers → Except Halt (Parts β × Object)}
  {specOne : SpecObject β → Nat → Page β → SpecObject β} {ok : SpecObject β → Nat → Prop}

structure PageHandler (capacity o : Nat)
    (one : Parts β → Object → Page β → Nat → Transfers → Except Halt (Parts β × Object))
    (specOne : SpecObject β → Nat → Page β → SpecObject β) (ok : SpecObject β → Nat → Prop) : Prop where
  grows : ∀ ao p page, ao.Solid → (specOne ao p page).Solid ∧ ao.count ≤ (specOne ao p page).count
  refines : ∀ (s : Store β) (a : Spec β) (ds : Object) (ao : SpecObject β) (page : Page β) (offset : Nat)
    (io : Transfers), s.Refines a capacity → s.objects[o]? = some ds → a[o]? = some ao → none ∉ io →
    Spec.present (a.set o (specOne ao (atop offset) page)) ≤ capacity → ok ao (atop offset) →
    ∃ ps' ds', one s.parts ds page offset io = .ok (ps', ds') ∧
      (s.setObject o ps' ds').Refines (a.set o (specOne ao (atop offset) page)) capacity
  stops : ∀ (s : Store β) (a : Spec β) (ds : Object) (ao : SpecObject β) (page : Page β) (offset : Nat)
    (io : Transfers), s.Refines a capacity → s.objects[o]? = some ds → a[o]? = some ao →
    ¬ ok ao (atop offset) → ∃ e, one s.parts ds page offset io = .error e

theorem Store.Refines.solid (h : s.Refines a capacity) (ho : s.objects[o]? = some ds) (hao : a[o]? = some ao)
    : ao.Solid := ⟨h.size_pos ho hao, h.outside ho hao⟩

namespace PageHandler

section

variable (hone : PageHandler capacity o one specOne ok)
include hone

theorem count_le_eachPage (hsolid : ao.Solid) (offset : Nat)
    (pages : Pages β) : ao.count ≤ (ao.eachPage specOne offset pages).count := by
  induction pages generalizing ao offset with
  | nil => exact Nat.le_refl _
  | cons x rest ih =>
    obtain ⟨hsolid', hle⟩ := hone.grows ao (atop (offset % 2 ^ 32)) x.1 hsolid
    exact Nat.le_trans hle (ih hsolid' (offset + pageSize))

theorem room (hao : a[o]? = some ao) (hsolid : ao.Solid) {page : Page β} {rest : Pages β}
    (hroom : Spec.present (a.set o (ao.eachPage specOne offset ((page, io) :: rest))) ≤ capacity)
    : Spec.present (a.set o (specOne ao (atop (offset % 2 ^ 32)) page)) ≤ capacity := by
  have hle := hone.count_le_eachPage (hone.grows ao (atop (offset % 2 ^ 32)) page hsolid).1 (offset + pageSize) rest
  have h1 := Store.present_set hao (specOne ao (atop (offset % 2 ^ 32)) page)
  have h2 := Store.present_set hao (ao.eachPage specOne offset ((page, io) :: rest))
  rw [SpecObject.eachPage] at h2 hroom
  omega

section

variable {pages : Pages β} (h : s.Refines a capacity) (ho : s.objects[o]? = some ds) (hao : a[o]? = some ao)
  (offset : Nat) (hio : ∀ page io, (page, io) ∈ pages → none ∉ io)
  (hroom : Spec.present (a.set o (ao.eachPage specOne offset pages)) ≤ capacity)
include h ho hao offset hio hroom

theorem eachPage (hok : ao.OkAll specOne ok offset pages)
    : ∃ ps' ds', DefaultPager.eachPage one s.parts ds offset pages = .ok (ps', ds') ∧
        (s.setObject o ps' ds').Refines (a.set o (ao.eachPage specOne offset pages)) capacity := by
  induction pages generalizing s a ds ao offset with
  | nil => exact ⟨s.parts, ds, rfl, h.same ho hao⟩
  | cons x rest ih =>
    obtain ⟨page, io⟩ := x
    obtain ⟨hok0, hokRest⟩ := hok
    have hroom0 := hone.room hao (h.solid ho hao) hroom
    obtain ⟨ps1, ds1, heq, h1⟩ := hone.refines s a ds ao page (offset % 2 ^ 32) io h ho hao
      (hio page io List.mem_cons_self) hroom0 hok0
    obtain ⟨ps', ds', heq', h'⟩ := ih h1 (Store.objects_setObject_self ho _ _) (Store.getElem?_set_self_of hao _)
      (offset + pageSize) (fun page io hmem => hio page io (List.mem_cons_of_mem _ hmem))
      (by rw [List.set_set]; exact hroom) hokRest
    rw [Store.setObject_setObject, List.set_set] at h'
    refine ⟨ps', ds', ?_, h'⟩
    rw [DefaultPager.eachPage, heq]
    exact heq'

theorem eachPage_stops (hok : ¬ ao.OkAll specOne ok offset pages)
    : ∃ e, DefaultPager.eachPage one s.parts ds offset pages = .error e := by
  induction pages generalizing s a ds ao offset with
  | nil => exact absurd trivial hok
  | cons x rest ih =>
    obtain ⟨page, io⟩ := x
    rw [DefaultPager.eachPage]
    by_cases hok0 : ok ao (atop (offset % 2 ^ 32))
    . have hokRest := fun hrest => hok ⟨hok0, hrest⟩
      have hroom0 := hone.room hao (h.solid ho hao) hroom
      obtain ⟨ps1, ds1, heq, h1⟩ := hone.refines s a ds ao page (offset % 2 ^ 32) io h ho hao
        (hio page io List.mem_cons_self) hroom0 hok0
      obtain ⟨e, he⟩ := ih h1 (Store.objects_setObject_self ho _ _) (Store.getElem?_set_self_of hao _)
        (offset + pageSize) (fun page io hmem => hio page io (List.mem_cons_of_mem _ hmem))
        (by rw [List.set_set]; exact hroom) hokRest
      refine ⟨e, ?_⟩
      rw [heq]
      exact he
    . obtain ⟨e, he⟩ := hone.stops s a ds ao page (offset % 2 ^ 32) io h ho hao hok0
      refine ⟨e, ?_⟩
      rw [he]
      rfl

end

end

end PageHandler

theorem pageHandler_write (capacity o : Nat)
    : PageHandler (β := β) capacity o writeOne SpecObject.write fun _ _ => True where
  grows _ _ _ hsolid := hsolid.write
  refines _ _ _ _ _ _ _ h ho hao hio hroom _ := h.writeOne ho hao hio hroom
  stops _ _ _ _ _ _ _ _ _ _ hok := absurd trivial hok

theorem pageHandler_new (capacity o : Nat)
    : PageHandler (β := β) capacity o initializeOne SpecObject.writeNew fun ao p => p < ao.size where
  grows _ _ _ hsolid := hsolid.writeNew
  refines _ _ _ _ _ _ _ h ho hao hio hroom hlt := h.initializeOne ho hao hio hroom hlt
  stops _ _ _ _ _ _ _ h ho hao hok := ⟨_, h.initializeOne_panic ho hao (Nat.le_of_not_lt hok)⟩

theorem okAll_write (ao : SpecObject β) (offset : Nat) (pages : Pages β)
    : ao.OkAll SpecObject.write (fun _ _ => True) offset pages := by
  induction pages generalizing ao offset with
  | nil => trivial
  | cons x rest ih => exact ⟨trivial, ih _ _⟩

end EachPage

namespace Store

variable {s : Store β} {a : Spec β} {capacity : Nat} {m : Message β} {ms : List (Message β)}

theorem lookup_eq {here : String} {o : Nat} {ds : Object} (ho : s.objects[o]? = some ds)
    : s.lookup here o = .ok ds := by
  rw [lookup, ho]

theorem update_eq {f : SpecObject β → SpecObject β} {o : Nat} (hao : a[o]? = some ao)
    : Spec.update a o f = a.set o (f ao) := by
  rw [Spec.update, hao]

section

variable (h : s.Refines a capacity) (hknown : m.Known a) (hio : m.Succeeds)
  (hroom : Spec.present (a.step m).1 ≤ capacity)
include h hknown hio hroom

theorem Refines.step (hbounds : Spec.InBoundsOf a m)
    : ∃ s' reply, s.step m = .ok (s', reply) ∧ s'.Refines (a.step m).1 capacity ∧
        reply.map Reply.contents = (a.step m).2.map some := by
  cases m with
  | create newSize =>
    obtain ⟨ps', ds, heq, h'⟩ := h.create newSize
    refine ⟨_, none, ?_, h', rfl⟩
    rw [Store.step, heq]
    rfl
  | dataWrite o offset pages =>
    obtain ⟨ao, ds, hao, ho⟩ := h.known hknown
    rw [Spec.step] at hroom ⊢
    rw [update_eq hao] at hroom ⊢
    obtain ⟨ps', ds', heq, h'⟩ := (pageHandler_write capacity o).eachPage h ho hao offset hio hroom (okAll_write _ _ _)
    refine ⟨_, none, ?_, h', rfl⟩
    rw [Store.step, lookup_eq ho]
    show (eachPage DefaultPager.writeOne s.parts ds offset pages >>= _) = _
    rw [heq]
    rfl
  | dataInitialize o offset pages =>
    obtain ⟨ao, ds, hao, ho⟩ := h.known hknown
    rw [Spec.step] at hroom ⊢
    rw [update_eq hao] at hroom ⊢
    obtain ⟨ps', ds', heq, h'⟩ := (pageHandler_new capacity o).eachPage h ho hao offset hio hroom
      ((SpecObject.okAll_writeNew_iff _ _ _).2 (hbounds _ hao))
    refine ⟨_, none, ?_, h', rfl⟩
    rw [Store.step, lookup_eq ho]
    show (eachPage DefaultPager.initializeOne s.parts ds offset pages >>= _) = _
    rw [heq]
    rfl
  | dataRequest o offset write buffer io =>
    obtain ⟨ao, ds, hao, ho⟩ := h.known hknown
    rw [Spec.step]
    rw [update_eq hao, hao]
    obtain ⟨ps', ds', reply, heq, hcontents, h'⟩ := h.dataRequest write buffer ho hao hio (hbounds _ hao)
    refine ⟨_, some reply, ?_, h', ?_⟩
    . rw [Store.step, lookup_eq ho]
      show (DefaultPager.dataRequest s.parts ds (offset % 2 ^ 32) write buffer io >>= _) = _
      rw [heq]
      rfl
    . rw [Option.map_some, hcontents]
      rfl

theorem Refines.step_stops (hbounds : ¬ Spec.InBoundsOf a m) : ∃ e, s.step m = .error e := by
  cases m with
  | create newSize => exact absurd trivial hbounds
  | dataWrite o offset pages => exact absurd trivial hbounds
  | dataInitialize o offset pages =>
    obtain ⟨ao, ds, hao, ho⟩ := h.known hknown
    rw [Spec.step, update_eq hao] at hroom
    obtain ⟨e, he⟩ := (pageHandler_new capacity o).eachPage_stops h ho hao offset hio hroom (by
      rw [SpecObject.okAll_writeNew_iff]
      intro hall
      apply hbounds
      intro ao' hao'
      rw [hao] at hao'
      cases hao'
      exact hall)
    refine ⟨e, ?_⟩
    rw [Store.step, lookup_eq ho]
    show (eachPage DefaultPager.initializeOne s.parts ds offset pages >>= _) = _
    rw [he]
    rfl
  | dataRequest o offset write buffer io =>
    obtain ⟨ao, ds, hao, ho⟩ := h.known hknown
    have hle : ao.size ≤ atop (offset % 2 ^ 32) := by
      apply Nat.le_of_not_lt
      intro hlt
      apply hbounds
      intro ao' hao'
      rw [hao] at hao'
      cases hao'
      exact hlt
    refine ⟨.panic "%spager_read_offset", ?_⟩
    rw [Store.step, lookup_eq ho]
    show (DefaultPager.dataRequest s.parts ds (offset % 2 ^ 32) write buffer io >>= _) = _
    rw [h.dataRequest_panic ho hao hle]
    rfl

end

theorem Refines.run_iff (h : s.Refines a capacity) (hserved : Served capacity a ms)
    : (∃ s' replies, s.run ms = .ok (s', replies) ∧ s'.Shows (Spec.run a ms).1 ∧
          replies.map Reply.contents = (Spec.run a ms).2.map some) ↔ Spec.InBounds a ms := by
  induction ms generalizing s a with
  | nil => exact iff_of_true ⟨s, [], rfl, h.shows, rfl⟩ trivial
  | cons m ms ih =>
    obtain ⟨hknown, hio, hroom, hrest⟩ := hserved
    rw [Spec.InBounds, Store.run, Spec.run]
    by_cases hbounds : Spec.InBoundsOf a m
    . obtain ⟨s1, reply, heq, h1, hreply⟩ := h.step hknown hio hroom hbounds
      rw [heq, and_iff_right hbounds, ← ih h1 hrest]
      show (∃ s' replies, (s1.run ms >>= _) = _ ∧ _ ∧ _) ↔ _
      have hlist : reply.toList.map Reply.contents = (a.step m).2.toList.map some := by
        rw [← Option.toList_map, hreply, Option.toList_map]
      constructor
      . rintro ⟨s', replies, hrun, hshows, hreplies⟩
        obtain ⟨⟨s2, replies2⟩, hrun2, hok⟩ := bind_ok.1 hrun
        cases hok
        refine ⟨s', replies2, hrun2, hshows, ?_⟩
        rw [List.map_append, List.map_append, hlist] at hreplies
        exact List.append_cancel_left hreplies
      . rintro ⟨s', replies, hrun, hshows, hreplies⟩
        refine ⟨s', reply.toList ++ replies, ?_, hshows, ?_⟩
        . rw [hrun]
          rfl
        . rw [List.map_append, List.map_append, hlist, hreplies]
    . obtain ⟨e, he⟩ := h.step_stops hknown hio hroom hbounds
      refine iff_of_false ?_ fun hall => hbounds hall.1
      rintro ⟨s', replies, hrun, -⟩
      rw [he] at hrun
      contradiction

theorem refines_nil {ps : Parts β} (h : ps.Good)
    (hempty : ∀ i part, ps.partAt i = some part → part.free = part.totalSize ∧ part.goingAway = false)
    : Refines ⟨ps, []⟩ [] ps.capacity := by
  refine ⟨h, fun i part hi => (hempty i part hi).2, ⟨rfl, nofun⟩, nofun, nofun, ⟨?_, ?_⟩, ?_⟩
  . intro o p hb
    exact absurd rfl hb
  . intro o p o' p' hb
    exact absurd rfl hb
  . show (ps.map (sizeOf Part.free)).sum + 0 = (ps.map (sizeOf Part.totalSize)).sum
    rw [Nat.add_zero]
    congr 1
    apply List.map_congr_left
    intro x hx
    cases x with
    | none => rfl
    | some part =>
      obtain ⟨i, hi⟩ := List.mem_iff_getElem?.1 hx
      have hpart : ps.partAt i = some part := by
        rw [partAt, hi]
        rfl
      exact (hempty i part hpart).1

def extendedByWrite : List (Message Nat) :=
  [.create 4096, .dataWrite 0 (70 * 4096) [(fun i => i, [some 100, some 5000])],
    .dataRequest 0 (70 * 4096) true (fun _ => 0) [some 1]]

theorem Refines.run_ok (h : s.Refines a capacity) (hserved : Served capacity a ms) (hbounds : Spec.InBounds a ms)
    : ∃ s' replies, s.run ms = .ok (s', replies) ∧ s'.Refines (Spec.run a ms).1 capacity := by
  induction ms generalizing s a with
  | nil => exact ⟨s, [], rfl, h⟩
  | cons m ms ih =>
    obtain ⟨hknown, hio, hroom, hrest⟩ := hserved
    obtain ⟨s1, reply, heq, h1, -⟩ := h.step hknown hio hroom hbounds.1
    obtain ⟨s', replies, hrun, h'⟩ := ih h1 hrest hbounds.2
    refine ⟨s', reply.toList ++ replies, ?_, h'⟩
    rw [Store.run, heq]
    show (s1.run ms >>= _) = _
    rw [hrun]
    rfl

def twoObjects : List (Message Nat) :=
  [.create 4096, .create 8192, .dataWrite 0 8192 [(fun i => i, [some 100, some 4096]), (fun _ => 1, [some 4096])],
    .dataWrite 1 4096 [(fun _ => 2, [some 4096])], .dataWrite 0 8192 [(fun _ => 3, [some 4096])],
    .dataRequest 1 4096 true (fun _ => 0) [some 4096]]

end Store

end DefaultPager
