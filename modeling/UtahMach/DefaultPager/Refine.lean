import UtahMach.Data.Lists
import UtahMach.DefaultPager.Blocks

/-!
This module contains the default pager as a store of pages.
-/

namespace DefaultPager

open Function Bitmap

open Vm (pageSize)
open Lists

variable {β : Type}

structure SpecObject (β : Type) where
  size : Nat
  pages : Nat → Option (Page β)

abbrev Spec (β : Type) := List (SpecObject β)

namespace SpecObject

def write (o : SpecObject β) (p : Nat) (page : Page β) : SpecObject β :=
  { size := if o.size ≤ p then extendedSize o.size (p + 1) else o.size
    pages := Function.update o.pages p (some page) }

def writeNew (o : SpecObject β) (p : Nat) (page : Page β) : SpecObject β :=
  match o.pages p with
  | some _ => o
  | none => o.write p page

def release (o : SpecObject β) (p : Nat) : SpecObject β :=
  { o with pages := Function.update o.pages p none }

def eachPage (one : SpecObject β → Nat → Page β → SpecObject β) (o : SpecObject β) (offset : Nat)
    : Pages β → SpecObject β
  | [] => o
  | (page, _) :: rest => eachPage one (one o (atop (offset % 2 ^ 32)) page) (offset + pageSize) rest

def count (o : SpecObject β) : Nat := Nat.count (fun p => (o.pages p).isSome = true) o.size

end SpecObject

namespace Spec

def update (a : Spec β) (object : Nat) (f : SpecObject β → SpecObject β) : Spec β :=
  match a[object]? with
  | none => a
  | some o => a.set object (f o)

def step (a : Spec β) : Message β → Spec β × Option (Option (Page β))
  | .create newSize => (a ++ [⟨(pagerAlloc pIndexInvalid newSize).size, fun _ => none⟩], none)
  | .dataWrite object offset pages =>
    (update a object fun o => o.eachPage SpecObject.write offset pages, none)
  | .dataInitialize object offset pages =>
    (update a object fun o => o.eachPage SpecObject.writeNew offset pages, none)
  | .dataRequest object offset write _ _ =>
    let p := atop (offset % 2 ^ 32)
    (if write then update a object fun o => o.release p else a, a[object]?.map fun o => o.pages p)

def run (a : Spec β) : List (Message β) → Spec β × List (Option (Page β))
  | [] => (a, [])
  | m :: ms =>
    let (a, reply) := a.step m
    let (a, replies) := Spec.run a ms
    (a, reply.toList ++ replies)

def present (a : Spec β) : Nat := (a.map SpecObject.count).sum

def InBoundsOf (a : Spec β) : Message β → Prop
  | .dataRequest object offset _ _ _ => ∀ o, a[object]? = some o → atop (offset % 2 ^ 32) < o.size
  | .dataInitialize object offset pages =>
    ∀ o, a[object]? = some o → ∀ i < pages.length, atop ((offset + i * pageSize) % 2 ^ 32) < o.size
  | _ => True

def InBounds (a : Spec β) : List (Message β) → Prop
  | [] => True
  | m :: ms => InBoundsOf a m ∧ InBounds (a.step m).1 ms

end Spec

def Message.Known (a : Spec β) : Message β → Prop
  | .create _ => True
  | .dataWrite object _ _ => object < a.length
  | .dataInitialize object _ _ => object < a.length
  | .dataRequest object _ _ _ _ => object < a.length

def Message.Succeeds : Message β → Prop
  | .create _ => True
  | .dataWrite _ _ pages => ∀ page io, (page, io) ∈ pages → none ∉ io
  | .dataInitialize _ _ pages => ∀ page io, (page, io) ∈ pages → none ∉ io
  | .dataRequest _ _ _ _ io => none ∉ io

def Served (capacity : Nat) (a : Spec β) : List (Message β) → Prop
  | [] => True
  | m :: ms =>
    m.Known a ∧ m.Succeeds ∧ Spec.present (a.step m).1 ≤ capacity ∧ Served capacity (a.step m).1 ms

def Reply.contents : Reply β → Option (Option (Page β))
  | .supply page => some (some page)
  | .provided page => some (some page)
  | .unavailable => some none
  | .error => none

def Parts.sizeOf (f : Part β → Nat) : Option (Part β) → Nat
  | none => 0
  | some part => f part

def Parts.capacity (ps : Parts β) : Nat := (ps.map (sizeOf Part.totalSize)).sum

def Parts.totalFree (ps : Parts β) : Nat := (ps.map (sizeOf Part.free)).sum

namespace Store

def blockAt (s : Store β) (o p : Nat) : Block :=
  match s.objects[o]? with
  | none => noBlock
  | some ds => ds.dpager.blockAt p

def Shows (s : Store β) (a : Spec β) : Prop :=
  s.objects.length = a.length ∧
    ∀ o ao, a[o]? = some ao → ∀ p, ao.pages p = s.parts.readBlock (s.blockAt o p)

structure Refines (s : Store β) (a : Spec β) (capacity : Nat) : Prop where
  good : s.parts.Good
  stay : ∀ i part, s.parts.partAt i = some part → part.goingAway = false
  shows : s.Shows a
  usable : ∀ (o : Nat) (ds : Object), s.objects[o]? = some ds →
    ds.dpager.Usable s.parts ∧ ds.errors = 0 ∧
      (ds.dpager.curPartition = pIndexInvalid → ∀ p, ds.dpager.blockAt p = noBlock)
  size : ∀ (o : Nat) (ds : Object) (ao : SpecObject β),
    s.objects[o]? = some ds → a[o]? = some ao → ds.dpager.size = ao.size
  linked : Linked s.parts s.blockAt
  space : s.parts.totalFree + Spec.present a = capacity

end Store

section Free

variable {ps : Parts β} {i off : Nat} {part : Part β}

theorem totalFree_setPart (hi : ps.partAt i = some part) (part' : Part β)
    : (ps.setPart i part').totalFree + part.free = ps.totalFree + part'.free :=
  sum_map_set (f := Parts.sizeOf Part.free) (Parts.getElem?_of_part hi)

theorem totalFree_eq_zero_of_full (hfull : ps.Full)
    (hstay : ∀ i part, ps.partAt i = some part → part.goingAway = false) : ps.totalFree = 0 := by
  rw [Parts.totalFree, List.sum_eq_zero]
  intro n hn
  rw [List.mem_map] at hn
  obtain ⟨x, hx, rfl⟩ := hn
  cases x with
  | none => rfl
  | some part =>
    obtain ⟨i, hi⟩ := List.mem_iff_getElem?.1 hx
    have hpart : ps.partAt i = some part := by rw [Parts.partAt, hi]; rfl
    exact hfull i part hpart (hstay i part hpart)

end Free

namespace SpecObject

variable {o : SpecObject β} {p : Nat} {page : Page β}

theorem le_size_write (o : SpecObject β) (p : Nat) (page : Page β) : o.size ≤ (o.write p page).size := by
  show o.size ≤ if o.size ≤ p then extendedSize o.size (p + 1) else o.size
  split
  . next h =>
    apply le_extendedSize_iff.2
    have := le_roundupToPagemap (p + 1)
    exact Or.inr (by omega)
  . exact Nat.le_refl _

theorem lt_size_write (hpos : 0 < o.size) (p : Nat) (page : Page β) : p < (o.write p page).size := by
  show p < if o.size ≤ p then extendedSize o.size (p + 1) else o.size
  split
  . exact extendedSize_covers hpos (p + 1)
  . next h => exact Nat.lt_of_not_le h

theorem count_eq_of_le {n : Nat} (hout : ∀ q, o.size ≤ q → o.pages q = none) (hn : o.size ≤ n)
    : Nat.count (fun q => (o.pages q).isSome = true) n = o.count := by
  obtain ⟨k, rfl⟩ := Nat.exists_eq_add_of_le hn
  rw [Nat.count_add, count]
  have hzero : Nat.count (fun q => (o.pages (o.size + q)).isSome = true) k = 0 := by
    rw [Nat.count_iff_forall_not]
    intro q _
    rw [hout _ (Nat.le_add_right _ _)]
    exact Bool.false_ne_true
  omega

theorem count_write (hpos : 0 < o.size) (hout : ∀ q, o.size ≤ q → o.pages q = none) (p : Nat) (page : Page β)
    : (o.write p page).count = o.count + if (o.pages p).isSome then 0 else 1 := by
  rw [← count_eq_of_le hout (le_size_write o p page), count]
  have hupdate (q : Nat) (hq : q ≠ p) : ((o.write p page).pages q).isSome = (o.pages q).isSome := by
    show (update o.pages p (some page) q).isSome = _
    rw [update_of_ne hq]
  have hself : ((o.write p page).pages p).isSome = true := by
    show (update o.pages p (some page) p).isSome = _
    rw [update_self]
    rfl
  split
  . next hsome =>
    apply count_congr
    intro q _
    by_cases hq : q = p
    . subst hq
      rw [hself, hsome]
    . exact hupdate q hq
  . next hnone =>
    apply count_add_one (lt_size_write hpos p page) _ hself hupdate
    exact Bool.eq_false_iff.2 hnone

theorem count_release (hlt : p < o.size) (hsome : (o.pages p).isSome = true) : (o.release p).count + 1 = o.count := by
  symm
  apply count_add_one hlt _ hsome
  . intro q hq
    show _ = (update o.pages p none q).isSome
    rw [update_of_ne hq]
  . show (update o.pages p none p).isSome = false
    rw [update_self]
    rfl

theorem release_eq (hnone : o.pages p = none) : o.release p = o := by
  rw [release, ← hnone, update_eq_self]

end SpecObject

namespace Store

variable {s : Store β} {a : Spec β} {capacity o p : Nat} {ds : Object} {ao : SpecObject β} {ps : Parts β}

theorem blockAt_eq (ho : s.objects[o]? = some ds) : s.blockAt o p = ds.dpager.blockAt p := by
  rw [blockAt, ho]

theorem blockAt_setObject (ho : s.objects[o]? = some ds)
    : (s.setObject o ps ds').blockAt o' p = if o = o' then ds'.dpager.blockAt p else s.blockAt o' p := by
  obtain ⟨hlt, -⟩ := List.getElem?_eq_some_iff.1 ho
  rw [blockAt, setObject]
  by_cases heq : o = o'
  . subst heq
    rw [if_pos rfl, List.getElem?_set_self hlt]
  . rw [if_neg heq, List.getElem?_set_ne heq]
    rfl

theorem blockAt_setEntry {b : Block} (ho : s.objects[o]? = some ds)
    (hblock : ∀ q, pager'.blockAt q = if p = q then b else ds.dpager.blockAt q)
    : (s.setObject o ps ⟨pager', errors⟩).blockAt o' q = if o = o' ∧ p = q then b else s.blockAt o' q := by
  rw [blockAt_setObject ho]
  by_cases ho' : o = o'
  . subst ho'
    rw [if_pos rfl, blockAt_eq ho]
    show pager'.blockAt q = _
    rw [hblock]
    by_cases hq : p = q
    . rw [if_pos hq, if_pos ⟨rfl, hq⟩]
    . rw [if_neg hq, if_neg fun heq => hq heq.2]
  . rw [if_neg ho', if_neg fun heq => ho' heq.1]

theorem setObject_setObject : (s.setObject o ps ds).setObject o ps' ds' = s.setObject o ps' ds' := by
  rw [setObject, setObject, setObject, List.set_set]

theorem objects_setObject_self (ho : s.objects[o]? = some ds) (ps : Parts β) (ds' : Object)
    : (s.setObject o ps ds').objects[o]? = some ds' := by
  obtain ⟨hlt, -⟩ := List.getElem?_eq_some_iff.1 ho
  exact List.getElem?_set_self hlt

theorem setObject_self (ho : s.objects[o]? = some ds) : s.setObject o s.parts ds = s := by
  obtain ⟨-, rfl⟩ := List.getElem?_eq_some_iff.1 ho
  rw [setObject, List.set_getElem_self]

theorem present_set (hao : a[o]? = some ao) (ao' : SpecObject β)
    : Spec.present (a.set o ao') + ao.count = Spec.present a + ao'.count := sum_map_set hao

namespace Refines

section

variable (h : s.Refines a capacity)
include h

theorem known (hlt : o < a.length) : ∃ ao ds, a[o]? = some ao ∧ s.objects[o]? = some ds := by
  have hlt' := hlt
  rw [← h.shows.1] at hlt'
  exact ⟨_, _, List.getElem?_eq_getElem hlt, List.getElem?_eq_getElem hlt'⟩

section

variable (ho : s.objects[o]? = some ds) (hao : a[o]? = some ao)
include ho hao

theorem pages (p : Nat) : ao.pages p = s.parts.readBlock (ds.dpager.blockAt p) := by
  rw [h.shows.2 o ao hao p, blockAt_eq ho]

theorem outside : ∀ q, ao.size ≤ q → ao.pages q = none := by
  intro q hq
  rw [← h.size o ds ao ho hao] at hq
  rw [h.pages ho hao, (h.usable o ds ho).1.shaped.outside q hq, readBlock_noBlock]

theorem size_pos : 0 < ao.size := by
  rw [← h.size o ds ao ho hao]
  exact (h.usable o ds ho).1.shaped.pos

theorem isSome_iff : (ao.pages p).isSome = true ↔ ds.dpager.blockAt p ≠ noBlock := by
  rw [h.pages ho hao]
  constructor
  . intro hsome heq
    rw [heq, readBlock_noBlock] at hsome
    contradiction
  . intro hne
    have hb := blockAt_eq (p := p) ho
    obtain ⟨part, hpart, -⟩ := h.linked.owned o p (hb ▸ hne)
    rw [hb] at hpart
    rw [readBlock_of_part hne hpart]
    rfl

theorem setObject (hgood : ps'.Good)
    (hstay : ∀ i part, ps'.partAt i = some part → part.goingAway = false) (hlen : ps'.length = s.parts.length)
    (husable : ds'.dpager.Usable ps' ∧ ds'.errors = 0 ∧
      (ds'.dpager.curPartition = pIndexInvalid → ∀ p, ds'.dpager.blockAt p = noBlock))
    (hsize : ds'.dpager.size = ao'.size) (hlinked : Linked ps' (s.setObject o ps' ds').blockAt)
    (hpages : ∀ p, ao'.pages p = ps'.readBlock (ds'.dpager.blockAt p))
    (hothers : ∀ o' p, o ≠ o' → ps'.readBlock (s.blockAt o' p) = s.parts.readBlock (s.blockAt o' p))
    (hspace : ps'.totalFree + ao'.count = s.parts.totalFree + ao.count)
    : (s.setObject o ps' ds').Refines (a.set o ao') capacity := by
  obtain ⟨hlt, -⟩ := List.getElem?_eq_some_iff.1 ho
  obtain ⟨hlta, -⟩ := List.getElem?_eq_some_iff.1 hao
  refine ⟨hgood, hstay, ⟨?_, ?_⟩, ?_, ?_, hlinked, ?_⟩
  . show (s.objects.set o ds').length = (a.set o ao').length
    rw [List.length_set, List.length_set]
    exact h.shows.1
  . intro o' ao1 hao1 p
    rw [blockAt_setObject ho]
    by_cases heq : o = o'
    . subst heq
      rw [List.getElem?_set_self hlta] at hao1
      cases hao1
      rw [if_pos rfl]
      exact hpages p
    . rw [List.getElem?_set_ne heq] at hao1
      rw [if_neg heq]
      exact (h.shows.2 o' ao1 hao1 p).trans (hothers o' p heq).symm
  . refine forall_set (fun o' ds1 hds1 => ?_) husable
    obtain ⟨husable1, hrest⟩ := h.usable o' ds1 hds1
    exact ⟨husable1.of_length hlen, hrest⟩
  . intro o' ds1 ao1 hds1 hao1
    change (s.objects.set o ds')[o']? = some ds1 at hds1
    by_cases heq : o = o'
    . subst heq
      rw [List.getElem?_set_self hlt] at hds1
      rw [List.getElem?_set_self hlta] at hao1
      cases hds1
      cases hao1
      exact hsize
    . rw [List.getElem?_set_ne heq] at hds1 hao1
      exact h.size o' ds1 ao1 hds1 hao1
  . have hpresent := present_set hao ao'
    have := h.space
    show ps'.totalFree + Spec.present (a.set o ao') = capacity
    omega

end

theorem writeDisk {part : Part β} (page : Page β)
    (ho : s.objects[o]? = some ds) (hao : a[o]? = some ao) (hb : ds.dpager.blockAt p ≠ noBlock)
    (hi : s.parts.partAt (ds.dpager.blockAt p).pIndex = some part)
    : (s.setObject o (s.parts.setPart (ds.dpager.blockAt p).pIndex
          (part.setDisk (written page (ptoa (ds.dpager.blockAt p).pOffset) 0 part.disk))) ds).Refines
        (a.set o ⟨ao.size, update ao.pages p (some page)⟩) capacity := by
  have hblock (q : Nat) : s.blockAt o q = ds.dpager.blockAt q := blockAt_eq ho
  have hne (o' q : Nat) (hneq : ¬ (o = o' ∧ p = q)) := h.linked.readBlock_of_ne h.good page
    (show s.parts.partAt (s.blockAt o p).pIndex = some part from (hblock p).symm ▸ hi) ((hblock p).symm ▸ hb) hneq
  rw [hblock] at hne
  obtain ⟨husable, herrors, hunfit⟩ := h.usable o ds ho
  have hblocks : (s.setObject o (s.parts.setPart (ds.dpager.blockAt p).pIndex
      (part.setDisk (written page (ptoa (ds.dpager.blockAt p).pOffset) 0 part.disk))) ds).blockAt = s.blockAt := by
    funext o' q
    rw [blockAt_setObject ho]
    split
    . next heq =>
      subst heq
      exact (hblock q).symm
    . rfl
  apply h.setObject ho hao
  . exact h.good.setPart hi ((h.good.exact _ part hi).setDisk _) (h.good.unlocked _ part hi)
  . exact Parts.forall_setPart h.stay (h.stay _ part hi)
  . exact Parts.length_setPart
  . exact ⟨husable.of_length Parts.length_setPart, herrors, hunfit⟩
  . exact h.size o ds ao ho hao
  . rw [hblocks]
    exact h.linked.setDisk hi _
  . intro q
    show update ao.pages p (some page) q = _
    by_cases hq : q = p
    . subst hq
      rw [update_self]
      exact (readBlock_written hi rfl hb).symm
    . rw [update_of_ne hq, h.pages ho hao, ← hblock q]
      exact (hne o q fun heq => hq heq.2.symm).symm
  . intro o' q hneq
    exact hne o' q fun heq => hneq heq.1
  . have hfree := totalFree_setPart hi (part.setDisk (written page (ptoa (ds.dpager.blockAt p).pOffset) 0 part.disk))
    have hcount : SpecObject.count ⟨ao.size, update ao.pages p (some page)⟩ = ao.count := by
      apply count_congr
      intro q _
      show (update ao.pages p (some page) q).isSome = _
      by_cases hq : q = p
      . subst hq
        rw [update_self, (h.isSome_iff ho hao).2 hb]
        rfl
      . rw [update_of_ne hq]
    change _ + part.free = _ + part.free at hfree
    omega

theorem wrote {block : Block} (ho : s.objects[o]? = some ds) (hao : a[o]? = some ao) (hblock : block ≠ noBlock)
    (hwrote : Wrote s.parts ds.dpager.blockAt p ps' pager'.blockAt block) (hgood : ps'.Good)
    (hlen : ps'.length = s.parts.length) (husable : pager'.Usable ps') (hcur : pager'.curPartition ≠ pIndexInvalid)
    (hsize : pager'.size = if ds.dpager.size ≤ p then extendedSize ds.dpager.size (p + 1) else ds.dpager.size)
    : ∃ x, pager'.blockAt p = block ∧
      (s.setObject o ps' ⟨pager', ds.errors⟩).Refines (a.set o (ao.write p x)) capacity := by
  obtain ⟨-, herrors, -⟩ := h.usable o ds ho
  have husable' : pager'.Usable ps' ∧ ds.errors = 0 ∧
      (pager'.curPartition = pIndexInvalid → ∀ p, pager'.blockAt p = noBlock) :=
    ⟨husable, herrors, fun hinvalid => absurd hinvalid hcur⟩
  have hsize' (x : Page β) : pager'.size = (ao.write p x).size := by
    rw [hsize, h.size o ds ao ho hao]
    rfl
  have hcount (x : Page β) := SpecObject.count_write (h.size_pos ho hao) (h.outside ho hao) p x
  have hblocks (o' q : Nat) : (s.setObject o ps' ⟨pager', ds.errors⟩).blockAt o' q =
      if o = o' then pager'.blockAt q else s.blockAt o' q := blockAt_setObject ho
  generalize hB : pager'.blockAt = blocks' at hwrote
  cases hwrote with
  | kept _ =>
    have hsome := (h.isSome_iff ho hao).2 hblock
    obtain ⟨x, hx⟩ := Option.isSome_iff_exists.1 hsome
    have heq : (s.setObject o s.parts ⟨pager', ds.errors⟩).blockAt = s.blockAt := by
      funext o' q
      rw [hblocks, hB]
      split
      . next heq =>
        subst heq
        exact (blockAt_eq ho).symm
      . rfl
    refine ⟨x, rfl, h.setObject ho hao hgood h.stay hlen husable' (hsize' x) ?_ ?_ (fun _ _ _ => rfl) ?_⟩
    . rw [heq]
      exact h.linked
    . intro q
      show update ao.pages p (some x) q = s.parts.readBlock (pager'.blockAt q)
      rw [← hx, update_eq_self, hB]
      exact h.pages ho hao q
    . rw [hcount, if_pos hsome]
      rfl
  | @fresh i off part hnone hi hstay hoff hclear =>
    have hpart : (s.parts.setPart i (part.take off)).partAt i = some (part.take off) :=
      Parts.part_setPart_self (Parts.lt_length_of_part hi)
    have hfree : (ao.pages p).isSome = false := by
      rw [Bool.eq_false_iff]
      exact fun hsome => (h.isSome_iff ho hao).1 hsome hnone
    have hread (b : Block) : (s.parts.setPart i (part.take off)).readBlock b = s.parts.readBlock b :=
      readBlock_setPart hi fun _ _ => rfl
    refine ⟨fun k => part.disk (ptoa off + k), if_pos rfl, h.setObject ho hao hgood ?_ hlen husable' (hsize' _)
      ?_ ?_ (fun _ _ _ => hread _) ?_⟩
    . exact Parts.forall_setPart h.stay hstay
    . apply h.linked.take (h.good.exact i part hi) hi hoff hclear (o := o) (p := p)
      intro o' q
      exact blockAt_setEntry ho fun q => by rw [hB]
    . intro q
      show update ao.pages p _ q = (s.parts.setPart i (part.take off)).readBlock (pager'.blockAt q)
      rw [hB]
      dsimp only
      by_cases hq : q = p
      . subst hq
        rw [update_self, if_pos rfl]
        exact (readBlock_of_part hblock hpart).symm
      . rw [update_of_ne hq, if_neg (Ne.symm hq), hread]
        exact h.pages ho hao q
    . have htotal := totalFree_setPart hi (part.take off)
      have hpos := (h.good.exact i part hi).free_ne_zero hoff hclear
      rw [hcount, hfree]
      change _ + part.free = _ + (part.free - 1) at htotal
      show _ + (ao.count + 1) = _
      omega

end

end Refines

end Store

end DefaultPager
