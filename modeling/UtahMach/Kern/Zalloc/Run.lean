import UtahMach.Kern.Zalloc.Collect

/-!
This module contains all zones together, in every sequence of their operations.
-/

namespace Kern.Zalloc

open Extent

open Vm (pageSize)

def extentsOf (slots : List Slot) : List Extent := slots.flatMap Slot.extents

structure Inv (c : ZoneMap) (slots : List Slot) (m : Shared) : Prop where
  linked : ∀ slot ∈ slots, Linked (link m.mem) (ptr slot.zone.freeElements) slot.free
  size_pos : ∀ slot ∈ slots, 0 < slot.zone.elemSize
  size : ∀ slot ∈ slots, slot.zone.curSize = slot.zone.elemSize * (slot.inUse.length + slot.free.length)
  apart : ∀ a, Extent.count (m.space :: extentsOf slots) a ≤ 1
  placed : ∀ e ∈ extentsOf slots, Placed c m.held e
  exact : Exact c m.table (extentsOf slots)
  away : ∀ slot ∈ slots, ∀ e ∈ slot.extents, Away c slot.zone m e
  fits : ∀ slot ∈ slots, slot.zone.elemSize + max m.endOfSpace c.maxAddress < 2 ^ 32
  space : SpaceOk c m

theorem extentsOf_perm (pre : List Slot) (slot : Slot) (post : List Slot)
    : (extentsOf (pre ++ slot :: post)).Perm (slot.extents ++ extentsOf (pre ++ post)) :=
  (List.perm_middle.flatMap_right _).trans (.of_eq List.flatMap_cons)

theorem mem_extentsOf : e ∈ extentsOf slots ↔ ∃ slot ∈ slots, e ∈ slot.extents := List.mem_flatMap

namespace Inv

theorem good (h : Inv c (pre ++ slot :: post) m) : Good c slot (extentsOf (pre ++ post)) m := by
  have hperm := extentsOf_perm pre slot post
  have hmem : slot ∈ pre ++ slot :: post := List.mem_append_right _ List.mem_cons_self
  refine ⟨h.linked slot hmem, h.size_pos slot hmem, ?_, h.size slot hmem, ?_, ?_, ?_, h.away slot hmem,
    h.fits slot hmem, h.space⟩
  . intro e he
    obtain ⟨s, hs, he⟩ := mem_extentsOf.1 he
    rw [Slot.size_of_mem he]
    apply h.size_pos
    rw [List.mem_append] at hs ⊢
    exact hs.imp_right (List.mem_cons_of_mem _)
  . intro a
    rw [List.cons_append, ← count_perm (hperm.cons _)]
    exact h.apart a
  . intro e he
    exact h.placed e (hperm.mem_iff.2 he)
  . exact h.exact.congr fun i => (touching_perm hperm i).symm

theorem set (h : Inv c (pre ++ slot :: post) m) (hgood : Good c slot' (extentsOf (pre ++ post)) m')
    (hframe : Frame c (extentsOf (pre ++ post)) m m') : Inv c (pre ++ slot' :: post) m' := by
  have hperm := extentsOf_perm pre slot' post
  -- a zone is the one that has changed or one of the others
  have hcases {s : Slot} (hs : s ∈ pre ++ slot' :: post)
      : s = slot' ∨ s ∈ pre ++ post ∧ s ∈ pre ++ slot :: post := by
    simp only [List.mem_append, List.mem_cons] at hs ⊢
    tauto
  refine ⟨?_, ?_, ?_, ?_, ?_, ?_, ?_, ?_, hgood.space⟩
  . intro s hs
    obtain rfl | ⟨hother, hs⟩ := hcases hs
    . exact hgood.linked
    . apply (h.linked s hs).congr
      intro a ha
      have he := mem_extentsOf.2 ⟨s, hother, Slot.mem_extents.2 ⟨a, Or.inr ha, rfl⟩⟩
      exact congrArg ptr (hframe.mem _ he)
  . intro s hs
    obtain rfl | ⟨-, hs⟩ := hcases hs
    . exact hgood.size_pos
    . exact h.size_pos s hs
  . intro s hs
    obtain rfl | ⟨-, hs⟩ := hcases hs
    . exact hgood.size
    . exact h.size s hs
  . intro a
    rw [count_perm (hperm.cons _), ← List.cons_append]
    exact hgood.apart a
  . intro e he
    exact hgood.placed e (hperm.mem_iff.1 he)
  . exact hgood.exact.congr fun i => touching_perm hperm i
  . intro s hs e he
    obtain rfl | ⟨hother, hs⟩ := hcases hs
    . exact hgood.away e he
    . intro hcollected hlt i hon hon'
      obtain ⟨hlt', hspace⟩ | hnone := hframe.space i hlt hon
      . exact h.away s hs e he hcollected hlt' i hspace hon'
      . exact ZoneMap.touching_eq_zero_iff.1 hnone e (mem_extentsOf.2 ⟨s, hother, he⟩) hon'
  . intro s hs
    obtain rfl | ⟨-, hs⟩ := hcases hs
    . exact hgood.fits
    . have hfits := h.fits s hs
      have hlast := hframe.last
      omega

theorem snoc (h : Inv c slots m) (hlinked : Linked (link m.mem) (ptr slot.zone.freeElements) slot.free)
    (hpos : 0 < slot.zone.elemSize) (hfits : slot.zone.elemSize + max m.endOfSpace c.maxAddress < 2 ^ 32)
    (hsize : slot.zone.curSize = 0) (hinUse : slot.inUse = []) (hfree : slot.free = [])
    : Inv c (slots ++ [slot]) m := by
  have hextents : slot.extents = [] := by
    rw [Slot.extents, hinUse, hfree]
    rfl
  have hnone : extentsOf (slots ++ [slot]) = extentsOf slots := by
    rw [extentsOf, List.flatMap_append, List.flatMap_singleton, hextents, List.append_nil]
    rfl
  have hcases {s : Slot} (hs : s ∈ slots ++ [slot]) : s ∈ slots ∨ s = slot := by
    rw [List.mem_append, List.mem_singleton] at hs
    exact hs
  refine ⟨?_, ?_, ?_, hnone ▸ h.apart, hnone ▸ h.placed, hnone ▸ h.exact, ?_, ?_, h.space⟩
  . intro s hs
    obtain hs | rfl := hcases hs
    . exact h.linked s hs
    . exact hlinked
  . intro s hs
    obtain hs | rfl := hcases hs
    . exact h.size_pos s hs
    . exact hpos
  . intro s hs
    obtain hs | rfl := hcases hs
    . exact h.size s hs
    . rw [hsize, hinUse, hfree]
      rfl
  . intro s hs e he
    obtain hs | rfl := hcases hs
    . exact h.away s hs e he
    . rw [hextents] at he
      exact absurd he List.not_mem_nil
  . intro s hs
    obtain hs | rfl := hcases hs
    . exact h.fits s hs
    . exact hfits

end Inv

theorem Inv.kmemAlloc {addr size : Nat} (h : Inv c slots m) (heq : c.kmemAlloc addr size m = some m')
    : Inv c slots m' := by
  rw [ZoneMap.kmemAlloc] at heq
  split at heq
  . cases heq
    have hheld {i : Nat} (hi : m.held i = true) : (decide (i ∈ c.pagesOf addr size) || m.held i) = true := by
      rw [hi, Bool.or_true]
    refine ⟨h.linked, h.size_pos, h.size, h.apart, ?_, h.exact, h.away, h.fits,
      h.space.le, h.space.pos, h.space.bound, h.space.side, fun hlt i hon => hheld (h.space.held hlt i hon)⟩
    intro e he
    obtain ⟨hpos, hbound, hside, hplaced⟩ := h.placed e he
    exact ⟨hpos, hbound, hside, fun i hon => hheld (hplaced i hon)⟩
  . contradiction

structure Swept (slot slot' : Slot) (result : Zone × List Nat) : Prop where
  zone : result.1 = slot'.zone
  elemSize : slot'.zone.elemSize = slot.zone.elemSize
  inUse : slot'.inUse = slot.inUse
  sub : ∀ a ∈ result.2, a ∈ slot.free
  free : slot'.free = slot.free.filter (· ∉ result.2)

def SweptAll : List Slot → List Slot → List (Zone × List Nat) → Prop
  | [], [], [] => True
  | slot :: slots, slot' :: slots', result :: results => Swept slot slot' result ∧ SweptAll slots slots' results
  | _, _, _ => False

theorem SweptAll.get {i : Nat} (h : SweptAll slots slots' results) (hi : slots[i]? = some slot)
    : ∃ slot' result, slots'[i]? = some slot' ∧ results[i]? = some result ∧ Swept slot slot' result := by
  induction slots generalizing slots' results i with
  | nil => contradiction
  | cons s slots ih =>
    match slots', results, h with
    | s' :: slots', r :: results, h =>
      cases i with
      | zero =>
        cases hi
        exact ⟨s', r, rfl, rfl, h.1⟩
      | succ i =>
        obtain ⟨slot', result, hslot', hresult, hswept⟩ := ih h.2 hi
        exact ⟨slot', result, hslot', hresult, hswept⟩

theorem Inv.gcZones {todo done : List Slot} {pages : List Nat} (h : Inv c (done ++ todo) m)
    (hdead : Dead c pages m.table (m.freeable c) (extentsOf (done ++ todo)))
    : ∃ results table mem pages' todo', Zalloc.gcZones c (todo.map Slot.zone) m pages =
          some (results, { m with table := table, mem := mem }, pages') ∧
        Inv c (done ++ todo') { m with table := table, mem := mem } ∧
        Dead c pages' table (m.freeable c) (extentsOf (done ++ todo')) ∧ SweptAll todo todo' results := by
  induction todo generalizing done m pages with
  | nil => exact ⟨[], m.table, m.mem, pages, [], rfl, h, hdead, trivial⟩
  | cons slot todo ih =>
    have hgood := h.good
    have hperm := extentsOf_perm done slot todo
    have hdead1 : Dead c pages m.table (m.freeable c) (slot.extents ++ extentsOf (done ++ todo)) :=
      ⟨hdead.nodup, hdead.lt, hdead.held, hdead.unused,
        fun p hp => (touching_perm hperm p).symm.trans (hdead.none p hp)⟩
    obtain ⟨g, heq, hcollecting, hsub, hframe, hsize⟩ := hgood.gcZone hdead1
    have hframe1 : Frame c (extentsOf (done ++ todo)) m (g.shared m) := by
      refine ⟨?_, fun _ hlt hon => Or.inl ⟨hlt, hon⟩, Nat.le_max_left ..⟩
      intro e he
      apply hframe
      intro hfree
      exact hgood.addr_notMem (Or.inr hfree) he rfl
    have h1 := h.set hcollecting.good hframe1
    have hperm1 := extentsOf_perm done ⟨g.zone, slot.inUse, slot.free.filter (· ∉ g.collected)⟩ todo
    have hdead2 := hcollecting.dead
    have hdead3 : Dead c g.pages (g.shared m).table ((g.shared m).freeable c)
        (extentsOf (done ++ ⟨g.zone, slot.inUse, slot.free.filter (· ∉ g.collected)⟩ :: todo)) :=
      ⟨hdead2.nodup, hdead2.lt, hdead2.held, hdead2.unused, fun p hp =>
        (touching_perm hperm1 p).trans (hdead2.none p hp)⟩
    rw [List.append_cons] at h1 hdead3
    obtain ⟨results, table, mem, pages', todo', hrest, h', hdead', hswept⟩ := ih h1 hdead3
    refine ⟨(g.zone, g.collected) :: results, table, mem, pages',
      ⟨g.zone, slot.inUse, slot.free.filter (· ∉ g.collected)⟩ :: todo', ?_, ?_, ?_,
      ⟨rfl, hsize, rfl, hsub, rfl⟩, hswept⟩
    . rw [List.map_cons, Zalloc.gcZones, heq]
      show (Zalloc.gcZones c (todo.map Slot.zone) (g.shared m) g.pages >>= _) = _
      rw [hrest]
      rfl
    . rw [List.append_cons]
      exact h'
    . rw [List.append_cons]
      exact hdead'

theorem Inv.free {pages : List Nat} (h : Inv c slots m) (hdead : Dead c pages m.table (m.freeable c) (extentsOf slots))
    : Inv c slots { m with held := fun i => m.held i && decide (i ∉ pages) } := by
  refine ⟨h.linked, h.size_pos, h.size, h.apart, ?_, h.exact, h.away, h.fits,
    h.space.le, h.space.pos, h.space.bound, h.space.side, ?_⟩
  . intro e he
    obtain ⟨hpos, hbound, hside, hheld⟩ := h.placed e he
    refine ⟨hpos, hbound, hside, ?_⟩
    intro i hon
    show (m.held i && decide (i ∉ pages)) = true
    rw [hheld i hon, Bool.true_and, decide_eq_true_iff]
    intro hi
    exact ZoneMap.touching_eq_zero_iff.1 (hdead.none i hi) e he hon
  . intro hlt i hon
    show (m.held i && decide (i ∉ pages)) = true
    rw [h.space.held hlt i hon, Bool.true_and, decide_eq_true_iff]
    intro hi
    have hfree := hdead.held i hi
    rw [Shared.freeable, Bool.and_eq_true, Bool.not_eq_true', decide_eq_false_iff_not] at hfree
    exact hfree.2 ⟨hlt, hon⟩

theorem Inv.zoneGc (h : Inv c slots m)
    : ∃ results m' pages slots', Zalloc.zoneGc c (slots.map Slot.zone) m = some (results, m', pages) ∧
        Inv c slots' m' ∧ SweptAll slots slots' results ∧ pages.Nodup ∧
        ∀ p ∈ pages, p < c.zonePages ∧ m.held p = true ∧ c.touching (extentsOf slots') p = 0 := by
  have hnone : Dead c [] m.table (m.freeable c) (extentsOf ([] ++ slots)) := ⟨.nil, nofun, nofun, nofun, nofun⟩
  obtain ⟨results, table, mem, pages, slots', heq, h', hdead, hswept⟩ := Inv.gcZones h hnone
  refine ⟨results, _, pages, slots', ?_, h'.free hdead, hswept, hdead.nodup, ?_⟩
  . rw [Zalloc.zoneGc, heq]
    rfl
  . intro p hp
    have hfree := hdead.held p hp
    rw [Shared.freeable, Bool.and_eq_true] at hfree
    exact ⟨hdead.lt p hp, hfree.1, hdead.none p hp⟩

theorem walk_eq {mem : Nat → Nat} {fuel elt : Nat} (hlinked : Linked (link mem) (ptr elt) l)
    (hfuel : l.length ≤ fuel) : walk mem fuel elt = l := by
  induction l generalizing fuel elt with
  | nil =>
    rw [Linked.nil_iff, ptr_eq_none_iff] at hlinked
    subst hlinked
    cases fuel with
    | zero => rfl
    | succ fuel => exact if_pos rfl
  | cons a l ih =>
    obtain ⟨hhead, hrest⟩ := Linked.cons_iff.1 hlinked
    obtain ⟨rfl, hne⟩ := ptr_eq_some_iff.1 hhead
    cases fuel with
    | zero => contradiction
    | succ fuel => rw [walk, if_neg hne, ih hrest (Nat.le_of_succ_le_succ hfuel)]

theorem Inv.freeList (h : Inv c slots m) (hmem : slot ∈ slots) : slot.zone.freeList m.mem = slot.free := by
  obtain ⟨pre, post, rfl⟩ := List.append_of_mem hmem
  exact walk_eq h.good.linked h.good.length_free_le

structure World where
  zones : List (Zone × List Nat)
  m : Shared

namespace World

variable {w w' : World}

def elements (w : World) : List Extent :=
  w.zones.flatMap fun entry => entry.1.extents (entry.2 ++ entry.1.freeList w.m.mem)

structure Unused (c : ZoneMap) (w : World) (e : Extent) : Prop where
  apart : ∀ a, e.Has a → ¬ w.m.space.Has a ∧ ∀ f ∈ w.elements, ¬ f.Has a
  placed : Placed c w.m.held e
  away : w.m.nextSpace < w.m.endOfSpace → ∀ i, c.On i w.m.space → ¬ c.On i e

structure Booted (c : ZoneMap) (w : World) : Prop where
  zones : w.zones = []
  table : ∀ i < c.zonePages, w.m.table i = ⟨0, zonePageUnused⟩
  held : ∀ i, w.m.held i = false
  pos : 0 < w.m.nextSpace
  le : w.m.nextSpace ≤ w.m.endOfSpace
  bound : w.m.endOfSpace ≤ 2 ^ 32
  side : w.m.endOfSpace < c.minAddress ∨ c.maxAddress ≤ w.m.nextSpace

def given (inUse : List Nat) (addr : Nat) : List Nat := if addr = 0 then inUse else addr :: inUse

inductive Step (c : ZoneMap) : World → World → Prop where
  | zinit (w : World) (size max alloc : Nat) (pageable collectable exhaustible fixed : Bool)
      -- no address overflows when an element is cut from the space
      (hsize : (zinit size max alloc pageable collectable exhaustible fixed).elemSize +
        Max.max w.m.endOfSpace c.maxAddress < 2 ^ 32)
      : Step c w { w with zones := w.zones ++ [(zinit size max alloc pageable collectable exhaustible fixed, [])] }
  | zalloc {w : World} {i addr : Nat} {zone z : Zone} {inUse spaces : List Nat} {m : Shared}
      (hi : w.zones[i]? = some (zone, inUse)) (heq : zalloc c spaces zone w.m = some (z, m, addr))
      : Step c w ⟨w.zones.set i (z, given inUse addr), m⟩
  | zget {w : World} {i : Nat} {zone : Zone} {inUse : List Nat} (hi : w.zones[i]? = some (zone, inUse))
      : Step c w ⟨w.zones.set i ((zget zone w.m).1, given inUse (zget zone w.m).2.2), (zget zone w.m).2.1⟩
  | zfree {w : World} {i elem : Nat} {zone : Zone} {inUse : List Nat} (hi : w.zones[i]? = some (zone, inUse))
      (helem : elem ∈ inUse)
      : Step c w ⟨w.zones.set i ((zfree zone elem w.m).1, inUse.erase elem), (zfree zone elem w.m).2⟩
  | zcram {w : World} {i newmem size : Nat} {zone z : Zone} {inUse : List Nat} {m : Shared}
      (hi : w.zones[i]? = some (zone, inUse)) (hunused : w.Unused c ⟨newmem, size⟩)
      (heq : zcram c zone newmem size w.m = some (z, m)) : Step c w ⟨w.zones.set i (z, inUse), m⟩
  | kmemAlloc {w : World} {addr size : Nat} {m : Shared} (heq : c.kmemAlloc addr size w.m = some m)
      : Step c w { w with m := m }
  | write {w : World} {a : Nat} (x : Nat)
      (ha : ∀ entry ∈ w.zones, ∀ b ∈ entry.1.freeList w.m.mem, ¬ (⟨b, entry.1.elemSize⟩ : Extent).Has a)
      : Step c w { w with m := { w.m with mem := Function.update w.m.mem a x } }
  | zoneGc {w : World} {results : List (Zone × List Nat)} {m : Shared} {pages : List Nat}
      (heq : zoneGc c (w.zones.map Prod.fst) w.m = some (results, m, pages))
      : Step c w ⟨List.zipWith (fun result entry => (result.1, entry.2)) results w.zones, m⟩

def Shows (w : World) (slots : List Slot) : Prop := w.zones = slots.map fun slot => (slot.zone, slot.inUse)

theorem Shows.split {i : Nat} {zone : Zone} {inUse : List Nat} (h : w.Shows slots)
    (hi : w.zones[i]? = some (zone, inUse))
    : ∃ pre slot post, slots = pre ++ slot :: post ∧ zone = slot.zone ∧ inUse = slot.inUse ∧
        ∀ slot' m, Shows ⟨w.zones.set i (slot'.zone, slot'.inUse), m⟩ (pre ++ slot' :: post) := by
  rw [h, List.getElem?_map, Option.map_eq_some_iff] at hi
  obtain ⟨slot, hslot, heq⟩ := hi
  obtain ⟨hlt, rfl⟩ := List.getElem?_eq_some_iff.1 hslot
  cases heq
  refine ⟨slots.take i, slots[i], slots.drop (i + 1), ?_, rfl, rfl, ?_⟩
  . rw [List.getElem_cons_drop, List.take_append_drop]
  . intro slot' m
    show w.zones.set i (slot'.zone, slot'.inUse) = _
    rw [h, List.set_eq_take_append_cons_drop, if_pos (by rwa [List.length_map]), List.map_append, List.map_take,
      List.map_cons, List.map_drop]

theorem Shows.elements (h : w.Shows slots) (hinv : Inv c slots w.m) : w.elements = extentsOf slots := by
  rw [World.elements, h, List.flatMap_map, extentsOf, List.flatMap_def, List.flatMap_def]
  congr 1
  apply List.map_congr_left
  intro slot hslot
  rw [hinv.freeList hslot]
  rfl

theorem Shows.zones_fst (h : w.Shows slots) : w.zones.map Prod.fst = slots.map Slot.zone := by
  rw [h, List.map_map]
  rfl

def Ok (c : ZoneMap) (w : World) : Prop := ∃ slots, w.Shows slots ∧ Inv c slots w.m

theorem Booted.ok (h : Booted c w) : Ok c w := by
  refine ⟨[], h.zones, nofun, nofun, nofun, ?_, nofun, ?_, nofun, nofun, h.le, h.pos, h.bound, Or.inl h.side, ?_⟩
  . intro a
    rw [count_cons]
    split
    . exact Nat.le_refl _
    . exact Nat.zero_le _
  . intro i hi
    rw [h.table i hi]
    exact Or.inr ⟨rfl, rfl⟩
  . intro hlt i hon
    have hside := h.side
    have hout := hon.1
    rw [ZoneMap.Outside, Shared.space] at hout
    dsimp only at hout
    omega

theorem Shows.swept (h : w.Shows slots)
    (hswept : SweptAll slots slots' results) : List.zipWith (fun result entry => (result.1, entry.2)) results w.zones =
        slots'.map fun slot => (slot.zone, slot.inUse) := by
  rw [h]
  clear h
  induction slots generalizing slots' results with
  | nil =>
    match slots', results, hswept with
    | [], [], _ => rfl
  | cons slot slots ih =>
    match slots', results, hswept with
    | slot' :: slots', result :: results, hswept =>
      rw [List.map_cons, List.zipWith_cons_cons, ih hswept.2, hswept.1.zone, ← hswept.1.inUse]
      rfl

theorem Ok.set {i : Nat} {zone : Zone} {inUse : List Nat} (h : Ok c w)
    (hi : w.zones[i]? = some (zone, inUse)) {m : Shared}
    (hop : ∀ slot others, zone = slot.zone → inUse = slot.inUse → Good c slot others w.m →
      ∃ slot', z = slot'.zone ∧ l = slot'.inUse ∧ Good c slot' others m ∧ Frame c others w.m m)
    : Ok c ⟨w.zones.set i (z, l), m⟩ := by
  obtain ⟨slots, hshows, hinv⟩ := h
  obtain ⟨pre, slot, post, rfl, hzone, hinUse, hset⟩ := hshows.split hi
  obtain ⟨slot', rfl, rfl, hgood, hframe⟩ := hop slot _ hzone hinUse hinv.good
  exact ⟨pre ++ slot' :: post, hset slot' m, hinv.set hgood hframe⟩

theorem Unused.room (h : w.Unused c e) (hshows : w.Shows (pre ++ slot :: post))
    (hinv : Inv c (pre ++ slot :: post) w.m) : Room c slot (extentsOf (pre ++ post)) w.m e := by
  have helements := hshows.elements hinv
  have hperm := extentsOf_perm pre slot post
  refine ⟨?_, h.placed, fun _ => h.away⟩
  intro a
  have hcount := hinv.good.apart a
  simp only [List.cons_append, count_cons] at hcount ⊢
  by_cases ha : e.Has a
  . obtain ⟨hspace, hothers⟩ := h.apart a ha
    have hzero : count (slot.extents ++ extentsOf (pre ++ post)) a = 0 := by
      rw [count, List.countP_eq_zero]
      intro f hf hhas
      apply hothers f _ (of_decide_eq_true hhas)
      rw [helements]
      exact hperm.mem_iff.2 hf
    rw [if_neg hspace, if_pos ha, hzero]
  . rw [if_neg ha]
    omega

theorem elemSize_pos (size max alloc : Nat) (pageable collectable exhaustible fixed : Bool)
    : 0 < (zinit size max alloc pageable collectable exhaustible fixed).elemSize := by
  show 0 < (if size = 0 then 4 else size) - 1 + 4 - ((if size = 0 then 4 else size) - 1) % 4
  omega

theorem Ok.step (h : Ok c w) (hstep : Step c w w') : Ok c w' := by
  cases hstep with
  | zinit size max alloc pageable collectable exhaustible fixed hsize =>
    obtain ⟨slots, hshows, hinv⟩ := h
    refine ⟨slots ++ [⟨zinit size max alloc pageable collectable exhaustible fixed, [], []⟩], ?_, ?_⟩
    . show w.zones ++ [(zinit size max alloc pageable collectable exhaustible fixed, [])] = _
      rw [hshows, List.map_append]
      rfl
    . exact hinv.snoc (Linked.nil_iff.2 rfl) (elemSize_pos ..) hsize rfl rfl rfl
  | zalloc hi heq =>
    apply h.set hi
    rintro slot others rfl rfl hgood
    obtain ⟨slot', hz, hinUse, h', hframe⟩ := hgood.zalloc heq
    exact ⟨slot', hz, hinUse.symm, h', hframe⟩
  | zget hi =>
    apply h.set hi
    rintro slot others rfl rfl hgood
    obtain ⟨slot', hz, hinUse, h'⟩ := hgood.removeFromZone rfl
    exact ⟨slot', hz, hinUse.symm, h', .refl⟩
  | zfree hi helem =>
    apply h.set hi
    rintro slot others rfl rfl hgood
    obtain ⟨slot', heq, hinUse, h', hframe⟩ := hgood.zfree helem
    exact ⟨slot', congrArg Prod.fst heq, hinUse.symm, h', hframe⟩
  | zcram hi hunused heq =>
    obtain ⟨slots, hshows, hinv⟩ := h
    obtain ⟨pre, slot, post, rfl, rfl, rfl, hset⟩ := hshows.split hi
    obtain ⟨slot', rfl, hinUse, hgood, hframe⟩ := hinv.good.zcram (fun _ => hunused.room hshows hinv) heq
    rw [← hinUse]
    exact ⟨pre ++ slot' :: post, hset slot' _, hinv.set hgood hframe⟩
  | kmemAlloc heq =>
    obtain ⟨slots, hshows, hinv⟩ := h
    exact ⟨slots, hshows, hinv.kmemAlloc heq⟩
  | @write a x ha =>
    obtain ⟨slots, hshows, hinv⟩ := h
    refine ⟨slots, hshows, ?_, hinv.size_pos, hinv.size, hinv.apart, hinv.placed, hinv.exact, hinv.away, hinv.fits,
      hinv.space.congr⟩
    intro slot hslot
    apply (hinv.linked slot hslot).congr
    intro b hb
    have hentry : (slot.zone, slot.inUse) ∈ w.zones := by
      rw [hshows]
      exact List.mem_map_of_mem (f := fun slot : Slot => (slot.zone, slot.inUse)) hslot
    have hne : b ≠ a := by
      rintro rfl
      apply ha _ hentry b
      . rw [hinv.freeList hslot]
        exact hb
      . exact ⟨Nat.le_refl _, Nat.lt_add_of_pos_right (hinv.size_pos slot hslot)⟩
    exact congrArg ptr (Function.update_of_ne hne _ _)
  | zoneGc heq =>
    obtain ⟨slots, hshows, hinv⟩ := h
    obtain ⟨results, m', pages, slots', hgc, h', hswept, -⟩ := hinv.zoneGc
    rw [hshows.zones_fst, hgc] at heq
    cases heq
    exact ⟨slots', hshows.swept hswept, h'⟩

theorem Booted.run (h : Booted c w) (hrun : Relation.ReflTransGen (Step c) w w') : Ok c w' := by
  induction hrun with
  | refl => exact h.ok
  | tail _ hstep ih => exact ih.step hstep

structure Collects (c : ZoneMap) (w : World) (results : List (Zone × List Nat)) (m : Shared) (pages : List Nat)
    : Prop where
  nodup : pages.Nodup
  held : ∀ p ∈ pages, p < c.zonePages ∧ w.m.held p = true
  zones : ∀ (i : Nat) (zone : Zone) (inUse : List Nat), w.zones[i]? = some (zone, inUse) →
    ∃ (z : Zone) (collected : List Nat), results[i]? = some (z, collected) ∧ z.elemSize = zone.elemSize ∧
    (∀ elem ∈ collected, elem ∈ zone.freeList w.m.mem) ∧
    z.freeList m.mem = (zone.freeList w.m.mem).filter (· ∉ collected) ∧
    z.curSize = z.elemSize * (inUse ++ z.freeList m.mem).length ∧
    ∀ p ∈ pages, ∀ elem ∈ inUse ++ z.freeList m.mem, ∀ a, (c.pageExtent p).Has a →
      ¬ (⟨elem, z.elemSize⟩ : Extent).Has a

theorem zoneGc_collects (c : ZoneMap) (w w' : World) (hboot : Booted c w) (hrun : Relation.ReflTransGen (Step c) w w')
    : ∃ results m pages, zoneGc c (w'.zones.map Prod.fst) w'.m = some (results, m, pages) ∧
        Collects c w' results m pages := by
  obtain ⟨slots, hshows, hinv⟩ := hboot.run hrun
  obtain ⟨results, m, pages, slots', hgc, h', hswept, hnodup, hpages⟩ := hinv.zoneGc
  refine ⟨results, m, pages, hshows.zones_fst ▸ hgc, hnodup, fun p hp => ⟨(hpages p hp).1, (hpages p hp).2.1⟩, ?_⟩
  intro i zone inUse hi
  rw [hshows, List.getElem?_map, Option.map_eq_some_iff] at hi
  obtain ⟨slot, hslot, heq⟩ := hi
  cases heq
  obtain ⟨slot', ⟨z, collected⟩, hslot', hresult, hzone, hsize, hinUse, hsub, hfree⟩ := hswept.get hslot
  subst hzone
  have hmem := List.mem_of_getElem? hslot
  have hmem' := List.mem_of_getElem? hslot'
  have hlist := h'.freeList hmem'
  refine ⟨slot'.zone, collected, hresult, hsize, hinv.freeList hmem ▸ hsub, ?_, ?_, ?_⟩
  . rw [hlist, hfree, hinv.freeList hmem]
  . rw [hlist, List.length_append, ← hinUse]
    exact h'.size slot' hmem'
  . intro p hp elem helem a hpage hhas
    obtain ⟨hlt, -, hnone⟩ := hpages p hp
    rw [hlist, ← hinUse, List.mem_append] at helem
    have he := mem_extentsOf.2 ⟨slot', hmem', Slot.mem_extents.2 ⟨elem, helem, rfl⟩⟩
    obtain houtside | hinside := (h'.placed _ he).side
    . exact ZoneMap.not_has_of_apart hlt houtside hpage hhas
    . apply ZoneMap.touching_eq_zero_iff.1 hnone _ he
      exact (ZoneMap.on_iff hinside (h'.size_pos slot' hmem')).2 ⟨a, hpage, hhas⟩

def smallMap : ZoneMap where
  minAddress := 0x10000
  maxAddress := 0x20000
  pos := by decide
  le := by decide
  aligned := by decide
  bound := by decide

def started : World where
  zones := []
  m := ⟨fun _ => ⟨0, zonePageUnused⟩, fun _ => 0, 0x1000, 0x1000, fun _ => false⟩

theorem started_booted : Booted smallMap started where
  zones := rfl
  table _ _ := rfl
  held _ := rfl
  pos := by decide
  le := by decide
  bound := by decide
  side := by decide

def twoPages : Zone := zinit 3000 8192 8192 false true false false

theorem zalloc_twoPages : ∃ z m, zalloc smallMap [0x10000] twoPages started.m = some (z, m, 0x10bb8) := ⟨_, _, rfl⟩

theorem zoneGc_collects_twoPages : ∃ w, Relation.ReflTransGen (Step smallMap) started w ∧ w.zones.map Prod.snd = [[]] ∧
        ∃ results m pages, zoneGc smallMap (w.zones.map Prod.fst) w.m = some (results, m, pages) ∧
          Collects smallMap w results m pages := by
  obtain ⟨z, m, heq⟩ := zalloc_twoPages
  have h1 : Step smallMap started ⟨[(twoPages, [])], started.m⟩ :=
    .zinit started 3000 8192 8192 false true false false (by decide)
  have h2 : Step smallMap ⟨[(twoPages, [])], started.m⟩ ⟨[(z, [0x10bb8])], m⟩ :=
    Step.zalloc (w := ⟨[(twoPages, [])], started.m⟩) (i := 0) rfl heq
  have h3 : Step smallMap ⟨[(z, [0x10bb8])], m⟩ ⟨[((zfree z 0x10bb8 m).1, [])], (zfree z 0x10bb8 m).2⟩ :=
    Step.zfree (i := 0) rfl (List.mem_singleton.2 rfl)
  have hrun := ((Relation.ReflTransGen.single h1).tail h2).tail h3
  exact ⟨_, hrun, rfl, zoneGc_collects smallMap started _ started_booted hrun⟩

theorem elements_disjoint (hboot : Booted c w) (hrun : Relation.ReflTransGen (Step c) w w')
    : (∀ a, count (w'.m.space :: w'.elements) a ≤ 1) ∧ (∀ e ∈ w'.elements, Placed c w'.m.held e) ∧
        Exact c w'.m.table w'.elements ∧ ∀ entry ∈ w'.zones,
          entry.1.curSize = entry.1.elemSize * (entry.2 ++ entry.1.freeList w'.m.mem).length := by
  obtain ⟨slots, hshows, hinv⟩ := hboot.run hrun
  rw [hshows.elements hinv]
  refine ⟨hinv.apart, hinv.placed, hinv.exact, ?_⟩
  intro entry hentry
  rw [hshows, List.mem_map] at hentry
  obtain ⟨slot, hslot, rfl⟩ := hentry
  rw [hinv.freeList hslot, List.length_append]
  exact hinv.size slot hslot

theorem elements_disjoint_twoPages : ∃ w, Relation.ReflTransGen (Step smallMap) started w ∧
      w.zones.map Prod.snd = [[0x10bb8]] ∧ ∀ a, count (w.m.space :: w.elements) a ≤ 1 := by
  obtain ⟨z, m, heq⟩ := zalloc_twoPages
  have hzinit : Step smallMap started ⟨[(twoPages, [])], started.m⟩ :=
    .zinit started 3000 8192 8192 false true false false (by decide)
  have hrun := (Relation.ReflTransGen.single hzinit).tail (Step.zalloc (i := 0) rfl heq)
  exact ⟨_, hrun, rfl, (elements_disjoint started_booted hrun).1⟩

end World

end Kern.Zalloc
