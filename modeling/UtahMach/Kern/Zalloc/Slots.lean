import UtahMach.Kern.Zalloc.Pages

/-!
This module contains a zone with its elements in the surroundings of all other elements.
-/

namespace Kern.Zalloc

open Extent

open Vm (pageSize)

variable {c : ZoneMap} {m m' : Shared}

def ptr (x : Nat) : Option Nat := if x = 0 then none else some x

def link (mem : Nat → Nat) (a : Nat) : Option Nat := ptr (mem a)

structure Slot where
  zone : Zone
  inUse : List Nat
  free : List Nat

def Zone.extents (zone : Zone) (elements : List Nat) : List Extent := elements.map fun a => ⟨a, zone.elemSize⟩

def Slot.extents (slot : Slot) : List Extent := slot.zone.extents (slot.inUse ++ slot.free)

def Shared.space (m : Shared) : Extent := ⟨m.nextSpace, m.endOfSpace - m.nextSpace⟩

structure Placed (c : ZoneMap) (held : Nat → Bool) (e : Extent) : Prop where
  pos : 0 < e.addr
  bound : e.addr + e.size ≤ 2 ^ 32
  side : (e.addr + e.size ≤ c.minAddress ∨ c.maxAddress ≤ e.addr) ∨ ¬ c.Outside e.addr e.size
  held : ∀ i, c.On i e → held i = true

structure SpaceOk (c : ZoneMap) (m : Shared) : Prop where
  le : m.nextSpace ≤ m.endOfSpace
  pos : 0 < m.nextSpace
  bound : m.endOfSpace ≤ 2 ^ 32
  side : (m.endOfSpace < c.minAddress ∨ c.maxAddress ≤ m.nextSpace) ∨
    c.minAddress ≤ m.nextSpace ∧ m.endOfSpace ≤ c.maxAddress
  held : m.nextSpace < m.endOfSpace → ∀ i, c.On i m.space → m.held i = true

def Zone.collected (zone : Zone) : Prop := zone.collectable = true ∧ zone.pageable = false

def Away (c : ZoneMap) (zone : Zone) (m : Shared) (e : Extent) : Prop :=
  zone.collected → m.nextSpace < m.endOfSpace → ∀ i, c.On i m.space → ¬ c.On i e

structure Good (c : ZoneMap) (slot : Slot) (others : List Extent) (m : Shared) : Prop where
  linked : Linked (link m.mem) (ptr slot.zone.freeElements) slot.free
  size_pos : 0 < slot.zone.elemSize
  others_pos : ∀ e ∈ others, 0 < e.size
  size : slot.zone.curSize = slot.zone.elemSize * (slot.inUse.length + slot.free.length)
  apart : ∀ a, Extent.count (m.space :: slot.extents ++ others) a ≤ 1
  placed : ∀ e ∈ slot.extents ++ others, Placed c m.held e
  exact : Exact c m.table (slot.extents ++ others)
  away : ∀ e ∈ slot.extents, Away c slot.zone m e
  fits : slot.zone.elemSize + max m.endOfSpace c.maxAddress < 2 ^ 32
  space : SpaceOk c m

structure Frame (c : ZoneMap) (others : List Extent) (m m' : Shared) : Prop where
  mem : ∀ e ∈ others, m'.mem e.addr = m.mem e.addr
  space : ∀ i, m'.nextSpace < m'.endOfSpace → c.On i m'.space →
    m.nextSpace < m.endOfSpace ∧ c.On i m.space ∨ c.touching others i = 0
  last : m'.endOfSpace ≤ max m.endOfSpace c.maxAddress

namespace Frame

variable {others : List Extent} {m'' : Shared}

theorem refl : Frame c others m m := ⟨fun _ _ => rfl, fun _ hlt hon => Or.inl ⟨hlt, hon⟩, Nat.le_max_left ..⟩

theorem trans (h : Frame c others m m') (h' : Frame c others m' m'') : Frame c others m m'' := by
  refine ⟨fun e he => (h'.mem e he).trans (h.mem e he), fun i hlt hon => ?_, ?_⟩
  . obtain ⟨hlt', hon'⟩ | hnone := h'.space i hlt hon
    . exact h.space i hlt' hon'
    . exact Or.inr hnone
  . exact h'.last.trans (max_le h.last (Nat.le_max_right ..))

end Frame

namespace Slot

variable {slot : Slot} {e : Extent}

theorem mem_extents : e ∈ slot.extents ↔ ∃ a, (a ∈ slot.inUse ∨ a ∈ slot.free) ∧ e = ⟨a, slot.zone.elemSize⟩ := by
  rw [extents, Zone.extents, List.mem_map]
  constructor
  . rintro ⟨a, ha, rfl⟩
    exact ⟨a, List.mem_append.1 ha, rfl⟩
  . rintro ⟨a, ha, rfl⟩
    exact ⟨a, List.mem_append.2 ha, rfl⟩

theorem size_of_mem (h : e ∈ slot.extents) : e.size = slot.zone.elemSize := by
  obtain ⟨a, -, rfl⟩ := mem_extents.1 h
  rfl

end Slot

namespace Good

variable {slot : Slot} {others : List Extent} {e : Extent} {a : Nat}

section

variable (h : Good c slot others m)
include h

theorem pos (he : e ∈ slot.extents ++ others) : 0 < e.size := by
  obtain he | he := List.mem_append.1 he
  . rw [Slot.size_of_mem he]
    exact h.size_pos
  . exact h.others_pos e he

theorem touching_le (i : Nat) : c.touching (slot.extents ++ others) i ≤ 4096 := by
  apply ZoneMap.touching_le
  . intro e he
    exact h.pos he
  . intro a
    have := h.apart a
    rw [List.cons_append, count_cons] at this
    omega

theorem disjoint (he : e ∈ slot.extents) (ha : e.Has a) {f : Extent} (hf : f ∈ others) : ¬ f.Has a := by
  intro hfa
  have hcount := h.apart a
  rw [List.cons_append, count_cons, count_append] at hcount
  have h1 := count_pos he ha
  have h2 := count_pos hf hfa
  omega

theorem addr_notMem (ha : a ∈ slot.inUse ∨ a ∈ slot.free) {f : Extent} (hf : f ∈ others) : f.addr ≠ a := by
  rintro rfl
  apply h.disjoint (Slot.mem_extents.2 ⟨f.addr, ha, rfl⟩) _ hf
  . exact ⟨Nat.le_refl _, Nat.lt_add_of_pos_right (h.others_pos f hf)⟩
  . exact ⟨Nat.le_refl _, Nat.lt_add_of_pos_right h.size_pos⟩

theorem nodup : (slot.inUse ++ slot.free).Nodup := by
  have hcount (a : Nat) : count slot.extents a ≤ 1 := by
    have := h.apart a
    rw [List.cons_append, count_cons, count_append] at this
    omega
  rw [Slot.extents, Zone.extents] at hcount
  generalize slot.inUse ++ slot.free = l at hcount
  induction l with
  | nil => exact .nil
  | cons b l ih =>
    rw [List.nodup_cons]
    constructor
    . intro hb
      have hlt := hcount b
      have hhas : (⟨b, slot.zone.elemSize⟩ : Extent).Has b := ⟨Nat.le_refl _, Nat.lt_add_of_pos_right h.size_pos⟩
      have hpos := count_pos (List.mem_map_of_mem (f := fun a => (⟨a, slot.zone.elemSize⟩ : Extent)) hb) hhas
      rw [List.map_cons, count_cons, if_pos hhas] at hlt
      omega
    . apply ih
      intro a
      have hlt := hcount a
      rw [List.map_cons, count_cons] at hlt
      omega

end

end Good

end Kern.Zalloc
