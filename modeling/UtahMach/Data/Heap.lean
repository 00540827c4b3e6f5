import UtahMach.Data.Prog
import UtahMach.Data.Chain

/-!
This module contains heaps of records that refer to each other.
-/

@[ext]
structure Heap (α : Type) where
  live : Finset Nat
  object : Nat → α
  next : Nat
  lt_next : ∀ a ∈ live, a < next

namespace Heap

open Function (update update_of_ne update_self)

variable {α : Type} (h : Heap α) {a b c : Nat} {x : α} (link : α → Option Nat)

def get (a : Nat) : Except Stop α := if a ∈ h.live then .ok (h.object a) else .error .undefined

def set (a : Nat) (x : α) : Heap α := { h with object := update h.object a x }

def modify (a : Nat) (f : α → α) : Heap α := h.set a (f (h.object a))

def free (a : Nat) : Heap α where
  live := h.live.erase a
  object := h.object
  next := h.next
  lt_next := fun b hb => h.lt_next b (Finset.mem_of_mem_erase hb)

def allocate (x : α) : Heap α where
  live := insert h.next h.live
  object := update h.object h.next x
  next := h.next + 1
  lt_next := by
    intro b hb
    obtain rfl | hb := Finset.mem_insert.1 hb
    . exact Nat.lt_succ_self _
    . exact Nat.lt_succ_of_lt (h.lt_next b hb)

variable {h}

theorem get_bind (ha : a ∈ h.live) (f : α → Except Stop β) : (h.get a >>= f) = f (h.object a) := by
  rw [get, if_pos ha]
  rfl

@[simp] theorem live_set : (h.set a x).live = h.live := rfl

@[simp] theorem object_set_self : (h.set a x).object a = x := update_self ..

theorem object_set_of_ne (hne : b ≠ a) : (h.set a x).object b = h.object b := update_of_ne hne ..

theorem object_set (b : Nat) : (h.set a x).object b = if b = a then x else h.object b := Function.update_apply ..

variable {f : α → α}

@[simp] theorem live_modify : (h.modify a f).live = h.live := rfl

@[simp] theorem object_modify_self : (h.modify a f).object a = f (h.object a) := object_set_self

theorem object_modify_of_ne (hne : b ≠ a) : (h.modify a f).object b = h.object b := object_set_of_ne hne

theorem object_modify (b : Nat) : (h.modify a f).object b = if b = a then f (h.object a) else h.object b := object_set b

theorem modify_part (g : α → γ) (hg : g (f (h.object a)) = g (h.object a))
    (b : Nat) : g ((h.modify a f).object b) = g (h.object b) := by
  by_cases hb : b = a
  . rw [hb, object_modify_self, hg]
  . rw [object_modify_of_ne hb]

@[simp] theorem live_free : (h.free a).live = h.live.erase a := rfl

@[simp] theorem object_free : (h.free a).object = h.object := rfl

@[simp] theorem live_allocate : (h.allocate x).live = insert h.next h.live := rfl

@[simp] theorem object_allocate_self : (h.allocate x).object h.next = x := update_self ..

theorem next_notMem : h.next ∉ h.live := fun hmem => Nat.lt_irrefl _ (h.lt_next _ hmem)

theorem ne_next (ha : a ∈ h.live) : a ≠ h.next := Nat.ne_of_lt (h.lt_next a ha)

theorem object_allocate_of_ne (hne : a ≠ h.next) : (h.allocate x).object a = h.object a := update_of_ne hne ..

def links (h : Heap α) (a : Nat) : Option Nat := if a ∈ h.live then link (h.object a) else none

def linkers (h : Heap α) (a : Nat) : Nat := ∑ b ∈ h.live, if link (h.object b) = some a then 1 else 0

variable {link}

theorem links_of_mem (ha : a ∈ h.live) : h.links link a = link (h.object a) := if_pos ha

theorem links_of_notMem (ha : a ∉ h.live) : h.links link a = none := if_neg ha

theorem mem_of_links (hlink : h.links link a = some b) : a ∈ h.live ∧ link (h.object a) = some b := by
  rw [links] at hlink
  split at hlink
  . next ha => exact ⟨ha, hlink⟩
  . contradiction

theorem links_set (ha : a ∈ h.live) (x : α) : (h.set a x).links link = update (h.links link) a (link x) := by
  funext b
  by_cases hb : b = a
  . subst hb
    rw [update_self, links_of_mem (show b ∈ (h.set b x).live from ha), object_set_self]
  . rw [update_of_ne hb, links, links, live_set, object_set_of_ne hb]

theorem links_free : (h.free a).links link = update (h.links link) a none := by
  funext b
  by_cases hb : b = a
  . subst hb
    rw [update_self]
    exact links_of_notMem (Finset.notMem_erase b _)
  . rw [update_of_ne hb, links, links, live_free, object_free]
    simp [hb]

theorem links_allocate (x : α) : (h.allocate x).links link = update (h.links link) h.next (link x) := by
  funext b
  by_cases hb : b = h.next
  . subst hb
    rw [update_self, links_of_mem (Finset.mem_insert_self _ _), object_allocate_self]
  . rw [update_of_ne hb, links, links, live_allocate, object_allocate_of_ne hb]
    simp [hb]

variable (link)

theorem links_modify {f : α → α} (hlink : link (f (h.object a)) = link (h.object a))
    : (h.modify a f).links link = h.links link := by
  funext b
  rw [links, links, live_modify, modify_part link hlink]

-- a record is counted apart from the others
theorem linkers_eq (ha : a ∈ h.live) (c : Nat) : h.linkers link c = (if link (h.object a) = some c then 1 else 0)
        + ∑ b ∈ h.live.erase a, if link (h.object b) = some c then 1 else 0 :=
  (Finset.add_sum_erase h.live (fun b => if link (h.object b) = some c then 1 else 0) ha).symm

theorem linkers_set (ha : a ∈ h.live) (x : α) (c : Nat)
    : (h.set a x).linkers link c + (if link (h.object a) = some c then 1 else 0)
        = h.linkers link c + if link x = some c then 1 else 0 := by
  have hset := linkers_eq (h := h.set a x) link ha c
  have hrest : ∑ b ∈ h.live.erase a, (if link ((h.set a x).object b) = some c then 1 else 0)
      = ∑ b ∈ h.live.erase a, if link (h.object b) = some c then 1 else 0 := by
    apply Finset.sum_congr rfl
    intro b hb
    rw [object_set_of_ne (Finset.ne_of_mem_erase hb)]
  rw [object_set_self, live_set, hrest] at hset
  rw [hset, linkers_eq link ha c]
  omega

theorem linkers_congr {h' : Heap α} (hlive : h'.live = h.live)
    (hlink : ∀ b ∈ h.live, link (h'.object b) = link (h.object b)) (c : Nat)
    : h'.linkers link c = h.linkers link c := by
  rw [linkers, linkers, hlive]
  apply Finset.sum_congr rfl
  intro b hb
  rw [hlink b hb]

theorem linkers_modify {f : α → α} (hlink : link (f (h.object a)) = link (h.object a)) (c : Nat)
    : (h.modify a f).linkers link c = h.linkers link c :=
  linkers_congr link live_modify (fun b _ => modify_part link hlink b) c

theorem linkers_free (ha : a ∈ h.live) (c : Nat)
    : (h.free a).linkers link c + (if link (h.object a) = some c then 1 else 0) = h.linkers link c := by
  rw [linkers_eq link ha c, Nat.add_comm]
  rfl

theorem linkers_allocate (x : α) (c : Nat)
    : (h.allocate x).linkers link c = h.linkers link c + if link x = some c then 1 else 0 := by
  have hrest : ∑ b ∈ h.live, (if link ((h.allocate x).object b) = some c then 1 else 0)
      = ∑ b ∈ h.live, if link (h.object b) = some c then 1 else 0 := by
    apply Finset.sum_congr rfl
    intro b hb
    rw [object_allocate_of_ne (ne_next hb)]
  rw [linkers, live_allocate, Finset.sum_insert next_notMem, object_allocate_self, hrest, Nat.add_comm]
  rfl

variable {link}

theorem eq_of_linkers_le_one (h1 : h.linkers link c ≤ 1) (ha : a ∈ h.live) (hb : b ∈ h.live)
    (hlinka : link (h.object a) = some c) (hlinkb : link (h.object b) = some c) : a = b := by
  by_contra hne
  have hcount := linkers_eq link ha c
  have hle : (if link (h.object b) = some c then 1 else 0)
      ≤ ∑ b ∈ h.live.erase a, if link (h.object b) = some c then 1 else 0 :=
    Finset.single_le_sum (f := fun b => if link (h.object b) = some c then 1 else 0)
      (fun _ _ => Nat.zero_le _) (Finset.mem_erase.2 ⟨Ne.symm hne, hb⟩)
  rw [if_pos hlinka] at hcount
  rw [if_pos hlinkb] at hle
  omega

theorem linkers_pos (ha : a ∈ h.live) (hlink : link (h.object a) = some c) : 0 < h.linkers link c := by
  rw [linkers_eq link ha c, if_pos hlink]
  omega

end Heap
