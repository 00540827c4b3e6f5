import UtahMach.Vm.Object.Fault

/-!
This module contains the changes that faults and copies make to the graph of the objects.
-/

open Chain

namespace Vm

open Heap (modify_part ne_next)

open VmObject

variable {β : Type} {a b c o : Nat} {s : Option Nat} {h h' : Objects β} {outside : Nat → Nat}

namespace Objects

theorem addOutside_none : addOutside outside none = outside := by
  funext x
  simp [addOutside]

theorem addOutside_self : addOutside outside (some a) a = outside a + 1 := by
  simp [addOutside]

theorem addOutside_of_ne (hx : x ≠ a) : addOutside outside (some a) x = outside x := by
  simp [addOutside, Ne.symm hx]

variable {d : β}

theorem object_setPage_self : (h.setPage a o d).object a
    = { h.object a with memq := (h.object a).memq.insert o (.resident d) } := Heap.object_set_self

theorem object_setPage_of_ne (hx : x ≠ a) : (h.setPage a o d).object x = h.object x :=
  Heap.object_set_of_ne hx

theorem setPage_part {γ : Type} (g : VmObject β → γ)
    (hg : g { h.object a with memq := (h.object a).memq.insert o (.resident d) } = g (h.object a)) (x : Nat)
    : g ((h.setPage a o d).object x) = g (h.object x) :=
  modify_part (h := h) (a := a) (f := fun x => { x with memq := x.memq.insert o (.resident d) }) g hg x

-- everything but the pages is as before
theorem object_setPage : (h.setPage a o d).object x
    = { h.object x with memq := ((h.setPage a o d).object x).memq } := by
  by_cases hx : x = a
  . rw [hx, object_setPage_self]
  . rw [object_setPage_of_ne hx]

theorem lookup_setPage_self : ((h.setPage a o d).object a).memq.lookup o = some (.resident d) := by
  rw [object_setPage_self]
  exact AList.lookup_insert _

theorem lookup_setPage_of_ne {p : Nat × Nat} (hp : p ≠ (a, o))
    : ((h.setPage a o d).object p.1).memq.lookup p.2 = (h.object p.1).memq.lookup p.2 := by
  by_cases hx : p.1 = a
  . rw [hx, object_setPage_self]
    apply AList.lookup_insert_ne
    rintro rfl
    exact hp (Prod.ext hx rfl)
  . rw [object_setPage_of_ne hx]

theorem nextPlace_setPage : (h.setPage a o d).nextPlace = h.nextPlace := by
  funext p
  have hlinks : (h.setPage a o d).links shadow = h.links shadow := by
    funext x
    rw [Heap.links, Heap.links, setPage_part shadow rfl]
    rfl
  rw [nextPlace, nextPlace, hlinks, setPage_part shadowOffset rfl]

theorem ownContents_setPage_of_ne (pagers : Pagers β) {p : Nat × Nat} (hp : p ≠ (a, o))
    : (h.setPage a o d).ownContents pagers p = h.ownContents pagers p := by
  have hlookup := lookup_setPage_of_ne (h := h) (d := d) hp
  have hcontents : ((h.setPage a o d).object p.1).pagerContents pagers p.2
      = (h.object p.1).pagerContents pagers p.2 := by rw [object_setPage]; rfl
  rw [ownContents, ownContents, contents, contents, hlookup, hcontents]
  rfl

theorem ownContents_setPage_self (pagers : Pagers β) (ha : a ∈ h.live)
    : (h.setPage a o d).ownContents pagers (a, o) = some d := by
  rw [ownContents, if_pos (show a ∈ (h.setPage a o d).live from ha), contents_of_resident lookup_setPage_self]

theorem reads_setPage_iff {zero : β} (hwf : WellFormed outside h) (ha : a ∈ h.live)
    (hd : h.Reads pagers zero (a, o) d) (p : Nat × Nat) (e : β)
    : h.Reads pagers zero p e ↔ (h.setPage a o d).Reads pagers zero p e := by
  rw [Reads, Reads, nextPlace_setPage]
  exact Finds.fill_iff (acyclic_nextPlace hwf.acyclic) (fun q hq => ownContents_setPage_of_ne pagers hq)
    (ownContents_setPage_self pagers ha) hd p

def setCopy (h : Objects β) (a : Nat) (c : Option Nat) : Objects β := h.modify a fun x => { x with copy := c }

def relink (h : Objects β) (a : Nat) (s : Option Nat) (offset : Nat) (shadowed : Bool) : Objects β :=
  h.modify a fun x => { x with shadow := s, shadowOffset := offset, shadowed }

theorem WellFormed.setCopy (hwf : WellFormed outside h) (hc : ∀ c ∈ s, c ∈ h.live ∧ (h.object c).shadow = some a
      ∧ ∀ b ∈ h.live, (h.object b).shadow = some a → b = c) : WellFormed outside (h.setCopy a s) where
  acyclic := by
    rw [Objects.setCopy, Heap.links_modify shadow rfl]
    exact hwf.acyclic
  linked := by
    intro x hx y hy
    rw [Objects.setCopy, modify_part shadow rfl] at hy
    exact hwf.linked x hx y hy
  counted := by
    intro x hx
    rw [Objects.setCopy, Heap.linkers_modify shadow rfl, modify_part refCount rfl]
    exact hwf.counted x hx
  copies := by
    intro x hx c hcopy
    rw [Objects.setCopy, modify_part shadow rfl]
    have hfacts : c ∈ h.live ∧ (h.object c).shadow = some x
        ∧ ∀ b ∈ h.live, (h.object b).shadow = some x → b = c := by
      by_cases hxa : x = a
      . subst hxa
        rw [Objects.setCopy, Heap.object_modify_self] at hcopy
        exact hc c hcopy
      . rw [Objects.setCopy, Heap.object_modify_of_ne hxa] at hcopy
        exact hwf.copies x hx c hcopy
    refine ⟨hfacts.1, hfacts.2.1, ?_⟩
    intro b hb hshadow
    rw [modify_part shadow rfl] at hshadow
    exact hfacts.2.2 b hb hshadow
  noPager := by
    intro x hx
    rw [Objects.setCopy, modify_part pagerCreated rfl, modify_part pager rfl,
      modify_part existenceInfo rfl, modify_part memq rfl]
    exact hwf.noPager x hx

theorem allocate_new {size : Nat} : (Objects.allocate h size).object h.next = { (template : VmObject β) with size } :=
  Heap.object_allocate_self

theorem allocate_old {size : Nat} (hx : x ∈ h.live) : (Objects.allocate h size).object x = h.object x :=
  Heap.object_allocate_of_ne (ne_next hx)

theorem WellFormed.allocate (hwf : WellFormed outside h) (hnext : outside h.next = 0) (size : Nat)
    : WellFormed (addOutside outside (some h.next)) (Objects.allocate h size) := by
  have hshadow : ∀ x ∈ (Objects.allocate h size).live, ∀ y,
      ((Objects.allocate h size).object x).shadow = some y → x ∈ h.live ∧ (h.object x).shadow = some y := by
    intro x hx y hy
    obtain rfl | hx := Finset.mem_insert.1 hx
    . rw [allocate_new] at hy
      contradiction
    . rw [allocate_old hx] at hy
      exact ⟨hx, hy⟩
  refine ⟨?_, ?_, ?_, ?_, ?_⟩
  . rw [Objects.allocate, Heap.links_allocate]
    exact hwf.acyclic.update_none h.next
  . intro x hx y hy
    obtain ⟨hx, hy⟩ := hshadow x hx y hy
    exact Finset.mem_insert_of_mem (hwf.linked x hx y hy)
  . intro x hx
    have hlinkers : (Objects.allocate h size).linkers shadow x = h.linkers shadow x := by
      rw [Objects.allocate, Heap.linkers_allocate]
      exact Nat.add_zero _
    rw [hlinkers]
    obtain rfl | hx := Finset.mem_insert.1 hx
    . have hzero : h.linkers shadow h.next = 0 := by
        apply Finset.sum_eq_zero
        intro y hy
        apply if_neg
        exact fun hlink => Heap.next_notMem (hwf.linked y hy _ hlink)
      rw [allocate_new, addOutside_self, hnext, hzero]
      rfl
    . rw [allocate_old hx, addOutside_of_ne (ne_next hx)]
      exact hwf.counted x hx
  . intro x hx c hcopy
    obtain rfl | hx := Finset.mem_insert.1 hx
    . rw [allocate_new] at hcopy
      contradiction
    . rw [allocate_old hx] at hcopy
      obtain ⟨hc, hcshadow, hunique⟩ := hwf.copies x hx c hcopy
      refine ⟨Finset.mem_insert_of_mem hc, ?_, ?_⟩
      . rw [allocate_old hc]
        exact hcshadow
      . intro y hy hyshadow
        obtain ⟨hy, hyshadow⟩ := hshadow y hy x hyshadow
        exact hunique y hy hyshadow
  . intro x hx
    obtain rfl | hx := Finset.mem_insert.1 hx
    . rw [allocate_new]
      exact fun _ => ⟨rfl, rfl, fun _ => nofun⟩
    . rw [allocate_old hx]
      exact hwf.noPager x hx

theorem WellFormed.relink (hwf : WellFormed (addOutside outside s) h) (offset : Nat) (shadowed : Bool)
    (ha : a ∈ h.live) (hs : ∀ b ∈ s, b ∈ h.live ∧ ¬ Reaches (h.links shadow) b a)
    (hold : ∀ b ∈ (h.object a).shadow, (h.object b).copy = none) (hnew : ∀ b ∈ s, (h.object b).copy = none)
    : WellFormed (addOutside outside (h.object a).shadow) (h.relink a s offset shadowed) where
  acyclic := by
    rw [Objects.relink, Heap.modify, Heap.links_set ha]
    cases s with
    | none => exact hwf.acyclic.update_none a
    | some b => exact hwf.acyclic.update_some (hs b rfl).2
  linked := by
    intro x hx y hy
    by_cases hxa : x = a
    . subst hxa
      rw [Objects.relink, Heap.object_modify_self] at hy
      exact (hs y hy).1
    . rw [Objects.relink, Heap.object_modify_of_ne hxa] at hy
      exact hwf.linked x hx y hy
  counted := by
    intro x hx
    have hcounted := hwf.counted x hx
    have hlinkers := Heap.linkers_set shadow ha { h.object a with shadow := s, shadowOffset := offset, shadowed } x
    rw [Objects.relink, modify_part refCount rfl, hcounted, Heap.modify, addOutside, addOutside]
    dsimp only at hlinkers
    omega
  copies := by
    intro x hx c hcopy
    rw [Objects.relink, modify_part copy rfl] at hcopy
    obtain ⟨hc, hcshadow, hunique⟩ := hwf.copies x hx c hcopy
    have hca : c ≠ a := by
      rintro rfl
      rw [hold x hcshadow] at hcopy
      contradiction
    refine ⟨hc, ?_, ?_⟩
    . rw [Objects.relink, Heap.object_modify_of_ne hca]
      exact hcshadow
    . intro y hy hyshadow
      by_cases hya : y = a
      . subst hya
        rw [Objects.relink, Heap.object_modify_self] at hyshadow
        rw [hnew x hyshadow] at hcopy
        contradiction
      . rw [Objects.relink, Heap.object_modify_of_ne hya] at hyshadow
        exact hunique y hy hyshadow
  noPager := by
    intro x hx
    rw [Objects.relink, modify_part pagerCreated rfl, modify_part pager rfl,
      modify_part existenceInfo rfl, modify_part memq rfl]
    exact hwf.noPager x hx

end Objects

end Vm
