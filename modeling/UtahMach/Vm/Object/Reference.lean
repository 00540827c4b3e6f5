import UtahMach.Vm.Object.Merge

/-!
This module contains the release of references to objects.
-/

open Chain

namespace Vm

open VmObject Heap

variable {β : Type} {a b c : Nat} {h h' : Objects β} {outside : Nat → Nat}

namespace Objects

def detach (h : Objects β) (a : Nat) : Option Nat → Except Stop (Objects β)
  | none => .ok h
  | some s => do
    let shadow ← h.get s
    Stop.check (shadow.copy = some a ∨ shadow.copy = none)
    .ok (h.set s { shadow with copy := none })

def terminate (h : Objects β) (a : Nat) : Except Stop (Objects β) := do
  let object ← h.get a
  let h ← Objects.detach h a object.shadow
  Stop.check (object.refCount = 0)
  .ok (h.free a)

def deallocateRounds : Nat → Objects β → Option Nat → Except Stop (Objects β)
  | _, h, none => .ok h
  | 0, _, some _ => .error .undefined
  | fuel + 1, h, some a => do
    let object ← h.get a
    let h : Objects β := h.set a { object with refCount := object.refCount - 1 }
    if 0 < object.refCount - 1 then
      .ok h
    else if object.canPersist then
      -- the object is cached
      .ok h
    else do
      -- a pager that is being initialized is waited for first
      let h ← h.terminate a
      deallocateRounds fuel h object.shadow

def deallocate (h : Objects β) (a : Option Nat) : Except Stop (Objects β) := deallocateRounds (h.live.card + 1) h a

def addOutside (outside : Nat → Nat) (s : Option Nat) (x : Nat) : Nat := outside x + if s = some x then 1 else 0

namespace Fewer

variable {p : Nat × Nat} {x : Nat}

theorem reads_iff (hf : Fewer ∅ h h') (hwf : WellFormed outside h') (pagers : Nat → Nat → Option β)
    (zero : β) (hp : p.1 ∈ h'.live) (d : β) : h.Reads pagers zero p d ↔ h'.Reads pagers zero p d := by
  apply Finds.standsFor_iff (S := { p | p.1 ∈ h'.live }) (acyclic_nextPlace hwf.acyclic) _ hp
  intro p hp
  refine .same (hf.ownContents pagers hp (Set.notMem_empty _)) (hf.nextPlace hp (Set.notMem_empty _)) ?_
  intro _ q hq
  rw [← hf.nextPlace hp (Set.notMem_empty _)] at hq
  exact hwf.linked p.1 hp q.1 (mem_of_links (links_of_nextPlace hq)).2

theorem windows (hf : Fewer ∅ h h') (hlinked : ∀ x ∈ h'.live, ∀ y ∈ (h'.object x).shadow, y ∈ h'.live)
    (hwin : Windows h) : Windows h' := by
  refine ⟨?_, ?_⟩
  . intro x hx
    rw [hf.same x hx (Set.notMem_empty _)]
    exact hwin.noWrap x (hf.live hx)
  . intro x hx y hy hinternal
    have hylive := hlinked x hx y hy
    rw [hf.same x hx (Set.notMem_empty _)] at hy ⊢
    rw [hf.same y hylive (Set.notMem_empty _)] at hinternal ⊢
    exact hwin.inside x (hf.live hx) y hy hinternal

end Fewer

def removed (h : Objects β) (a : Nat) : Objects β :=
  match (h.object a).shadow with
  | none => h.free a
  | some s => Heap.free (h.set s { h.object s with copy := none }) a

section Removed

variable {x : Nat}

theorem removed_live : (h.removed a).live = h.live.erase a := by
  rw [removed]
  split <;> rfl

theorem mem_removed : x ∈ (h.removed a).live ↔ x ≠ a ∧ x ∈ h.live := by
  rw [removed_live, Finset.mem_erase]

theorem removed_object (hx : (h.object a).shadow ≠ some x) : (h.removed a).object x = h.object x := by
  rw [removed]
  split
  . rfl
  . next s hs =>
    apply object_set_of_ne
    rintro rfl
    exact hx hs

theorem removed_object_shadow (hx : (h.object a).shadow = some x)
    : (h.removed a).object x = { h.object x with copy := none } := by
  rw [removed, hx]
  exact object_set_self

theorem removed_same : (h.removed a).object x = { h.object x with copy := ((h.removed a).object x).copy } := by
  by_cases hx : (h.object a).shadow = some x
  . rw [removed_object_shadow hx]
  . rw [removed_object hx]

theorem removed_fewer : Fewer ∅ h (h.removed a) where
  live := by
    rw [removed_live]
    exact Finset.erase_subset _ _
  same := by
    intro x _ _
    have hsame := removed_same (h := h) (a := a) (x := x)
    have href := congrArg refCount hsame
    rw [href]
    exact hsame

theorem removed_linkers (ha : a ∈ h.live) (x : Nat)
    : (h.removed a).linkers shadow x + (if (h.object a).shadow = some x then 1 else 0)
        = h.linkers shadow x := by
  rw [← linkers_free shadow ha x]
  congr 1
  apply linkers_congr shadow removed_live
  intro y _
  have hshadow := congrArg shadow (removed_same (h := h) (a := a) (x := y))
  exact hshadow

theorem removed_links : (h.removed a).links shadow
    = Function.update (h.links shadow) a none := by
  rw [← links_free]
  funext x
  have hshadow := congrArg shadow (removed_same (h := h) (a := a) (x := x))
  rw [links, links, removed_live, hshadow]
  rfl

theorem reaches_of_removed (hr : Reaches ((h.removed a).links shadow) b c) : Reaches (h.links shadow) b c := by
  apply Reaches.mono _ hr
  intro y z hlink
  rw [removed_links] at hlink
  by_cases hya : y = a
  . rw [hya, Function.update_self] at hlink
    contradiction
  . rwa [Function.update_of_ne hya] at hlink

end Removed

theorem WellFormed.removed (hwf : WellFormed outside h) (ha : a ∈ h.live) (hzero : h.linkers shadow a = 0)
    : WellFormed (addOutside outside (h.object a).shadow) (h.removed a) where
  acyclic := by
    rw [removed_links]
    exact hwf.acyclic.update_none a
  linked := by
    intro x hx y hy
    rw [mem_removed] at hx ⊢
    rw [removed_same] at hy
    have hshadow : (h.object x).shadow = some y := hy
    refine ⟨?_, hwf.linked x hx.2 y hshadow⟩
    rintro rfl
    have hpos := linkers_pos hx.2 hshadow
    omega
  counted := by
    intro x hx
    rw [mem_removed] at hx
    have hlinkers := removed_linkers ha x
    have hcounted := hwf.counted x hx.2
    rw [removed_same, addOutside]
    dsimp only
    omega
  copies := by
    intro x hx c hcopy
    rw [mem_removed] at hx ⊢
    have hxs : (h.object a).shadow ≠ some x := by
      intro hxs
      rw [removed_object_shadow hxs] at hcopy
      contradiction
    rw [removed_object hxs] at hcopy
    obtain ⟨hclive, hcshadow, hunique⟩ := hwf.copies x hx.2 c hcopy
    refine ⟨⟨?_, hclive⟩, ?_, ?_⟩
    . rintro rfl
      exact hxs hcshadow
    . rw [removed_same]
      exact hcshadow
    . intro y hy hyshadow
      rw [mem_removed] at hy
      rw [removed_same] at hyshadow
      exact hunique y hy.2 hyshadow
  noPager := by
    intro x hx
    rw [mem_removed] at hx
    rw [removed_same]
    exact hwf.noPager x hx.2

def setRefCount (h : Objects β) (a : Nat) (r : Int16) : Objects β := h.modify a fun x => { x with refCount := r }

theorem sameLinks_setRefCount (r : Int16) : SameLinks h (h.setRefCount a r) where
  live := rfl
  shadow := fun x _ => modify_part shadow rfl x
  copy := fun x _ => modify_part copy rfl x
  pagerCreated := fun x _ => modify_part pagerCreated rfl x
  pager := fun x _ => modify_part pager rfl x
  existenceInfo := fun x _ _ => modify_part existenceInfo rfl x

variable {r : Int16} {s : Option Nat}

theorem WellFormed.setRefCount (hwf : WellFormed outside h)
    (hr : r.toInt = outside' a + h.linkers shadow a) (hout : ∀ x ≠ a, outside' x = outside x)
    : WellFormed outside' (h.setRefCount a r) := by
  apply hwf.of_sameLinks (sameLinks_setRefCount r)
  . intro x hx
    rw [Objects.setRefCount]
    by_cases hxa : x = a
    . rw [hxa, object_modify_self]
      exact hr
    . rw [object_modify_of_ne hxa, hout x hxa]
      exact hwf.counted x hx
  . intro x hx hpager
    rw [Objects.setRefCount, modify_part memq rfl]
    exact (hwf.noPager x hx hpager).2.2

theorem setRefCount_fewer (r : Int16) : Fewer ∅ h (h.setRefCount a r) := by
  refine ⟨subset_rfl, ?_⟩
  intro x _ _
  rw [setRefCount]
  by_cases hx : x = a
  . rw [hx, object_modify_self]
  . rw [object_modify_of_ne hx]

structure Released (outside : Nat → Nat) (s : Option Nat) (h h' : Objects β) : Prop where
  wellFormed : WellFormed outside h'
  fewer : Fewer ∅ h h'
  freed : ∀ x ∈ h.live, x ∉ h'.live
    → outside x = 0 ∧ ∃ a ∈ s, Reaches (h.links VmObject.shadow) a x
  copy : ∀ x ∈ h'.live, (h'.object x).copy = (h.object x).copy
    ∨ (h'.object x).copy = none ∧ ∃ c ∈ (h.object x).copy, c ∉ h'.live
  persists : ∀ x ∈ h'.live, (h'.object x).refCount = 0
    → (h.object x).refCount = 0 ∨ (h.object x).canPersist

theorem Released.of_setRefCount (hwf : WellFormed outside (h.setRefCount a r)) (hr : r = 0 → (h.object a).canPersist)
    : Released outside s h (h.setRefCount a r) where
  wellFormed := hwf
  fewer := setRefCount_fewer r
  freed := fun x hx hnot => absurd hx hnot
  copy := by
    intro x hx
    exact .inl ((sameLinks_setRefCount r).copy x hx)
  persists := by
    intro x _ hx
    rw [Objects.setRefCount] at hx
    by_cases hxa : x = a
    . subst hxa
      rw [object_modify_self] at hx
      exact .inr (hr hx)
    . rw [object_modify_of_ne hxa] at hx
      exact .inl hx

theorem terminate_eq (ha : a ∈ h.live) (href : (h.object a).refCount = 0)
    (hs : ∀ s ∈ (h.object a).shadow, s ∈ h.live ∧ ((h.object s).copy = some a ∨ (h.object s).copy = none))
    : h.terminate a = .ok (h.removed a) := by
  rw [terminate, get_bind ha, removed]
  cases hshadow : (h.object a).shadow with
  | none => exact Stop.check_bind href _
  | some s =>
    obtain ⟨hlive, hcopy⟩ := hs s hshadow
    rw [detach, get_bind hlive, Stop.check_bind hcopy]
    exact Stop.check_bind href _

-- the object that a copy shadows has no other copy
theorem WellFormed.copy_of_shadow (hwf : WellFormed outside h) (ha : a ∈ h.live) {s : Nat}
    (hs : (h.object a).shadow = some s) : (h.object s).copy = some a ∨ (h.object s).copy = none := by
  cases hcopy : (h.object s).copy with
  | none => exact .inr rfl
  | some c =>
    obtain ⟨-, -, hunique⟩ := hwf.copies s (hwf.linked a ha s hs) c hcopy
    rw [hunique a ha hs]
    exact .inl rfl

theorem WellFormed.terminate_eq (hwf : WellFormed outside h) (ha : a ∈ h.live)
    (href : (h.object a).refCount = 0) : h.terminate a = .ok (h.removed a) :=
  Objects.terminate_eq ha href fun s hs => ⟨hwf.linked a ha s hs, hwf.copy_of_shadow ha hs⟩

theorem Released.of_removed (hwf : WellFormed outside h) (ha : a ∈ h.live) (hzero : outside a = 0)
    (hrest : Released outside (h.object a).shadow (h.removed a) h') : Released outside (some a) h h' where
  wellFormed := hrest.wellFormed
  fewer := removed_fewer.trans hrest.fewer
  freed := by
    intro x hx hnot
    by_cases hxa : x = a
    . exact ⟨hxa ▸ hzero, a, rfl, hxa ▸ .refl⟩
    . obtain ⟨hzero, s, hs, hr⟩ := hrest.freed x (mem_removed.2 ⟨hxa, hx⟩) hnot
      refine ⟨hzero, a, rfl, ?_⟩
      have hlink : h.links shadow a = some s := by rw [links_of_mem ha, hs]
      exact Reaches.head hlink (reaches_of_removed hr)
  copy := by
    intro x hx
    have hnot : a ∉ h'.live := fun hmem => (mem_removed.1 (hrest.fewer.live hmem)).1 rfl
    by_cases hxs : (h.object a).shadow = some x
    . have hnone : (h'.object x).copy = none := by
        obtain heq | ⟨heq, -⟩ := hrest.copy x hx
        . rw [heq, removed_object_shadow hxs]
        . exact heq
      obtain hcopy | hcopy := hwf.copy_of_shadow ha hxs
      . exact .inr ⟨hnone, a, hcopy, hnot⟩
      . exact .inl (hnone.trans hcopy.symm)
    . have hcopy := hrest.copy x hx
      rwa [removed_object hxs] at hcopy
  persists := by
    intro x hx hzero
    have hpersists := hrest.persists x hx hzero
    rwa [removed_same] at hpersists

theorem Released.trans_setRefCount (hrest : Released outside s (h.setRefCount a r) h') (hgone : a ∉ h'.live)
    : Released outside s h h' where
  wellFormed := hrest.wellFormed
  fewer := (setRefCount_fewer r).trans hrest.fewer
  freed := by
    intro x hx hnot
    obtain ⟨hzero, a', ha', hr⟩ := hrest.freed x hx hnot
    rw [(sameLinks_setRefCount r).links] at hr
    exact ⟨hzero, a', ha', hr⟩
  copy := by
    intro x hx
    have hsame : SameLinks h (h.setRefCount a r) := sameLinks_setRefCount r
    have hcopy := hrest.copy x hx
    rwa [hsame.copy x (hrest.fewer.live hx)] at hcopy
  persists := by
    intro x hx hzero
    have hxa : x ≠ a := fun heq => hgone (heq ▸ hx)
    have hpersists := hrest.persists x hx hzero
    rwa [Objects.setRefCount, object_modify_of_ne hxa] at hpersists

-- the invariant is that there is one reference more than are counted
theorem deallocateRounds_spec {fuel : Nat} {s : Option Nat} (t : Finset Nat) (hfuel : t.card < fuel)
    (hwf : WellFormed (addOutside outside s) h) (hs : ∀ a ∈ s, a ∈ h.live)
    (ht : ∀ a ∈ s, ∀ x, Reaches (h.links VmObject.shadow) a x → x ∈ t)
    : ∃ h', deallocateRounds fuel h s = .ok h' ∧ Released outside s h h' := by
  induction fuel generalizing h s t with
  | zero => omega
  | succ fuel ih =>
    cases s with
    | none =>
      refine ⟨h, rfl, hwf, .refl, fun x hx hnot => absurd hx hnot, fun x _ => .inl rfl, fun x _ => .inl⟩
    | some a =>
      have ha := hs a rfl
      have hcounted := hwf.counted a ha
      rw [addOutside, if_pos rfl] at hcounted
      have hsub : ((h.object a).refCount - 1).toInt = outside a + h.linkers VmObject.shadow a := by
        rw [toInt_sub_one (by omega)]
        omega
      have hwf' : WellFormed outside (h.setRefCount a ((h.object a).refCount - 1)) := by
        apply hwf.setRefCount hsub
        intro x hx
        rw [addOutside, if_neg fun heq => hx (Option.some.inj heq).symm]
        rfl
      rw [deallocateRounds, Heap.get_bind ha]
      dsimp only
      have hset : h.set a { h.object a with refCount := (h.object a).refCount - 1 }
          = h.setRefCount a ((h.object a).refCount - 1) := rfl
      rw [hset]
      split
      . next hpos =>
        refine ⟨_, rfl, .of_setRefCount hwf' ?_⟩
        intro hzero
        rw [hzero] at hpos
        exact absurd hpos (by decide)
      next hlast =>
      split
      . next hpersist => exact ⟨_, rfl, .of_setRefCount hwf' fun _ => hpersist⟩
      have hlast : outside a = 0 ∧ h.linkers VmObject.shadow a = 0 := by
        rw [Int16.lt_iff_toInt_lt, hsub] at hlast
        have hzero : (0 : Int16).toInt = 0 := rfl
        omega
      have hsame : SameLinks h (h.setRefCount a ((h.object a).refCount - 1)) := sameLinks_setRefCount _
      have hshadow := hsame.shadow a ha
      have href : ((h.setRefCount a ((h.object a).refCount - 1)).object a).refCount = 0 := by
        rw [setRefCount, Heap.object_modify_self, ← Int16.toInt_inj, hsub, hlast.1, hlast.2]
        rfl
      have hzero : (h.setRefCount a ((h.object a).refCount - 1)).linkers VmObject.shadow a = 0 := by
        rw [Heap.linkers_congr VmObject.shadow hsame.live hsame.shadow]
        exact hlast.2
      rw [hwf'.terminate_eq ha href, ← hshadow]
      have hmem : a ∈ t := ht a rfl a .refl
      have hcard := Finset.card_erase_lt_of_mem hmem
      obtain ⟨h', heq, hreleased⟩ := ih (t.erase a) (by omega) (hwf'.removed ha hzero) (by
          intro s hs
          apply mem_removed.2
          refine ⟨?_, hwf'.linked a ha s hs⟩
          rintro rfl
          have hlink : h.links VmObject.shadow s = some s := by
            rw [Heap.links_of_mem ha, ← hshadow]
            exact hs
          exact hwf.acyclic.not_reaches hlink .refl) (by
        intro s hs x hr
        have hlink : h.links VmObject.shadow a = some s := by
          rw [Heap.links_of_mem ha, ← hshadow]
          exact hs
        have hr' := reaches_of_removed hr
        rw [hsame.links] at hr'
        refine Finset.mem_erase.2 ⟨?_, ht a rfl x (Reaches.head hlink hr')⟩
        rintro rfl
        exact hwf.acyclic.not_reaches hlink hr')
      have hgone : a ∉ h'.live := fun hmem => (mem_removed.1 (hreleased.fewer.live hmem)).1 rfl
      exact ⟨h', heq, (Released.of_removed hwf' ha hlast.1 hreleased).trans_setRefCount hgone⟩

theorem deallocate_spec (hwf : WellFormed (addOutside outside s) h)
    (hs : ∀ a ∈ s, a ∈ h.live) : ∃ h', h.deallocate s = .ok h' ∧ Released outside s h h' := by
  apply deallocateRounds_spec h.live (Nat.lt_succ_self _) hwf hs
  exact fun a ha x hr => hwf.mem_of_reaches (hs a ha) hr

end Objects

end Vm
