import UtahMach.Vm.Object.Update

/-!
This module contains the proof that a delayed copy of an object reads as the object does.
-/

open Chain

namespace Vm

open Finset (mem_insert mem_insert_of_mem mem_insert_self)

open Option (map_eq_some_iff map_some some)

open Heap (get_bind links_of_mem mem_of_links modify_part ne_next next_notMem object_modify
  object_modify_of_ne object_modify_self)

open VmObject Relation.ReflTransGen

variable {β : Type} {a c n o : Nat} {h h' : Objects β} {outside : Nat → Nat}

-- the count is not wrong as long as it has not wrapped around
theorem VmObject.lookup_eq_none_of_residentPageCount {object : VmObject β}
    (hcount : object.residentPageCount = 0) (hpages : object.memq.keys.length < 65536) (o : Nat)
    : object.memq.lookup o = none := by
  have hmod : object.memq.keys.length % 65536 = 0 := by
    have hcount := congrArg (fun n : Int16 => n.toBitVec.toNat) hcount
    simpa [residentPageCount] using hcount
  have hnil : object.memq.keys = [] := List.eq_nil_of_length_eq_zero (by omega)
  rw [AList.lookup_eq_none, AList.mem_keys, hnil]
  exact List.not_mem_nil

namespace Objects

structure Source (outside : Nat → Nat) (a : Nat) (h : Objects β) : Prop where
  wellFormed : WellFormed outside h
  windows : Windows h
  aligned : Aligned h
  sizes : ∀ c ∈ (h.object a).copy, (h.object c).size ≤ (h.object a).size
  used : ∀ c ∈ (h.object a).copy, (h.object c).refCount ≠ 0 ∧ (h.object c).canPersist = false
  referenced : ∀ x, outside x ≠ 0 → x ∈ h.live
  held : outside a ≠ 0
  only : ∀ b ∈ h.live, (h.object b).shadow = some a → (h.object a).copy = some b

def Fits (h : Objects β) : Prop :=
  ∀ x ∈ h.live, (h.object x).refCount.toInt < 32767 ∧ (h.object x).memq.keys.length < 65536

instance (h : Objects β) : Decidable h.Fits :=
  inferInstanceAs (Decidable (∀ x ∈ h.live,
    (h.object x).refCount.toInt < 32767 ∧ (h.object x).memq.keys.length < 65536))

namespace Source

section

variable (hsrc : Source outside a h)
include hsrc

theorem mem : a ∈ h.live := hsrc.referenced a hsrc.held

theorem copies (hcopy : (h.object a).copy = some c) : c ∈ h.live ∧ (h.object c).shadow = some a
    ∧ ∀ b ∈ h.live, (h.object b).shadow = some a → b = c := hsrc.wellFormed.copies a hsrc.mem c hcopy

theorem outside_next : outside h.next = 0 := by
  by_contra hne
  exact next_notMem (hsrc.referenced _ hne)

theorem refCount_pos : 0 < (h.object a).refCount.toInt := by
  have hcounted := hsrc.wellFormed.counted a hsrc.mem
  have hheld := hsrc.held
  omega

theorem copy_refCount_pos (hcopy : (h.object a).copy = some c) : 0 < (h.object c).refCount.toInt := by
  have hcounted := hsrc.wellFormed.counted c (hsrc.copies hcopy).1
  have hused : (h.object c).refCount.toInt ≠ 0 := fun hzero => (hsrc.used c hcopy).1 (Int16.toInt_inj.1 hzero)
  omega

theorem zero_lt_copy_refCount (hcopy : (h.object a).copy = some c) : 0 < (h.object c).refCount :=
  Int16.lt_iff_toInt_lt.2 (hsrc.copy_refCount_pos hcopy)

theorem size_le : (h.object a).size ≤ wordSize := by
  have := hsrc.windows.noWrap a hsrc.mem
  omega

end

section

variable (hcopy : ∀ x ∈ h'.live, (h'.object x).copy = (h.object x).copy
    ∨ (h'.object x).copy = none ∧ ∃ c ∈ (h.object x).copy, c ∉ h'.live)
include hcopy

theorem copy_of_fewer (hx : x ∈ h'.live) (hc : (h'.object x).copy = some c) : (h.object x).copy = some c := by
  obtain heq | ⟨heq, -⟩ := hcopy x hx
  . rwa [heq] at hc
  . rw [heq] at hc
    contradiction

theorem of_fewer (hsrc : Source outside a h) (hf : Fewer ∅ h h')
    (hwf : WellFormed outside' h')
    (hused : ∀ c ∈ (h'.object a).copy, (h'.object c).refCount ≠ 0) (href : ∀ x, outside' x ≠ 0 → x ∈ h'.live)
    (hheld : outside' a ≠ 0) : Source outside' a h' where
  wellFormed := hwf
  windows := hf.windows hwf.linked hsrc.windows
  aligned := by
    intro x hx c hc
    rw [hf.same c (hwf.copies x hx c hc).1 (Set.notMem_empty c)]
    exact hsrc.aligned x (hf.live hx) c (copy_of_fewer hcopy hx hc)
  sizes := by
    intro c hc
    have hclive := (hwf.copies a (href a hheld) c hc).1
    rw [hf.same c hclive (Set.notMem_empty c), hf.same a (href a hheld) (Set.notMem_empty a)]
    exact hsrc.sizes c (copy_of_fewer hcopy (href a hheld) hc)
  used := by
    intro c hc
    refine ⟨hused c hc, ?_⟩
    rw [hf.same c (hwf.copies a (href a hheld) c hc).1 (Set.notMem_empty c)]
    exact (hsrc.used c (copy_of_fewer hcopy (href a hheld) hc)).2
  referenced := href
  held := hheld
  only := by
    intro b hb hshadow
    rw [hf.same b hb (Set.notMem_empty b)] at hshadow
    have hba := hsrc.only b (hf.live hb) hshadow
    obtain heq | ⟨-, c, hc, hgone⟩ := hcopy a (href a hheld)
    . rw [heq, hba]
    . rw [hba] at hc
      obtain rfl := some.inj hc
      exact absurd hb hgone

end

theorem released {s : Option Nat} (hsrc : Source (addOutside outside s) a h)
    (hr : Released outside s h h') (hheld : outside a ≠ 0) : Source outside a h' := by
  have href : ∀ x, outside x ≠ 0 → x ∈ h'.live := by
    intro x hx
    by_contra hgone
    have hlive : x ∈ h.live := by
      apply hsrc.referenced x
      rw [addOutside]
      omega
    exact hx (hr.freed x hlive hgone).1
  apply of_fewer hr.copy hsrc hr.fewer hr.wellFormed _ href hheld
  intro c hc hzero
  have hlive := (hr.wellFormed.copies a (href a hheld) c hc).1
  obtain ⟨hused, hpersist⟩ := hsrc.used c (copy_of_fewer hr.copy (href a hheld) hc)
  obtain hdead | hpersists := hr.persists c hlive hzero
  . exact hused hdead
  . rw [hpersist] at hpersists
    contradiction

theorem setRefCount {r : Int16} (hsrc : Source outside a h)
    (hr : r.toInt = outside' c + h.linkers shadow c) (hne : r ≠ 0) (hc : c ∈ h.live)
    (hout : ∀ x ≠ c, outside' x = outside x) (hheld : outside' a ≠ 0) : Source outside' a (h.setRefCount c r) := by
  refine of_fewer (fun x _ => .inl ?_) hsrc (setRefCount_fewer r) (hsrc.wellFormed.setRefCount hr hout) ?_ ?_ hheld
  . exact modify_part copy rfl x
  . intro x hx
    rw [Objects.setRefCount, modify_part copy rfl] at hx
    rw [Objects.setRefCount]
    by_cases hxc : x = c
    . rw [hxc, object_modify_self]
      exact hne
    . rw [object_modify_of_ne hxc]
      exact (hsrc.used x hx).1
  . intro x hx
    by_cases hxc : x = c
    . rw [hxc]
      exact hc
    . rw [hout x hxc] at hx
      exact hsrc.referenced x hx

theorem allocate (hsrc : Source outside a h) {size : Nat} (hsize : size ≤ wordSize)
    : Source (addOutside outside (some h.next)) a (Objects.allocate h size) := by
  have hold : ∀ x ∈ h.live, (Objects.allocate h size).object x = h.object x := fun x hx => allocate_old hx
  refine ⟨hsrc.wellFormed.allocate hsrc.outside_next size, ⟨?_, ?_⟩, ?_, ?_, ?_, ?_, ?_, ?_⟩
  . intro x hx
    obtain rfl | hx := mem_insert.1 hx
    . rw [allocate_new]
      exact (Nat.zero_add size).le.trans hsize
    . rw [hold x hx]
      exact hsrc.windows.noWrap x hx
  . intro x hx y hy
    obtain rfl | hx := mem_insert.1 hx
    . rw [allocate_new] at hy
      contradiction
    . rw [hold x hx] at hy ⊢
      rw [hold y (hsrc.wellFormed.linked x hx y hy)]
      exact hsrc.windows.inside x hx y hy
  . intro x hx c hc
    obtain rfl | hx := mem_insert.1 hx
    . rw [allocate_new] at hc
      contradiction
    . rw [hold x hx] at hc
      rw [hold c (hsrc.wellFormed.copies x hx c hc).1]
      exact hsrc.aligned x hx c hc
  . intro c hc
    rw [hold a hsrc.mem] at hc ⊢
    rw [hold c (hsrc.copies hc).1]
    exact hsrc.sizes c hc
  . intro c hc
    rw [hold a hsrc.mem] at hc
    rw [hold c (hsrc.copies hc).1]
    exact hsrc.used c hc
  . intro x hx
    by_cases hxn : x = h.next
    . rw [hxn]
      exact mem_insert_self _ _
    . rw [addOutside_of_ne hxn] at hx
      exact mem_insert_of_mem (hsrc.referenced x hx)
  . rw [addOutside]
    have := hsrc.held
    omega
  . intro b hb hshadow
    rw [hold a hsrc.mem]
    obtain rfl | hb := mem_insert.1 hb
    . rw [allocate_new] at hshadow
      contradiction
    . rw [hold b hb] at hshadow
      exact hsrc.only b hb hshadow

end Source

structure Inserted (a n : Nat) (h h' : Objects β) : Prop where
  live : h'.live = insert n h.live
  notMem : n ∉ h.live
  new : h'.object n =
    {
      (VmObject.template : VmObject β) with
      size := (h.object a).size
      refCount := (h'.object n).refCount
      shadow := some a
      shadowed := true
    }
  old : ∀ x ∈ h.live, h'.object x =
    {
      h.object x with
      refCount := (h'.object x).refCount
      copy := if x = a then some n else (h.object x).copy
      shadow := (h.object x).shadow.map fun s => if s = a then n else s
    }

namespace Inserted

section

variable (hi : Inserted a n h h')
include hi

theorem mem_new : n ∈ h'.live := by
  rw [hi.live]
  exact mem_insert_self _ _

theorem mem_old (hx : x ∈ h.live) : x ∈ h'.live := by
  rw [hi.live]
  exact mem_insert_of_mem hx

theorem nextPlace_old (hp : p.1 ∈ h.live)
    : h'.nextPlace p = (h.nextPlace p).map fun q => (if q.1 = a then n else q.1, q.2) := by
  rw [nextPlace_of_mem hp, nextPlace_of_mem (hi.mem_old hp), hi.old p.1 hp]
  cases (h.object p.1).shadow <;> rfl

theorem nextPlace_new : h'.nextPlace (n, o) = some (a, o % wordSize) := by
  rw [nextPlace_of_mem hi.mem_new, hi.new]
  rfl

theorem ownContents_old (hp : p.1 ∈ h.live) : h'.ownContents pagers p = h.ownContents pagers p := by
  rw [ownContents, ownContents, if_pos hp, if_pos (hi.mem_old hp), hi.old p.1 hp]
  rfl

theorem ownContents_new : h'.ownContents pagers (n, o) = none := by
  rw [ownContents, if_pos hi.mem_new, hi.new]
  rfl

theorem reads_iff (hwf : WellFormed outside h) (ha : a ∈ h.live)
    (hp : p.1 ∈ h.live) : h.Reads pagers zero p d ↔ h'.Reads pagers zero p d := by
  have hlinked : ∀ p q, h.nextPlace p = some q → q.1 ∈ h.live := by
    intro p q hq
    obtain ⟨hmem, hlink⟩ := mem_of_links (links_of_nextPlace hq)
    exact hwf.linked p.1 hmem q.1 hlink
  -- the old graph stands for the new one
  symm
  apply Finds.standsFor_iff (S := { p | p.1 ∈ h.live }) (acyclic_nextPlace hwf.acyclic) _ hp
  intro p hp
  have hnext := hi.nextPlace_old hp
  cases hq : h.nextPlace p with
  | none =>
    rw [hq] at hnext
    refine .same (hi.ownContents_old hp).symm (by rw [hq, hnext]; rfl) ?_
    intro _ q hq'
    rw [hnext] at hq'
    contradiction
  | some q =>
    rw [hq] at hnext
    by_cases hqa : q.1 = a
    . have hmod : q.2 % wordSize = q.2 := by
        rw [nextPlace_of_mem hp, map_eq_some_iff] at hq
        obtain ⟨b, -, rfl⟩ := hq
        exact Nat.mod_mod _ _
      refine .both (n, q.2) (by rw [hnext, map_some, if_pos hqa]) ?_ ?_ ?_
      . rw [hi.ownContents_old hp, hi.ownContents_new, Option.or_none]
      . rw [hi.nextPlace_new, hmod, hq, ← hqa]
      . intro r hr
        rw [hi.nextPlace_new] at hr
        obtain rfl := some.inj hr
        exact ha
    . have hsame : h'.nextPlace p = h.nextPlace p := by
        rw [hnext, hq, map_some, if_neg hqa]
      refine .same (hi.ownContents_old hp).symm hsame.symm ?_
      intro _ r hr
      rw [hsame] at hr
      exact hlinked p r hr

theorem nextPlace_new_of_lt (ho : o < wordSize) : h'.nextPlace (n, o) = some (a, o) := by
  rw [hi.nextPlace_new, Nat.mod_eq_of_lt ho]

theorem reads_new_iff (ho : o < wordSize) : h'.Reads pagers zero (n, o) d ↔ h'.Reads pagers zero (a, o) d :=
  Finds.there_iff hi.ownContents_new (hi.nextPlace_new_of_lt ho)

theorem below_new (hbound : bound ≤ wordSize) (ho : o < bound) : h'.Below a bound (n, o) :=
  below_of_next (hi.nextPlace_new_of_lt (by omega)) ho ho

theorem below_old (hwf : WellFormed outside h)
    (hbound : bound ≤ wordSize) (hp : p.1 ∈ h.live) (hbelow : h.Below a bound p) : h'.Below a bound p := by
  intro q hq
  induction hq using head_induction_on with
  | refl => exact hbelow q .refl
  | @head p r hnext hrest ih =>
    dsimp only at hnext
    split at hnext
    . contradiction
    next hne =>
    rw [hi.nextPlace_old hp, map_eq_some_iff] at hnext
    obtain ⟨q', hq', rfl⟩ := hnext
    have hbelow' := hbelow.next hne hq'
    obtain ⟨-, hlink⟩ := mem_of_links (links_of_nextPlace hq')
    split at hrest
    . next hqa =>
      exact hi.below_new hbound (hbelow' q' .refl hqa) q hrest
    . next hqa =>
      rw [if_neg hqa] at ih
      exact ih (hwf.linked p.1 hp q'.1 hlink) hbelow'

theorem windows (hwin : Windows h) (hlinked : ∀ x ∈ h.live,
    ∀ y ∈ (h.object x).shadow, y ∈ h.live) (ha : a ∈ h.live) (hinside : ∀ x ∈ h.live,
    (h.object x).shadow = some a → (h.object x).shadowOffset + (h.object x).size ≤ (h.object a).size) : Windows h' := by
  have hsize : ∀ x ∈ h.live, (h'.object x).size = (h.object x).size
      ∧ (h'.object x).shadowOffset = (h.object x).shadowOffset
      ∧ (h'.object x).internal = (h.object x).internal := by
    intro x hx
    rw [hi.old x hx]
    exact ⟨rfl, rfl, rfl⟩
  have hnew : (h'.object n).size = (h.object a).size ∧ (h'.object n).shadowOffset = 0 := by
    rw [hi.new]
    exact ⟨rfl, rfl⟩
  have hwrap := hwin.noWrap a ha
  refine ⟨?_, ?_⟩
  . intro x hx
    rw [hi.live] at hx
    obtain rfl | hx := mem_insert.1 hx
    . omega
    . rw [(hsize x hx).1, (hsize x hx).2.1]
      exact hwin.noWrap x hx
  . intro x hx y hy hyinternal
    rw [hi.live] at hx
    obtain rfl | hx := mem_insert.1 hx
    . rw [hi.new] at hy
      obtain rfl := some.inj hy
      rw [(hsize _ ha).1]
      omega
    . rw [hi.old x hx] at hy
      rw [(hsize x hx).1, (hsize x hx).2.1]
      obtain ⟨s, hs, rfl⟩ := map_eq_some_iff.1 hy
      have hslive := hlinked x hx s hs
      by_cases hsa : s = a
      . subst hsa
        rw [if_pos rfl, hnew.1]
        exact hinside x hx hs
      . rw [if_neg hsa] at hyinternal ⊢
        rw [(hsize s hslive).2.2] at hyinternal
        rw [(hsize s hslive).1]
        exact hwin.inside x hx s hs hyinternal

theorem source (hsrc : Source outside a h) (hwf : WellFormed (addOutside outside (some n)) h')
    : Source (addOutside outside (some n)) a h' where
  wellFormed := hwf
  windows := by
    apply hi.windows hsrc.windows hsrc.wellFormed.linked hsrc.mem
    intro x hx hshadow
    have hcopy := hsrc.only x hx hshadow
    have hsize := hsrc.sizes x hcopy
    rw [hsrc.aligned a hsrc.mem x hcopy]
    omega
  aligned := by
    intro x hx c hcopy
    rw [hi.live] at hx
    obtain rfl | hx := mem_insert.1 hx
    . rw [hi.new] at hcopy
      contradiction
    . rw [hi.old x hx] at hcopy
      split at hcopy
      . obtain rfl := some.inj hcopy
        rw [hi.new]
        rfl
      . rw [hi.old c (hsrc.wellFormed.copies x hx c hcopy).1]
        exact hsrc.aligned x hx c hcopy
  sizes := by
    intro c hc
    rw [hi.old a hsrc.mem] at hc ⊢
    rw [if_pos rfl] at hc
    obtain rfl := some.inj hc
    rw [hi.new]
  used := by
    intro c hc
    rw [hi.old a hsrc.mem] at hc
    rw [if_pos rfl] at hc
    obtain rfl := some.inj hc
    refine ⟨?_, by rw [hi.new]; rfl⟩
    intro hzero
    have hcounted := hwf.counted n hi.mem_new
    have htoInt : (0 : Int16).toInt = 0 := rfl
    rw [hzero, addOutside_self] at hcounted
    omega
  referenced := by
    intro x hx
    rw [hi.live]
    by_cases hxn : x = n
    . rw [hxn]
      exact mem_insert_self _ _
    . rw [addOutside_of_ne hxn] at hx
      exact mem_insert_of_mem (hsrc.referenced x hx)
  held := by
    rw [addOutside]
    have := hsrc.held
    omega
  only := by
    have hna : n ≠ a := fun heq => hi.notMem (heq ▸ hsrc.mem)
    intro b hb hshadow
    rw [hi.old a hsrc.mem]
    rw [hi.live] at hb
    obtain rfl | hb := mem_insert.1 hb
    . exact if_pos rfl
    . rw [hi.old b hb] at hshadow
      obtain ⟨s, -, hs⟩ := map_eq_some_iff.1 hshadow
      split at hs
      . exact absurd hs hna
      . next hsa => exact absurd hs hsa

end

end Inserted

def linkedCopy (h : Objects β) (a n : Nat) : Objects β :=
  ((h.setRefCount a ((h.object a).refCount + 1)).relink n (some a) 0 true).setCopy a (some n)

theorem object_linkedCopy (hne : n ≠ a) (x : Nat) : (h.linkedCopy a n).object x
    = if x = a then { h.object a with refCount := (h.object a).refCount + 1, copy := some n }
      else if x = n then { h.object n with shadow := some a, shadowOffset := 0, shadowed := true }
      else h.object x := by
  simp only [linkedCopy, setCopy, relink, setRefCount, object_modify]
  grind

theorem linkCopy_eq (hn : n ∈ h.live) (ha : a ∈ h.live) (hne : n ≠ a)
    (href : 0 < (h.object a).refCount) : h.linkCopy a n = .ok (h.linkedCopy a n) := by
  rw [linkCopy, get_bind hn, get_bind (show a ∈ (h.set n _).live from ha), Heap.object_set_of_ne (Ne.symm hne),
    Stop.check_bind href]
  congr 1
  ext1
  . rfl
  . funext x
    simp only [linkedCopy, setCopy, relink, setRefCount, object_modify, Heap.object_set]
    grind
  . rfl

theorem WellFormed.linkedCopy (hwf : WellFormed outside h) (hn : n ∈ h.live) (ha : a ∈ h.live)
    (href : (h.object a).refCount.toInt < 32767) (hnew : (h.object n).shadow = none)
    (hreach : ¬ Reaches (h.links shadow) a n) (hcopy : (h.object a).copy = none)
    (honly : ∀ b ∈ h.live, (h.object b).shadow ≠ some a) : WellFormed outside (h.linkedCopy a n) := by
  have hcounted := hwf.counted a ha
  have hwf1 : WellFormed (addOutside outside (some a))
      (h.setRefCount a ((h.object a).refCount + 1)) := by
    apply hwf.setRefCount
    . rw [toInt_add_one href, addOutside_self]
      omega
    . intro x hx
      exact addOutside_of_ne hx
  have hshadow : ∀ x, ((h.setRefCount a ((h.object a).refCount + 1)).object x).shadow
      = (h.object x).shadow := fun x => modify_part shadow rfl x
  have hwf2 := hwf1.relink 0 true hn (by
      intro b hb
      obtain rfl := some.inj hb
      refine ⟨ha, ?_⟩
      rw [(sameLinks_setRefCount _).links]
      exact hreach) (by
    intro b hb
    rw [hshadow, hnew] at hb
    contradiction) (by
    intro b hb
    obtain rfl := some.inj hb
    rw [Objects.setRefCount, modify_part copy rfl]
    exact hcopy)
  rw [hshadow, hnew, addOutside_none] at hwf2
  apply hwf2.setCopy
  intro c hc
  obtain rfl := some.inj hc
  refine ⟨hn, ?_, ?_⟩
  . rw [Objects.relink, object_modify_self]
  . intro b hb hshadow'
    by_contra hbn
    rw [Objects.relink, object_modify_of_ne hbn, hshadow] at hshadow'
    exact honly b hb hshadow'

theorem linkedCopy_setCopy (hne : n ≠ a) : (h.setCopy a none).linkedCopy a n = h.linkedCopy a n := by
  ext1
  . rfl
  . funext x
    simp only [linkedCopy, setCopy, relink, setRefCount, object_modify]
    grind
  . rfl

def rethreaded (h : Objects β) (a old n : Nat) : Objects β :=
  ((h.setRefCount a ((h.object a).refCount - 1)).relink old (some n) (h.object old).shadowOffset
    (h.object old).shadowed).setRefCount n ((h.object n).refCount + 1)

variable {old x : Nat}

section

variable (hna : n ≠ a) (hno : n ≠ old) (hoa : old ≠ a)
include hna hno hoa

theorem object_rethreaded (x : Nat) : (h.rethreaded a old n).object x
    = if x = a then { h.object a with refCount := (h.object a).refCount - 1 }
      else if x = old then { h.object old with shadow := some n }
      else if x = n then { h.object n with refCount := (h.object n).refCount + 1 }
      else h.object x := by
  simp only [rethreaded, relink, setRefCount, object_modify]
  grind

theorem rethreaded_eq
    : ((h.set a { h.object a with refCount := (h.object a).refCount - 1 }).set old
        { h.object old with shadow := some n }).set n
        { h.object n with refCount := (h.object n).refCount + 1 } = h.rethreaded a old n := by
  ext1
  . rfl
  . funext x
    simp only [rethreaded, relink, setRefCount, object_modify, Heap.object_set]
    grind
  . rfl

-- the reference to the new object is taken first, and the one to the source is released last
theorem rethreaded_setCopy : (h.rethreaded a old n).setCopy a none
        = (((h.setCopy a none).setRefCount n ((h.object n).refCount + 1)).relink old (some n)
          (h.object old).shadowOffset (h.object old).shadowed).setRefCount a ((h.object a).refCount - 1) := by
  ext1
  . rfl
  . funext x
    simp only [rethreaded, setCopy, relink, setRefCount, Heap.object_modify]
    grind
  . rfl

end

theorem WellFormed.rethreaded (hwf : WellFormed outside h) (hn : n ∈ h.live) (ha : a ∈ h.live)
    (hold : old ∈ h.live) (hna : n ≠ a) (hno : n ≠ old) (hoa : old ≠ a)
    (hnew : (h.object n).shadow = none) (hcopy : (h.object n).copy = none)
    (hshadow : (h.object old).shadow = some a) (href : (h.object n).refCount.toInt < 32767)
    : WellFormed outside ((h.rethreaded a old n).setCopy a none) := by
  have hwf1 := hwf.setCopy (s := none) (a := a) nofun
  have hlinkers : ∀ x, (h.setCopy a none).linkers shadow x = h.linkers shadow x :=
    fun x => Heap.linkers_modify shadow rfl x
  have hwf2 : WellFormed (addOutside outside (some n))
      ((h.setCopy a none).setRefCount n ((h.object n).refCount + 1)) := by
    apply hwf1.setRefCount
    . have hcounted := hwf.counted n hn
      rw [toInt_add_one href, addOutside_self, hlinkers]
      omega
    . intro x hx
      exact addOutside_of_ne hx
  have hobject : ∀ x ≠ n, ((h.setCopy a none).setRefCount n ((h.object n).refCount + 1)).object x
      = { h.object x with copy := if x = a then none else (h.object x).copy } := by
    intro x hx
    rw [Objects.setRefCount, object_modify_of_ne hx, Objects.setCopy]
    by_cases hxa : x = a
    . rw [hxa, object_modify_self, if_pos rfl]
    . rw [object_modify_of_ne hxa, if_neg hxa]
  have hwf3 := hwf2.relink (h.object old).shadowOffset (h.object old).shadowed hold (by
      intro b hb
      obtain rfl := some.inj hb
      refine ⟨hn, ?_⟩
      intro hr
      apply hno
      apply hr.eq_of_end
      rw [(sameLinks_setRefCount _).links, Objects.setCopy, Heap.links_modify shadow rfl, links_of_mem hn]
      exact hnew) (by
    intro b hb
    rw [hobject old (Ne.symm hno), hshadow] at hb
    obtain rfl := some.inj hb
    rw [hobject _ (Ne.symm hna)]
    exact if_pos rfl) (by
    intro b hb
    obtain rfl := some.inj hb
    rw [Objects.setRefCount, object_modify_self, Objects.setCopy, object_modify_of_ne hna]
    exact hcopy)
  have hold' : (((h.setCopy a none).setRefCount n ((h.object n).refCount + 1)).object old).shadow
      = some a := by
    rw [hobject old (Ne.symm hno)]
    exact hshadow
  rw [hold'] at hwf3
  rw [rethreaded_setCopy hna hno hoa]
  apply hwf3.setRefCount
  . have hcounted := hwf3.counted a ha
    rw [addOutside_self] at hcounted
    have hrefCount : ((((h.setCopy a none).setRefCount n ((h.object n).refCount + 1)).relink old (some n)
        (h.object old).shadowOffset (h.object old).shadowed).object a).refCount
        = (h.object a).refCount := by
      rw [Objects.relink, object_modify_of_ne (Ne.symm hoa), hobject a (Ne.symm hna)]
    rw [hrefCount] at hcounted
    rw [toInt_sub_one (by omega)]
    omega
  . intro x hx
    exact (addOutside_of_ne hx).symm

structure Copied (outside : Nat → Nat) (a c : Nat) (h h' : Objects β) : Prop where
  source : Source (addOutside outside (some c)) a h'
  ne : c ≠ a
  copy : (h'.object a).copy = some c
  first : (h.object a).copy = some c ∨ c ∉ h.live
  empty : ∀ (pagers : Pagers β) (o : Nat), (h'.object c).contents pagers o = none
  pager : (h'.object c).pager = none
  old : ∀ x ∈ h.live, h'.object x =
    {
      h.object x with
      refCount := (h'.object x).refCount
      copy := (h'.object x).copy
      shadow := (h'.object x).shadow
    }
  unpaged : Unpaged h → Unpaged h'
  live : h.live ⊆ h'.live
  size : (h'.object a).size = (h.object a).size
  reads : ∀ (pagers : Pagers β) (zero : β) (p : Nat × Nat) (d : β), p.1 ∈ h.live
    → (h.Reads pagers zero p d ↔ h'.Reads pagers zero p d)
  below : ∀ p : Nat × Nat, p.1 ∈ h.live → h.Below a (h.object a).size p → h'.Below a (h.object a).size p
  copied : ∀ (pagers : Pagers β) (zero : β) (o : Nat) (d : β), o < (h.object a).size
    → (h.Reads pagers zero (a, o) d ↔ h'.Reads pagers zero (c, o) d)
  copied_below : ∀ o < (h.object a).size, h'.Below a (h.object a).size (c, o)

theorem Inserted.copied (hi : Inserted a n h h') (hsrc : Source outside a h)
    (hwf : WellFormed (addOutside outside (some n)) h') : Copied outside a n h h' where
  source := hi.source hsrc hwf
  ne := fun heq => hi.notMem (heq ▸ hsrc.mem)
  copy := by
    rw [hi.old a hsrc.mem]
    exact if_pos rfl
  first := .inr hi.notMem
  empty := by
    intro pagers o
    rw [hi.new]
    rfl
  pager := by
    rw [hi.new]
    rfl
  old := by
    intro x hx
    have hsame := hi.old x hx
    have hcopy := congrArg copy hsame
    have hshadow := congrArg shadow hsame
    dsimp only at hcopy hshadow
    rwa [← hcopy, ← hshadow] at hsame
  unpaged := by
    intro hunpaged x hx
    rw [hi.live] at hx
    obtain rfl | hx := mem_insert.1 hx
    . rw [hi.new]
      exact ⟨rfl, rfl, rfl⟩
    . rw [hi.old x hx]
      exact hunpaged x hx
  live := by
    rw [hi.live]
    exact Finset.subset_insert _ _
  size := by
    rw [hi.old a hsrc.mem]
  reads := fun _ _ _ _ hp => hi.reads_iff hsrc.wellFormed hsrc.mem hp
  below := fun _ hp hbelow => hi.below_old hsrc.wellFormed hsrc.size_le hp hbelow
  copied := by
    intro pagers zero o d ho
    have hsize := hsrc.size_le
    rw [hi.reads_new_iff (by omega)]
    exact hi.reads_iff hsrc.wellFormed hsrc.mem hsrc.mem
  copied_below := fun o ho => hi.below_new hsrc.size_le ho

namespace Source

theorem map_shadow_of_ne (hne : (h.object x).shadow ≠ some a)
    : ((h.object x).shadow.map fun s => if s = a then n else s) = (h.object x).shadow := by
  cases hs : (h.object x).shadow with
  | none => rfl
  | some s =>
    have hsa : s ≠ a := fun heq => hne (heq ▸ hs)
    rw [map_some, if_neg hsa]

theorem fewer_allocate (size : Nat) : Fewer ∅ (Objects.allocate h size) h where
  live := Finset.subset_insert _ _
  same := by
    intro x hx _
    rw [allocate_old hx]

variable (hsrc : Source outside a h)
include hsrc

theorem ne_of_copy (hcopy : (h.object a).copy = some c) : c ≠ a := by
  obtain ⟨hc, hshadow, -⟩ := hsrc.copies hcopy
  rintro rfl
  have hlink : h.links shadow c = some c := by rw [links_of_mem hc, hshadow]
  exact hsrc.wellFormed.acyclic.not_reaches hlink .refl

-- there is a reference besides that of the copy
theorem refCount_sub_pos (hc : c ∈ h.live) (hshadow : (h.object c).shadow = some a)
    : 0 < (h.object a).refCount - 1 := by
  have hcounted := hsrc.wellFormed.counted a hsrc.mem
  have hlinker := Heap.linkers_pos hc hshadow
  have hheld := hsrc.held
  have hzero : (0 : Int16).toInt = 0 := rfl
  rw [Int16.lt_iff_toInt_lt, toInt_sub_one (by omega)]
  omega

-- the heap with the new object that a copy starts with
theorem allocated
    : h.next ∈ (Objects.allocate h (h.object a).size).live ∧ a ∈ (Objects.allocate h (h.object a).size).live
        ∧ h.next ≠ a ∧ (Objects.allocate h (h.object a).size).object a = h.object a :=
  ⟨Finset.mem_insert_self _ _, Finset.mem_insert_of_mem hsrc.mem, Ne.symm (Heap.ne_next hsrc.mem),
    allocate_old hsrc.mem⟩

theorem not_reaches_next
    : ¬ Reaches ((Objects.allocate h (h.object a).size).links shadow) a h.next := by
  intro hr
  obtain heq | ⟨y, -, hlink⟩ := cases_tail hr
  . exact ne_next hsrc.mem heq.symm
  . obtain ⟨hy, hlink⟩ := mem_of_links hlink
    obtain rfl | hy := mem_insert.1 hy
    . rw [allocate_new] at hlink
      contradiction
    . rw [allocate_old hy] at hlink
      exact next_notMem (hsrc.wellFormed.linked y hy _ hlink)

theorem copyDelayed_first (href : (h.object a).refCount.toInt < 32767)
    (hcopy : (h.object a).copy = none) : ∃ h', h.copyDelayed a = .ok (h.next, h') ∧ Copied outside a h.next h h' := by
  obtain ⟨hn, ha, hne, hobject⟩ := hsrc.allocated
  have hpos : 0 < (h.object a).refCount := Int16.lt_iff_toInt_lt.2 hsrc.refCount_pos
  refine ⟨(Objects.allocate h (h.object a).size).linkedCopy a h.next, ?_, ?_⟩
  . rw [copyDelayed, get_bind hsrc.mem, hcopy]
    dsimp only
    rw [linkCopy_eq hn ha hne (by rw [hobject]; exact hpos)]
    rfl
  . have hunshadowed : ∀ b ∈ h.live, (h.object b).shadow ≠ some a := by
      intro b hb hshadow
      have hsome := hsrc.only b hb hshadow
      rw [hcopy] at hsome
      contradiction
    have hwf := hsrc.wellFormed.allocate hsrc.outside_next (h.object a).size
    have hwf' := hwf.linkedCopy hn ha (by rw [hobject]; exact href)
      (by rw [allocate_new]; rfl) hsrc.not_reaches_next
      (by rw [hobject]; exact hcopy) (by
        intro b hb
        obtain rfl | hb := mem_insert.1 hb
        . rw [allocate_new]
          nofun
        . rw [allocate_old hb]
          exact hunshadowed b hb)
    apply Inserted.copied _ hsrc hwf'
    refine ⟨rfl, next_notMem, ?_, ?_⟩
    . rw [object_linkedCopy hne, if_neg hne, if_pos rfl, allocate_new]
      rfl
    . intro x hx
      have hxn := ne_next hx
      rw [map_shadow_of_ne (hunshadowed x hx)]
      by_cases hxa : x = a
      . rw [hxa, object_linkedCopy hne, if_pos rfl, hobject, if_pos rfl]
      . rw [object_linkedCopy hne, if_neg hxa, if_neg hxn, if_neg hxa, allocate_old hx]

-- what the old copy has shadowed is not above it
theorem not_reaches_of_links (hcopy : (h.object a).copy = some old)
    (hlinks : ∀ x ∈ h.live, x ≠ old → (h'.object x).shadow = (h.object x).shadow)
    : ¬ Reaches (h'.links VmObject.shadow) a h.next := by
  obtain ⟨hold, hshadow, -⟩ := hsrc.copies hcopy
  have hlink : h.links VmObject.shadow old = some a := by rw [Heap.links_of_mem hold, hshadow]
  have hstays : ∀ y, Reaches (h'.links VmObject.shadow) a y
      → Reaches (h.links VmObject.shadow) a y ∧ y ∈ h.live := by
    intro y hr
    induction hr with
    | refl => exact ⟨.refl, hsrc.mem⟩
    | @tail y z _ hyz ih =>
      obtain ⟨hr, hy⟩ := ih
      have hyo : y ≠ old := by
        rintro rfl
        exact hsrc.wellFormed.acyclic.not_reaches hlink hr
      obtain ⟨-, hyz⟩ := Heap.mem_of_links hyz
      rw [hlinks y hy hyo] at hyz
      exact ⟨hr.tail (by rw [Heap.links_of_mem hy, hyz]), hsrc.wellFormed.linked y hy z hyz⟩
  intro hr
  exact Heap.next_notMem (hstays _ hr).2

theorem copyDelayed_again (href : (h.object a).refCount.toInt < 32767) (hcopy : (h.object a).copy = some old)
    (hused : ¬ ((h.object old).residentPageCount = 0 ∧ ¬ (h.object old).pagerCreated))
    : ∃ h', h.copyDelayed a = .ok (h.next, h') ∧ Copied outside a h.next h h' := by
  obtain ⟨hn, ha, hna, hobject⟩ := hsrc.allocated
  obtain ⟨hold, hshadow, hunique⟩ := hsrc.copies hcopy
  have hoa := hsrc.ne_of_copy hcopy
  have hno : h.next ≠ old := Ne.symm (ne_next hold)
  have hwf := hsrc.wellFormed.allocate hsrc.outside_next (h.object a).size
  have hpos : 0 < (h.object a).refCount - 1 := hsrc.refCount_sub_pos hold hshadow
  generalize hg : Objects.allocate h (h.object a).size = g at hn ha hobject hwf
  have hobjectOld : ∀ x ∈ h.live, g.object x = h.object x := by
    intro x hx
    rw [← hg, allocate_old hx]
  have hobjectNew : g.object h.next
      = { (template : VmObject β) with size := (h.object a).size } := by
    rw [← hg, allocate_new]
  have hlive : g.live = insert h.next h.live := by
    rw [← hg]
    rfl
  have hre : ∀ x, (g.rethreaded a old h.next).object x = _ := object_rethreaded hna hno hoa
  have hsource : (g.rethreaded a old h.next).object a = _ := (hre a).trans (if_pos rfl)
  refine ⟨(g.rethreaded a old h.next).linkedCopy a h.next, ?_, ?_⟩
  . have holdg : old ∈ g.live := by
      rw [hlive]
      exact mem_insert_of_mem hold
    have hposn : 0 < (g.object h.next).refCount := by
      rw [hobjectNew]
      exact (by decide : (0 : Int16) < 1)
    have hlink := linkCopy_eq (h := g.rethreaded a old h.next) hn ha hna (by rw [hsource, hobject]; exact hpos)
    rw [copyDelayed, get_bind hsrc.mem, hcopy, hg]
    dsimp only
    rw [get_bind holdg, hobjectOld old hold, if_neg hused,
      Stop.check_bind ⟨hshadow, hsrc.aligned a hsrc.mem old hcopy⟩, get_bind ha,
      Stop.check_bind (by rw [hobject]; exact hpos), get_bind (show h.next ∈ ((g.set a _).set old _).live from hn),
      Heap.object_set_of_ne hno, Heap.object_set_of_ne hna, Stop.check_bind hposn, ← hobjectOld old hold,
      rethreaded_eq hna hno hoa, hlink]
    rfl
  . have hshadowOf : ∀ x, ((g.rethreaded a old h.next).setCopy a none).object x
        = { (g.rethreaded a old h.next).object x with
            copy := (((g.rethreaded a old h.next).setCopy a none).object x).copy } := by
      intro x
      rw [setCopy]
      by_cases hxa : x = a
      . rw [hxa, object_modify_self]
      . rw [object_modify_of_ne hxa]
    have hlinks : ∀ x ∈ h.live, x ≠ old
        → (((g.rethreaded a old h.next).setCopy a none).object x).shadow = (h.object x).shadow := by
      intro x hx hxo
      rw [hshadowOf]
      by_cases hxa : x = a
      . rw [hxa, hsource, hobject]
      . rw [hre, if_neg hxa, if_neg hxo, if_neg (ne_next hx), hobjectOld x hx]
    have hlinkOld : (((g.rethreaded a old h.next).setCopy a none).object old).shadow = some h.next := by
      rw [hshadowOf, hre, if_neg hoa, if_pos rfl]
    have hlinkNew : (((g.rethreaded a old h.next).setCopy a none).object h.next).shadow = none := by
      rw [hshadowOf, hre, if_neg hna, if_neg hno, if_pos rfl, hobjectNew]
      rfl
    have hwf1 := hwf.rethreaded hn ha (by rw [hlive]; exact mem_insert_of_mem hold) hna hno hoa
      (by rw [hobjectNew]; rfl) (by rw [hobjectNew]; rfl) (by rw [hobjectOld old hold]; exact hshadow)
      (by rw [hobjectNew]; exact (by decide : (1 : Int16).toInt < 32767))
    have hwf' := hwf1.linkedCopy hn ha (by
        rw [hshadowOf, hsource, hobject]
        have hsub := toInt_sub_one hsrc.refCount_pos
        dsimp only
        omega) hlinkNew
      (hsrc.not_reaches_of_links hcopy hlinks)
      (by rw [setCopy, object_modify_self]) (by
        intro b hb hba
        have hb : b ∈ insert h.next h.live := hlive ▸ hb
        obtain rfl | hb := mem_insert.1 hb
        . rw [hlinkNew] at hba
          contradiction
        . by_cases hbo : b = old
          . rw [hbo, hlinkOld] at hba
            exact hna (some.inj hba)
          . rw [hlinks b hb hbo] at hba
            exact hbo (hunique b hb hba))
    rw [linkedCopy_setCopy hna] at hwf'
    apply Inserted.copied _ hsrc hwf'
    have hunshadowed : ∀ x ∈ h.live, x ≠ old → (h.object x).shadow ≠ some a :=
      fun x hx hxo hs => hxo (hunique x hx hs)
    refine ⟨hlive, next_notMem, ?_, ?_⟩
    . rw [object_linkedCopy hna, if_neg hna, if_pos rfl, hre, if_neg hna, if_neg hno, if_pos rfl, hobjectNew]
      rfl
    . intro x hx
      have hxn := ne_next hx
      by_cases hxa : x = a
      . rw [hxa, object_linkedCopy hna, if_pos rfl, hsource, hobject, if_pos rfl,
          map_shadow_of_ne (hunshadowed a hsrc.mem (Ne.symm hoa))]
      . rw [object_linkedCopy hna, if_neg hxa, if_neg hxn, if_neg hxa, hre, if_neg hxa]
        by_cases hxo : x = old
        . rw [hxo, if_pos rfl, hobjectOld old hold, hshadow, map_some, if_pos rfl]
        . rw [if_neg hxo, if_neg hxn, hobjectOld x hx, map_shadow_of_ne (hunshadowed x hx hxo)]

theorem nextPlace_copy (hcopy : (h.object a).copy = some c) (ho : o < wordSize)
    : h.nextPlace (c, o) = some (a, o) := by
  obtain ⟨hc, hshadow, -⟩ := hsrc.copies hcopy
  rw [nextPlace_of_mem hc, hshadow, hsrc.aligned a hsrc.mem c hcopy, Nat.add_zero, Nat.mod_eq_of_lt ho]
  rfl

-- an object without pages reads as its shadow does
theorem reads_of_empty (hcopy : (h.object a).copy = some c)
    (hempty : ∀ o, (h.object c).memq.lookup o = none) (hpager : (h.object c).pagerCreated = false)
    {zero d : β} (ho : o < wordSize)
    : h.Reads pagers zero (a, o) d ↔ h.Reads pagers zero (c, o) d := by
  symm
  apply Finds.there_iff _ (hsrc.nextPlace_copy hcopy ho)
  rw [ownContents, if_pos (hsrc.copies hcopy).1, VmObject.contents_of_not_resident (by simp [hempty]),
    VmObject.pagerContents_of_not_pagerCreated hpager]

theorem copyDelayed_reuse (hcopy : (h.object a).copy = some old)
    (href : (h.object old).refCount.toInt < 32767) (hpages : (h.object old).memq.keys.length < 65536)
    (hunused : (h.object old).residentPageCount = 0 ∧ ¬ (h.object old).pagerCreated)
    : ∃ h', h.copyDelayed a = .ok (old, h') ∧ Copied outside a old h h' := by
  obtain ⟨hn, ha, -, hobject⟩ := hsrc.allocated
  obtain ⟨hold, hshadow, -⟩ := hsrc.copies hcopy
  have hoa := hsrc.ne_of_copy hcopy
  have hno := ne_next hold
  have hsrc1 := hsrc.allocate hsrc.size_le
  have hfewer1 := fewer_allocate (h := h) (h.object a).size
  generalize hg : Objects.allocate h (h.object a).size = g at hn ha hobject hsrc1 hfewer1
  have holdg : old ∈ g.live := hfewer1.live hold
  have hobjectOld : g.object old = h.object old := by
    rw [← hg, allocate_old hold]
  have hcounted := hsrc1.wellFormed.counted old holdg
  rw [hobjectOld, addOutside_of_ne hno] at hcounted
  have hsrc2 : Source (addOutside (addOutside outside (some old)) (some h.next)) a
      (g.setRefCount old ((h.object old).refCount + 1)) := by
    apply hsrc1.setRefCount _ _ holdg
    . intro x hx
      have hne : addOutside outside (some old) x = outside x := addOutside_of_ne hx
      simp only [addOutside] at hne ⊢
      omega
    . rw [addOutside, addOutside]
      have := hsrc.held
      omega
    . rw [toInt_add_one href, addOutside_of_ne hno, addOutside_self]
      omega
    . intro hzero
      have hadd := toInt_add_one href
      have hpos := hsrc.copy_refCount_pos hcopy
      have htoInt : (0 : Int16).toInt = 0 := rfl
      rw [hzero] at hadd
      omega
  have hfewer2 : Fewer ∅ g (g.setRefCount old ((h.object old).refCount + 1)) := setRefCount_fewer _
  obtain ⟨h', heq, hreleased⟩ := deallocate_spec hsrc2.wellFormed (by
    intro x hx
    obtain rfl := some.inj hx
    exact hn)
  have hlive : h.live ⊆ h'.live := by
    intro x hx
    by_contra hgone
    obtain ⟨-, y, hy, hr⟩ := hreleased.freed x (hfewer1.live hx) hgone
    obtain rfl := some.inj hy
    apply ne_next hx
    symm
    apply hr.eq_of_end
    rw [(sameLinks_setRefCount _).links, links_of_mem hn, ← hg, allocate_new]
    rfl
  have hsrc' : Source (addOutside outside (some old)) a h' := by
    apply hsrc2.released hreleased
    rw [addOutside]
    have := hsrc.held
    omega
  have hsame : ∀ x ∈ h.live, h'.object x =
      { h.object x with refCount := (h'.object x).refCount, copy := (h'.object x).copy } := by
    intro x hx
    have hsame := (hfewer2.trans hreleased.fewer).same x (hlive hx) (Set.notMem_empty x)
    rw [← hg, allocate_old hx] at hsame
    exact hsame
  have hreads : ∀ (pagers : Pagers β) (zero : β) (p : Nat × Nat) (d : β), p.1 ∈ h.live
      → (h.Reads pagers zero p d ↔ h'.Reads pagers zero p d) := by
    intro pagers zero p d hp
    rw [← hfewer1.reads_iff hsrc.wellFormed pagers zero hp d]
    exact (hfewer2.trans hreleased.fewer).reads_iff hsrc'.wellFormed pagers zero (hlive hp) d
  have hempty := lookup_eq_none_of_residentPageCount hunused.1 hpages
  refine ⟨h', ?_, ?_⟩
  . have hpos := hsrc.zero_lt_copy_refCount hcopy
    have hset : g.set old { h.object old with refCount := (h.object old).refCount + 1 }
        = g.setRefCount old ((h.object old).refCount + 1) := by
      rw [Objects.setRefCount, Heap.modify, hobjectOld]
    rw [copyDelayed, get_bind hsrc.mem, hcopy, hg]
    dsimp only
    rw [get_bind holdg, hobjectOld, if_pos hunused, Stop.check_bind hpos, hset, heq]
    rfl
  . have hcopy' : (h'.object a).copy = some old := by
      apply hsrc'.only old (hlive hold)
      rw [hsame old hold]
      exact hshadow
    have hpager : (h.object old).pagerCreated = false := by simpa using hunused.2
    refine ⟨hsrc', hoa, hcopy', .inl hcopy, ?_, ?_, ?_, ?_, hlive, ?_, hreads, ?_, ?_, ?_⟩
    . intro pagers o
      have hcontents : (h.object old).contents pagers o = none := by
        rw [contents_of_not_resident (by simp [hempty]), pagerContents_of_not_pagerCreated hpager]
      rw [hsame old hold]
      exact hcontents
    . rw [hsame old hold]
      exact (hsrc.wellFormed.noPager old hold hpager).1
    . intro x hx
      have hsame := hsame x hx
      have hshadow := congrArg shadow hsame
      rwa [hshadow]
    . intro hunpaged x hx
      rw [(hfewer2.trans hreleased.fewer).same x hx (Set.notMem_empty x)]
      have hx : x ∈ insert h.next h.live := by
        have hx := hreleased.fewer.live hx
        rwa [← hg] at hx
      rw [← hg]
      obtain rfl | hx := mem_insert.1 hx
      . rw [allocate_new]
        exact ⟨rfl, rfl, rfl⟩
      . rw [allocate_old hx]
        exact hunpaged x hx
    . rw [hsame a hsrc.mem]
    . intro p hp hbelow
      apply hbelow.congr (S := { x | x ∈ h.live }) _ hp
      intro p q hp _ hnext
      have hsame' : h'.nextPlace p = h.nextPlace p := by
        rw [nextPlace_of_mem hp, nextPlace_of_mem (hlive hp), hsame p.1 hp]
      rw [hsame'] at hnext
      exact ⟨hnext, hsrc.wellFormed.linked p.1 hp q.1 (mem_of_links (links_of_nextPlace hnext)).2⟩
    . intro pagers zero o d ho
      have hsize := hsrc.size_le
      rw [hsrc.reads_of_empty hcopy hempty hpager (by omega)]
      exact hreads pagers zero (old, o) d hold
    . intro o ho
      have := hsrc.size_le
      exact below_of_next (hsrc'.nextPlace_copy hcopy' (by omega)) ho ho

theorem copyDelayed_spec (hfits : Fits h)
    : ∃ c h', h.copyDelayed a = .ok (c, h') ∧ Copied outside a c h h' := by
  have href := (hfits a hsrc.mem).1
  cases hcopy : (h.object a).copy with
  | none => exact ⟨h.next, hsrc.copyDelayed_first href hcopy⟩
  | some old =>
    obtain ⟨hold, -, -⟩ := hsrc.copies hcopy
    by_cases hunused : (h.object old).residentPageCount = 0 ∧ ¬ (h.object old).pagerCreated
    . exact ⟨old, hsrc.copyDelayed_reuse hcopy (hfits old hold).1 (hfits old hold).2 hunused⟩
    . exact ⟨h.next, hsrc.copyDelayed_again href hcopy hunused⟩

end Source

end Objects

end Vm
