import UtahMach.Vm.Object.Collapse

/-!
This module contains the graph of the objects.
-/

open Chain

namespace Vm

open Heap

variable {β : Type} {a b c o : Nat} {h h' : Objects β}

structure Objects.WellFormed (outside : Nat → Nat) (h : Objects β) : Prop where
  acyclic : Acyclic (h.links VmObject.shadow)
  linked : ∀ a ∈ h.live, ∀ b ∈ (h.object a).shadow, b ∈ h.live
  counted : ∀ a ∈ h.live, (h.object a).refCount.toInt = outside a + h.linkers VmObject.shadow a
  copies : ∀ a ∈ h.live, ∀ c ∈ (h.object a).copy, c ∈ h.live ∧ (h.object c).shadow = some a
    ∧ ∀ b ∈ h.live, (h.object b).shadow = some a → b = c
  noPager : ∀ a ∈ h.live, (h.object a).pagerCreated = false → (h.object a).pager = none
    ∧ (h.object a).existenceInfo = none ∧ ∀ o b, (h.object a).memq.lookup o ≠ some (.absent b)

structure Objects.Windows (h : Objects β) : Prop where
  noWrap : ∀ a ∈ h.live, (h.object a).shadowOffset + (h.object a).size ≤ wordSize
  inside : ∀ a ∈ h.live, ∀ b ∈ (h.object a).shadow, (h.object b).internal
    → (h.object a).shadowOffset + (h.object a).size ≤ (h.object b).size

-- a collapse goes on through internal shadows only
inductive Objects.Depth (h : Objects β) (a : Nat) : Nat → Nat → Prop where
  | shadow {b : Nat} (hb : (h.object a).shadow = some b) : Depth h a (h.object a).shadowOffset b
  | next {n x y : Nat} (hx : Depth h a n x) (hinternal : (h.object x).internal) (hy : (h.object x).shadow = some y)
    : Depth h a (n + (h.object x).shadowOffset) y

def Objects.Window (h : Objects β) (a : Nat) : Prop := ∀ n b, h.Depth a n b → n + (h.object a).size ≤ wordSize

def Objects.Aligned (h : Objects β) : Prop := ∀ a ∈ h.live, ∀ c ∈ (h.object a).copy, (h.object c).shadowOffset = 0

def Objects.Unpaged (h : Objects β) : Prop :=
  ∀ a ∈ h.live, (h.object a).pagerCreated = false ∧ (h.object a).internal
    ∧ (h.object a).canPersist = false

namespace Objects

section

variable {outside : Nat → Nat} {n x : Nat} (hwf : WellFormed outside h) (ha : a ∈ h.live)
include hwf ha

theorem WellFormed.mem_of_reaches (hr : Reaches (h.links VmObject.shadow) a x) : x ∈ h.live := by
  obtain rfl | ⟨y, -, hlink⟩ := Relation.ReflTransGen.cases_tail hr
  . exact ha
  . obtain ⟨hy, hlink⟩ := mem_of_links hlink
    exact hwf.linked y hy x hlink

theorem Windows.window (hwin : Windows h) : Window h a := by
  suffices hinside : ∀ n x, h.Depth a n x → x ∈ h.live ∧ n + (h.object a).size ≤ wordSize
      ∧ ((h.object x).internal → n + (h.object a).size ≤ (h.object x).size) from fun n x hd => (hinside n x hd).2.1
  intro n x hd
  induction hd with
  | shadow hb => exact ⟨hwf.linked a ha _ hb, hwin.noWrap a ha, hwin.inside a ha _ hb⟩
  | @next n x y _ hinternal hy ih =>
    obtain ⟨hx, -, hsize⟩ := ih
    have hsize := hsize hinternal
    have hwrap := hwin.noWrap x hx
    refine ⟨hwf.linked x hx y hy, by omega, fun hyinternal => ?_⟩
    have := hwin.inside x hx y hy hyinternal
    omega

theorem Depth.reaches (hb : (h.object a).shadow = some b) (hd : h.Depth a n x)
    : x ∈ h.live ∧ Reaches (h.links VmObject.shadow) b x := by
  induction hd with
  | shadow hx =>
    rw [hb] at hx
    cases hx
    exact ⟨hwf.linked a ha b hb, .refl⟩
  | next _ _ hy ih => exact ⟨hwf.linked _ ih.1 _ hy, .tail ih.2 (by rw [links_of_mem ih.1, hy])⟩

theorem Depth.ne (hb : (h.object a).shadow = some b) (hd : h.Depth a n x) : x ≠ a := by
  rintro rfl
  have hlink : h.links VmObject.shadow x = some b := by rw [links_of_mem ha, hb]
  exact hwf.acyclic.not_reaches hlink (hd.reaches hwf ha hb).2

end

structure SameLinks (h h' : Objects β) : Prop where
  live : h'.live = h.live
  shadow : ∀ x ∈ h.live, (h'.object x).shadow = (h.object x).shadow
  copy : ∀ x ∈ h.live, (h'.object x).copy = (h.object x).copy
  pagerCreated : ∀ x ∈ h.live, (h'.object x).pagerCreated = (h.object x).pagerCreated
  pager : ∀ x ∈ h.live, (h'.object x).pager = (h.object x).pager
  existenceInfo : ∀ x ∈ h.live, (h.object x).pagerCreated = false
    → (h'.object x).existenceInfo = (h.object x).existenceInfo

theorem SameLinks.links (hs : SameLinks h h') : h'.links VmObject.shadow = h.links VmObject.shadow := by
  funext x
  by_cases hx : x ∈ h.live
  . rw [links_of_mem hx, links_of_mem (hs.live ▸ hx), hs.shadow x hx]
  . rw [links_of_notMem hx, links_of_notMem (hs.live ▸ hx)]

theorem WellFormed.of_sameLinks {outside outside' : Nat → Nat} (hwf : WellFormed outside h) (hs : SameLinks h h')
    (hcounted : ∀ x ∈ h.live, (h'.object x).refCount.toInt = outside' x + h.linkers VmObject.shadow x)
    (habsent : ∀ x ∈ h.live, (h.object x).pagerCreated = false → ∀ o b, (h'.object x).memq.lookup o ≠ some (.absent b))
    : WellFormed outside' h' where
  acyclic := by
    rw [hs.links]
    exact hwf.acyclic
  linked := by
    intro x hx y hy
    rw [hs.live] at hx ⊢
    rw [hs.shadow x hx] at hy
    exact hwf.linked x hx y hy
  counted := by
    intro x hx
    rw [hs.live] at hx
    rw [linkers_congr VmObject.shadow hs.live hs.shadow]
    exact hcounted x hx
  copies := by
    intro x hx c hc
    rw [hs.live] at hx ⊢
    rw [hs.copy x hx] at hc
    obtain ⟨hclive, hcshadow, hunique⟩ := hwf.copies x hx c hc
    refine ⟨hclive, by rw [hs.shadow c hclive]; exact hcshadow, ?_⟩
    intro y hy hyshadow
    rw [hs.shadow y hy] at hyshadow
    exact hunique y hy hyshadow
  noPager := by
    intro x hx hpager
    rw [hs.live] at hx
    rw [hs.pagerCreated x hx] at hpager
    rw [hs.pager x hx, hs.existenceInfo x hx hpager]
    obtain ⟨hnone, hexistence, -⟩ := hwf.noPager x hx hpager
    exact ⟨hnone, hexistence, habsent x hx hpager⟩

theorem nextPlace_of_mem {p : Nat × Nat} (hp : p.1 ∈ h.live) : h.nextPlace p = (h.object p.1).shadow.map
        fun b => (b, (p.2 + (h.object p.1).shadowOffset) % wordSize) := by
  rw [nextPlace, links_of_mem hp]

theorem links_of_nextPlace {p q : Nat × Nat} (hnext : h.nextPlace p = some q)
    : h.links VmObject.shadow p.1 = some q.1 := by
  rw [nextPlace, Option.map_eq_some_iff] at hnext
  obtain ⟨b, hb, rfl⟩ := hnext
  exact hb

theorem acyclic_nextPlace (hlinks : Acyclic (h.links VmObject.shadow)) : Acyclic h.nextPlace := by
  apply Subrelation.wf _ (InvImage.wf Prod.fst hlinks)
  intro q p hnext
  exact links_of_nextPlace hnext

def Below (h : Objects β) (a bound : Nat) (p : Nat × Nat) : Prop :=
  ∀ q, Reaches (fun p => if p.1 = a then none else h.nextPlace p) p q → q.1 = a → q.2 < bound

variable {bound : Nat} {p q : Nat × Nat}

theorem Below.lt (hp : h.Below a bound (a, o)) : o < bound := hp (a, o) .refl rfl

theorem below_of_next (hnext : h.nextPlace p = some (a, o)) (ho : o < bound) (hp : p.2 < bound)
    : h.Below a bound p := by
  intro q hq heq
  obtain rfl | ⟨r, hr, hrest⟩ := hq.cases_head
  . exact hp
  . split at hr
    . contradiction
    . rw [hnext] at hr
      obtain rfl := Option.some.inj hr
      obtain rfl := hrest.eq_of_end (if_pos rfl)
      exact ho

theorem Below.next (hp : h.Below a bound p) (hne : p.1 ≠ a) (hnext : h.nextPlace p = some q) : h.Below a bound q := by
  intro r hr
  apply hp r
  apply Reaches.head _ hr
  rw [if_neg hne]
  exact hnext

-- the links up to the object are the same
theorem Below.congr {S : Set Nat}
    (hS : ∀ p q, p.1 ∈ S → p.1 ≠ a → h'.nextPlace p = some q → h.nextPlace p = some q ∧ q.1 ∈ S)
    (hmem : p.1 ∈ S) (hp : h.Below a bound p) : h'.Below a bound p := by
  intro q hq
  induction hq using Relation.ReflTransGen.head_induction_on with
  | refl => exact hp q .refl
  | @head p r hnext _ ih =>
    dsimp only at hnext
    split at hnext
    . contradiction
    . next hne =>
      obtain ⟨hnext, hr⟩ := hS p r hmem hne hnext
      exact ih hr (hp.next hne hnext)

-- the links of places are links of objects
theorem reaches_links (hr : Reaches (fun p => if p.1 = a then none else h.nextPlace p) p q)
    : Reaches (h.links VmObject.shadow) p.1 q.1 := by
  induction hr with
  | refl => exact .refl
  | tail _ hnext ih =>
    dsimp only at hnext
    split at hnext
    . contradiction
    . exact ih.tail (links_of_nextPlace hnext)

theorem below_of_not_reaches (hr : ¬ Reaches (h.links VmObject.shadow) p.1 a) : h.Below a bound p := by
  intro q hq heq
  rw [← heq] at hr
  exact absurd (reaches_links hq) hr

structure Fewer (but : Set Nat) (h h' : Objects β) : Prop where
  live : h'.live ⊆ h.live
  same : ∀ x ∈ h'.live, x ∉ but → h'.object x =
    { h.object x with refCount := (h'.object x).refCount, copy := (h'.object x).copy }

namespace Fewer

variable {but : Set Nat} {x : Nat}

theorem refl : Fewer but h h := ⟨subset_rfl, fun _ _ _ => rfl⟩

theorem trans (hf : Fewer but h h') (hf' : Fewer but h' h'') : Fewer but h h'' where
  live := hf'.live.trans hf.live
  same := by
    intro x hx hne
    have hsame := hf'.same x hx hne
    rw [hf.same x (hf'.live hx) hne] at hsame
    exact hsame

theorem nextPlace (hf : Fewer but h h') (hp : p.1 ∈ h'.live) (hne : p.1 ∉ but) : h'.nextPlace p = h.nextPlace p := by
  have hshadow := congrArg VmObject.shadow (hf.same p.1 hp hne)
  have hoffset := congrArg VmObject.shadowOffset (hf.same p.1 hp hne)
  rw [nextPlace_of_mem hp, nextPlace_of_mem (hf.live hp), hshadow, hoffset]

theorem ownContents (hf : Fewer but h h') (pagers : Nat → Nat → Option β) (hp : p.1 ∈ h'.live)
    (hne : p.1 ∉ but) : h'.ownContents pagers p = h.ownContents pagers p := by
  have hcontents := congrArg (VmObject.contents pagers · p.2) (hf.same p.1 hp hne)
  rw [Objects.ownContents, Objects.ownContents, if_pos hp, if_pos (hf.live hp)]
  exact hcontents

theorem below (hf : Fewer but h h') (hbut : but ⊆ {a})
    (hlinked : ∀ x ∈ h'.live, ∀ y ∈ (h'.object x).shadow, y ∈ h'.live) (hmem : p.1 ∈ h'.live)
    (hp : h.Below a bound p) : h'.Below a bound p := by
  apply hp.congr (S := { x | x ∈ h'.live }) _ hmem
  intro p q hmem hne hnext
  refine ⟨?_, hlinked p.1 hmem q.1 (mem_of_links (links_of_nextPlace hnext)).2⟩
  rwa [hf.nextPlace hmem fun hbad => hne (hbut hbad)] at hnext

end Fewer

structure Frame (a : Nat) (h h' : Objects β) : Prop extends Fewer {a} h h' where
  mem : a ∈ h'.live
  size : (h'.object a).size = (h.object a).size

namespace Frame

theorem trans (hf : Frame a h h') (hf' : Frame a h' h'') : Frame a h h'' where
  toFewer := hf.toFewer.trans hf'.toFewer
  mem := hf'.mem
  size := hf'.size.trans hf.size

theorem refl (ha : a ∈ h.live) : Frame a h h := ⟨.refl, ha, rfl⟩

theorem below (hf : Frame a h h') (hlinked : ∀ x ∈ h'.live, ∀ y ∈ (h'.object x).shadow, y ∈ h'.live)
    (hmem : p.1 ∈ h'.live) (hp : h.Below a bound p) : h'.Below a bound p :=
  hf.toFewer.below subset_rfl hlinked hmem hp

theorem reads_iff (hf : Frame a h h') (hacyclic : Acyclic (h.links VmObject.shadow))
    (hacyclic' : Acyclic (h'.links VmObject.shadow))
    (hlinked : ∀ x ∈ h'.live, ∀ y ∈ (h'.object x).shadow, y ∈ h'.live) (hb : b ∈ h.live)
    (hab : (h.object a).shadow = some b) (hshadow : (h'.object a).shadow = (h.object b).shadow)
    (hoffset : (h'.object a).shadowOffset = ((h.object a).shadowOffset + (h.object b).shadowOffset) % wordSize)
    (pagers : Nat → Nat → Option β) (zero : β) (hcontents : ∀ o < (h.object a).size, (h'.object a).contents pagers o
      = ((h.object a).contents pagers o).or ((h.object b).contents pagers ((o + (h.object a).shadowOffset) % wordSize)))
    (hmem : p.1 ∈ h'.live) (hp : h.Below a (h.object a).size p) (d : β)
    : h.Reads pagers zero p d ↔ h'.Reads pagers zero p d := by
  have hlinka : h.links VmObject.shadow a = some b := by rw [links_of_mem (hf.live hf.mem), hab]
  apply Finds.standsFor_iff (S := { p | p.1 ∈ h'.live ∧ h.Below a (h.object a).size p })
    (acyclic_nextPlace hacyclic') _ ⟨hmem, hp⟩
  rintro ⟨x, o⟩ ⟨hx, hp⟩
  by_cases hne : x = a
  . subst hne
    have hnext : h.nextPlace (x, o) = some (b, (o + (h.object x).shadowOffset) % wordSize) := by
      rw [nextPlace_of_mem (hf.live hx), hab]
      rfl
    have hnext' : h'.nextPlace (x, o) = h.nextPlace (b, (o + (h.object x).shadowOffset) % wordSize) := by
      rw [nextPlace_of_mem hx, nextPlace_of_mem hb, hshadow, hoffset]
      have hadd : (o + ((h.object x).shadowOffset + (h.object b).shadowOffset) % wordSize) % wordSize
          = ((o + (h.object x).shadowOffset) % wordSize + (h.object b).shadowOffset) % wordSize := by
        rw [Nat.add_mod_mod, Nat.mod_add_mod, Nat.add_assoc]
      rw [hadd]
    refine .both _ hnext ?_ hnext' ?_
    . rw [Objects.ownContents, Objects.ownContents, Objects.ownContents, if_pos hx, if_pos (hf.live hx), if_pos hb]
      exact hcontents o hp.lt
    . intro q hq
      have hlink := links_of_nextPlace hq
      refine ⟨?_, below_of_not_reaches ?_⟩
      . rw [← hnext'] at hq
        exact hlinked x hx q.1 (mem_of_links (links_of_nextPlace hq)).2
      . intro hr
        exact hacyclic.not_reaches hlinka (Reaches.head hlink hr)
  . refine .same (hf.ownContents pagers hx hne) (hf.nextPlace hx hne) ?_
    intro _ q hq
    refine ⟨?_, hp.next hne hq⟩
    rw [← hf.nextPlace hx hne] at hq
    exact hlinked x hx q.1 (mem_of_links (links_of_nextPlace hq)).2

end Frame

end Objects

end Vm
