import UtahMach.Vm.Object.Delayed

/-!
This module contains the proof that the search of a fault for a page changes nothing for readers.
-/

open Chain

namespace Vm

open VmObject (contents_of_not_resident copy pagerCreated shadow shadowOffset size)

open Heap

variable {β : Type} {a b o : Nat} {h h' : Objects β} {outside : Nat → Nat} {pagers : Pagers β} {zero : β}

namespace Objects

structure Quiet (pagers : Pagers β) (zero : β) (outside : Nat → Nat) (a : Nat) (h h' : Objects β)
    : Prop where
  source : Source outside a h'
  unpaged : Unpaged h → Unpaged h'
  live : h'.live ⊆ h.live
  size : (h'.object a).size = (h.object a).size
  below : ∀ p : Nat × Nat, p.1 ∈ h'.live → h.Below a (h.object a).size p → h'.Below a (h.object a).size p
  reads : ∀ (p : Nat × Nat) (d : β), p.1 ∈ h'.live
    → h.Below a (h.object a).size p → (h.Reads pagers zero p d ↔ h'.Reads pagers zero p d)

namespace Quiet

theorem refl (hsrc : Source outside a h) : Quiet pagers zero outside a h h :=
  ⟨hsrc, id, subset_rfl, rfl, fun _ _ => id, fun _ _ _ _ => Iff.rfl⟩

theorem trans (hq : Quiet pagers zero outside a h h') (hq' : Quiet pagers zero outside a h' h'')
    : Quiet pagers zero outside a h h'' where
  source := hq'.source
  unpaged := hq'.unpaged ∘ hq.unpaged
  live := hq'.live.trans hq.live
  size := hq'.size.trans hq.size
  below := by
    intro p hp hbelow
    have hbelow' := hq.below p (hq'.live hp) hbelow
    rw [← hq.size] at hbelow' ⊢
    exact hq'.below p hp hbelow'
  reads := by
    intro p d hp hbelow
    have hbelow' := hq.below p (hq'.live hp) hbelow
    rw [← hq.size] at hbelow'
    exact (hq.reads p d (hq'.live hp) hbelow).trans (hq'.reads p d hp hbelow')

theorem mem (hq : Quiet pagers zero outside a h h') (hx : outside x ≠ 0) : x ∈ h'.live :=
  hq.source.referenced x hx

end Quiet

structure Repaged (h h' : Objects β) : Prop where
  live : h'.live = h.live
  same : ∀ x, h'.object x =
    {
      h.object x with
      memq := (h'.object x).memq
      absentCount := (h'.object x).absentCount
      existenceInfo := (h'.object x).existenceInfo
    }
  existenceInfo : ∀ x, (h.object x).pagerCreated = false
    → (h'.object x).existenceInfo = (h.object x).existenceInfo
  absent : ∀ x o, ∀ b, (h'.object x).memq.lookup o = some (.absent b)
    → (h.object x).memq.lookup o = some (.absent b)

namespace Repaged

variable {h'' : Objects β}

theorem refl : Repaged h h := ⟨rfl, fun _ => rfl, fun _ _ => rfl, fun _ _ _ => id⟩

section

variable (hr : Repaged h h')
include hr

theorem trans (hr' : Repaged h' h'') : Repaged h h'' where
  live := hr'.live.trans hr.live
  same := by
    intro x
    have hsame := hr'.same x
    rw [hr.same x] at hsame
    exact hsame
  existenceInfo := by
    intro x hpager
    have hpager' : (h'.object x).pagerCreated = false := by
      rw [hr.same x]
      exact hpager
    exact (hr'.existenceInfo x hpager').trans (hr.existenceInfo x hpager)
  absent := fun x o b habsent => hr.absent x o b (hr'.absent x o b habsent)

theorem part (g : VmObject β → γ) (hg : ∀ object memq absentCount existenceInfo,
      g { object with memq, absentCount, existenceInfo } = g object) (x : Nat)
    : g (h'.object x) = g (h.object x) := by
  rw [hr.same x, hg]

theorem sameLinks : SameLinks h h' where
  live := hr.live
  shadow := fun x _ => hr.part shadow (fun _ _ _ _ => rfl) x
  copy := fun x _ => hr.part copy (fun _ _ _ _ => rfl) x
  pagerCreated := fun x _ => hr.part pagerCreated (fun _ _ _ _ => rfl) x
  pager := fun x _ => hr.part VmObject.pager (fun _ _ _ _ => rfl) x
  existenceInfo := fun x _ hpager => hr.existenceInfo x hpager

theorem wellFormed (hwf : WellFormed outside h) : WellFormed outside h' := by
  apply hwf.of_sameLinks hr.sameLinks
  . intro x hx
    rw [hr.part VmObject.refCount fun _ _ _ _ => rfl]
    exact hwf.counted x hx
  . intro x hx hpager o b habsent
    exact (hwf.noPager x hx hpager).2.2 o b (hr.absent x o b habsent)

theorem nextPlace : h'.nextPlace = h.nextPlace := by
  funext p
  rw [Objects.nextPlace, Objects.nextPlace, hr.sameLinks.links, hr.part shadowOffset fun _ _ _ _ => rfl]

theorem windows (hwin : Windows h) : Windows h' := by
  refine ⟨?_, ?_⟩
  . intro x hx
    rw [hr.live] at hx
    rw [hr.part shadowOffset fun _ _ _ _ => rfl, hr.part size fun _ _ _ _ => rfl]
    exact hwin.noWrap x hx
  . intro x hx y hy
    rw [hr.live] at hx
    rw [hr.part shadow fun _ _ _ _ => rfl] at hy
    rw [hr.part VmObject.internal fun _ _ _ _ => rfl, hr.part shadowOffset fun _ _ _ _ => rfl,
      hr.part size fun _ _ _ _ => rfl, hr.part size fun _ _ _ _ => rfl]
    exact hwin.inside x hx y hy

theorem source (hsrc : Source outside a h) : Source outside a h' where
  wellFormed := hr.wellFormed hsrc.wellFormed
  windows := hr.windows hsrc.windows
  aligned := by
    intro x hx c hc
    rw [hr.live] at hx
    rw [hr.part copy fun _ _ _ _ => rfl] at hc
    rw [hr.part shadowOffset fun _ _ _ _ => rfl]
    exact hsrc.aligned x hx c hc
  sizes := by
    intro c hc
    rw [hr.part copy fun _ _ _ _ => rfl] at hc
    rw [hr.part size fun _ _ _ _ => rfl, hr.part size fun _ _ _ _ => rfl]
    exact hsrc.sizes c hc
  used := by
    intro c hc
    rw [hr.part copy fun _ _ _ _ => rfl] at hc
    rw [hr.part VmObject.refCount fun _ _ _ _ => rfl, hr.part VmObject.canPersist fun _ _ _ _ => rfl]
    exact hsrc.used c hc
  referenced := by
    rw [hr.live]
    exact hsrc.referenced
  held := hsrc.held
  only := by
    intro b hb hshadow
    rw [hr.live] at hb
    rw [hr.part shadow fun _ _ _ _ => rfl] at hshadow
    rw [hr.part copy fun _ _ _ _ => rfl]
    exact hsrc.only b hb hshadow

theorem unpaged (hunpaged : Unpaged h) : Unpaged h' := by
  intro x hx
  rw [hr.live] at hx
  rw [hr.part pagerCreated fun _ _ _ _ => rfl, hr.part VmObject.internal fun _ _ _ _ => rfl,
    hr.part VmObject.canPersist fun _ _ _ _ => rfl]
  exact hunpaged x hx

theorem below {p : Nat × Nat} (hp : h.Below a bound p) : h'.Below a bound p := by
  rw [Below, hr.nextPlace]
  exact hp

end

theorem setPage : Repaged h (h.setPage b o d) where
  live := rfl
  same := by
    intro x
    by_cases hx : x = b
    . rw [hx, object_setPage_self]
    . rw [object_setPage_of_ne hx]
  existenceInfo := fun x _ => setPage_part VmObject.existenceInfo rfl x
  absent := by
    intro x o' _ habsent
    by_cases heq : (x, o') = (b, o)
    . obtain ⟨rfl, rfl⟩ := Prod.ext_iff.1 heq
      rw [lookup_setPage_self] at habsent
      cases habsent
    . rwa [lookup_setPage_of_ne heq] at habsent

end Repaged

structure Still (pagers : Pagers β) (zero : β) (h h' : Objects β) : Prop extends Repaged h h' where
  reads : ∀ p d, h.Reads pagers zero p d ↔ h'.Reads pagers zero p d

namespace Still

theorem refl : Still pagers zero h h := ⟨.refl, fun _ _ => Iff.rfl⟩

theorem trans (hs : Still pagers zero h h') (hs' : Still pagers zero h' h'') : Still pagers zero h h'' :=
  ⟨hs.toRepaged.trans hs'.toRepaged, fun p d => (hs.reads p d).trans (hs'.reads p d)⟩

theorem quiet (hs : Still pagers zero h h') (hsrc : Source outside a h) : Quiet pagers zero outside a h h' where
  source := hs.source hsrc
  unpaged := hs.unpaged
  live := hs.live.le
  size := hs.part size (fun _ _ _ _ => rfl) a
  below := fun _ _ => hs.below
  reads := fun p d _ _ => hs.reads p d

theorem setPage (hwf : WellFormed outside h) (hb : b ∈ h.live)
    (hd : h.Reads pagers zero (b, o) d) : Still pagers zero h (h.setPage b o d) :=
  ⟨.setPage, fun p e => reads_setPage_iff hwf hb hd p e⟩

end Still

def dropPage (h : Objects β) (a o : Nat) : Objects β :=
  h.set a
    { h.object a with memq := (h.object a).memq.erase o, absentCount := (h.object a).absentCount - 1 }

theorem object_dropPage_self : (h.dropPage a o).object a =
    { h.object a with memq := (h.object a).memq.erase o, absentCount := (h.object a).absentCount - 1 } :=
  object_set_self

theorem object_dropPage_of_ne (hx : x ≠ a) : (h.dropPage a o).object x = h.object x := object_set_of_ne hx

theorem dropPage_part (g : VmObject β → γ) (hg : g { h.object a with
      memq := (h.object a).memq.erase o, absentCount := (h.object a).absentCount - 1 } = g (h.object a))
    (x : Nat) : g ((h.dropPage a o).object x) = g (h.object x) := by
  by_cases hx : x = a
  . rw [hx, object_dropPage_self, hg]
  . rw [object_dropPage_of_ne hx]

theorem lookup_dropPage_self : ((h.dropPage a o).object a).memq.lookup o = none := by
  rw [object_dropPage_self]
  exact AList.lookup_erase _ _

theorem lookup_dropPage_of_ne {p : Nat × Nat} (hp : p ≠ (a, o))
    : ((h.dropPage a o).object p.1).memq.lookup p.2 = (h.object p.1).memq.lookup p.2 := by
  by_cases hx : p.1 = a
  . rw [hx, object_dropPage_self]
    apply AList.lookup_erase_ne
    rintro rfl
    exact hp (Prod.ext hx rfl)
  . rw [object_dropPage_of_ne hx]

theorem Still.dropPage (hpage : ∀ d, (h.object a).memq.lookup o ≠ some (.resident d))
    : Still pagers zero h (h.dropPage a o) := by
  have hr : Repaged h (h.dropPage a o) := by
    refine ⟨rfl, ?_, fun x _ => dropPage_part VmObject.existenceInfo rfl x, ?_⟩
    . intro x
      by_cases hx : x = a
      . rw [hx, object_dropPage_self]
      . rw [object_dropPage_of_ne hx]
    . intro x o' _ habsent
      by_cases heq : (x, o') = (a, o)
      . obtain ⟨rfl, rfl⟩ := Prod.ext_iff.1 heq
        rw [lookup_dropPage_self] at habsent
        contradiction
      . rwa [lookup_dropPage_of_ne heq] at habsent
  refine ⟨hr, ?_⟩
  intro p d
  have hown : (h.dropPage a o).ownContents pagers = h.ownContents pagers := by
    funext q
    have hpager : ((h.dropPage a o).object q.1).pagerContents pagers q.2
        = (h.object q.1).pagerContents pagers q.2 :=
      dropPage_part (VmObject.pagerContents pagers · q.2) rfl q.1
    rw [ownContents, ownContents, hr.live]
    by_cases heq : q = (a, o)
    . subst heq
      rw [contents_of_not_resident hpage, contents_of_not_resident (by simp [lookup_dropPage_self]), hpager]
    . rw [VmObject.contents, VmObject.contents, lookup_dropPage_of_ne heq, hpager]
  rw [Reads, Reads, hown, hr.nextPlace]

namespace Source

section

variable (hsrc : Source outside a h)
include hsrc

theorem of_kept (hkept : Kept outside a h h') : Source outside a h' := by
  have hcopies : ∀ c ∈ (h'.object a).copy, (h.object a).copy = some c ∧ c ∈ h'.live
      ∧ (h'.object c).size = (h.object c).size ∧ (h'.object c).canPersist = (h.object c).canPersist := by
    intro c hc
    have hclive := (hkept.wellFormed.copies a hkept.frame.mem c hc).1
    rw [hkept.copy] at hc
    rw [hkept.frame.same c hclive (hsrc.ne_of_copy hc)]
    exact ⟨hc, hclive, rfl, rfl⟩
  refine ⟨hkept.wellFormed, hkept.windows hsrc.windows, hkept.aligned hsrc.aligned, ?_, ?_, ?_, hsrc.held, ?_⟩
  . intro c hc
    obtain ⟨hc, -, hsize, -⟩ := hcopies c hc
    rw [hsize, hkept.frame.size]
    exact hsrc.sizes c hc
  . intro c hc
    obtain ⟨hc, hclive, -, hpersist⟩ := hcopies c hc
    rw [hpersist]
    refine ⟨?_, (hsrc.used c hc).2⟩
    exact fun hzero => (hsrc.used c hc).1 (hkept.alive c hclive hzero)
  . intro x hx
    by_contra hgone
    exact hx (hkept.freed x (hsrc.referenced x hx) hgone).1
  . intro b hb hshadow
    have hba : b ≠ a := by
      rintro rfl
      have hlink : h'.links shadow b = some b := by rw [links_of_mem hb, hshadow]
      exact hkept.wellFormed.acyclic.not_reaches hlink .refl
    rw [hkept.frame.same b hb hba] at hshadow
    rw [hkept.copy]
    exact hsrc.only b (hkept.frame.live hb) hshadow

theorem collapse_spec (env : CollapseEnv) (hroom : ∀ x ∈ h.live, (h.object x).refCount.toInt < 32767)
    : ∃ h', h.collapse env (some a) = .ok h' ∧ Kept outside a h h' :=
  Objects.collapse_spec env hsrc.wellFormed (hsrc.windows.window hsrc.wellFormed hsrc.mem) hsrc.mem
    fun x hr _ _ => hroom x (hsrc.wellFormed.mem_of_reaches hsrc.mem hr)

theorem quiet_of_kept (hkept : Kept outside a h h') : Quiet pagers zero outside a h h' where
  source := hsrc.of_kept hkept
  unpaged := hkept.unpaged
  live := hkept.frame.live
  size := hkept.frame.size
  below := fun _ hp => hkept.frame.below hkept.wellFormed.linked hp
  reads := fun p d hp hbelow => hkept.reads pagers zero p d hp hbelow

theorem pushPage_eq (env : FaultEnv) (pagers : Pagers β) (ho : o < wordSize)
    {c : Nat} (hcopy : (h.object a).copy = some c) (d : β) : h.pushPage env pagers a o d =
        match (h.object c).memq.lookup o with
        | some (.absent true) => .ok (.retry, h, pagers)
        | some _ => .ok (.success, h, pagers)
        | none =>
          if ¬ env.copyGrab then
            .ok (.memoryShortage, h, pagers)
          else if ¬ (h.object c).pagerCreated then
            .ok (.success, h.setPage c o d, pagers)
          else
            match (h.object c).pager with
            | none => .error .undefined
            | some pager =>
              .ok (.success, h.set c ((h.object c).setThere ((o + (h.object c).pagingOffset) % wordSize)),
                pagers.write pager ((o + (h.object c).pagingOffset) % wordSize) d) := by
  obtain ⟨hc, -, -⟩ := hsrc.copies hcopy
  have hmod : (o + wordSize - (h.object c).shadowOffset) % wordSize = o := by
    rw [hsrc.aligned a hsrc.mem c hcopy, Nat.sub_zero, Nat.add_mod_right, Nat.mod_eq_of_lt ho]
  rw [pushPage, get_bind hsrc.mem, hcopy]
  dsimp only
  rewrite [get_bind hc, Stop.check_bind (hsrc.zero_lt_copy_refCount hcopy), hmod]
  rfl

end

end Source

def Answered (pagers : Pagers β) (h : Objects β) : Prop :=
  ∀ x ∈ h.live, ∀ e ∈ (h.object x).memq.entries, e.2.unavailable = true → (h.object x).pagerContents pagers e.1 = none

theorem Answered.askPager (hans : h.Answered pagers) (hx : x ∈ h.live) (o : Nat)
    : (h.object x).askPager pagers o = (h.object x).pagerContents pagers o := by
  unfold VmObject.askPager
  split
  . next hany =>
    obtain ⟨page, hlookup, hunavailable⟩ := (Option.any_eq_true _ _).1 hany
    exact (hans x hx _ (AList.mem_lookup_iff.1 hlookup) hunavailable).symm
  . rfl

theorem Answered.of_noAbsent (hno : ∀ x ∈ h.live, ∀ o b, (h.object x).memq.lookup o ≠ some (.absent b))
    : h.Answered pagers := by
  rintro x hx ⟨o, page⟩ he hunavailable
  cases page with
  | resident d => contradiction
  | absent busy => exact absurd (AList.mem_lookup_iff.2 he) (hno x hx o busy)

theorem Answered.dropPage (hans : h.Answered pagers) (a o : Nat) : (h.dropPage a o).Answered pagers := by
  intro x hx e he hunavailable
  rw [dropPage_part (VmObject.pagerContents pagers · e.1) rfl]
  apply hans x hx e _ hunavailable
  by_cases hxa : x = a
  . subst hxa
    rw [object_dropPage_self] at he
    exact (List.kerase_sublist _ _).subset he
  . rwa [object_dropPage_of_ne hxa] at he

theorem exists_dropped (pagers : Pagers β) (zero : β) (hpage : ∀ d, (h.object a).memq.lookup o ≠ some (.resident d))
    : ∃ h', (if ((h.object a).memq.lookup o).isSome then h.dropPage a o else h) = h'
        ∧ Still pagers zero h h' ∧ (h'.object a).memq.lookup o = none
        ∧ (h'.object a).pagerContents pagers o = (h.object a).pagerContents pagers o
        ∧ (∀ x, x ≠ a → h'.object x = h.object x) ∧ (h.Answered pagers → h'.Answered pagers) := by
  split
  . exact ⟨_, rfl, .dropPage hpage, lookup_dropPage_self, dropPage_part (VmObject.pagerContents pagers · o) rfl a,
      fun _ hx => object_dropPage_of_ne hx, fun hans => hans.dropPage a o⟩
  . next hnone => exact ⟨_, rfl, .refl, by simpa using hnone, rfl, fun _ _ => rfl, id⟩

theorem findPage_spec (pagers : Pagers β) (zero : β) (t : Finset Nat) {fuel : Nat} (hfuel : t.card < fuel)
    (hwf : WellFormed outside h) (hans : h.Answered pagers) {p : Nat × Nat} (hp : p.1 ∈ h.live)
    (ht : ∀ x, Reaches (h.links shadow) p.1 x → x ∈ t)
    : ∃ h' r, findPage pagers false fuel h p = .ok (h', r) ∧ Still pagers zero h h'
        ∧ (∀ x, ¬ Reaches (h.links shadow) p.1 x → h'.object x = h.object x)
        ∧ match r with
          | none => h'.Reads pagers zero p zero
          | some q => q.1 ∈ h'.live ∧ Reaches (h.links shadow) p.1 q.1 ∧ (q.1 = p.1 → q = p)
            ∧ ∃ d, (h'.object q.1).memq.lookup q.2 = some (.resident d) ∧ h'.Reads pagers zero p d := by
  induction fuel generalizing h p t with
  | zero => omega
  | succ fuel ih =>
    obtain ⟨x, o⟩ := p
    rw [findPage, get_bind hp]
    dsimp only
    by_cases hresident : ∃ d, (h.object x).memq.lookup o = some (.resident d)
    . obtain ⟨d, hlookup⟩ := hresident
      rw [hlookup]
      refine ⟨h, some (x, o), rfl, .refl, fun _ _ => rfl, hp, .refl, fun _ => rfl, d, hlookup, .here ?_⟩
      rw [ownContents, if_pos hp, VmObject.contents_of_resident hlookup]
    have hresident := not_exists.1 hresident
    have hown : h.ownContents pagers (x, o) = (h.object x).pagerContents pagers o := by
      rw [ownContents, if_pos hp, contents_of_not_resident hresident]
    split
    . next d hlookup => exact absurd hlookup (hresident d)
    rw [if_neg Bool.false_ne_true, hans.askPager hp]
    cases hpager : (h.object x).pagerContents pagers o with
    | some d =>
      have hstill : Still pagers zero h (h.setPage x o d) := .setPage hwf hp (.here (hown.trans hpager))
      refine ⟨h.setPage x o d, some (x, o), rfl, hstill, ?_, hp, .refl, fun _ => rfl, d, lookup_setPage_self,
        .here (ownContents_setPage_self pagers hp)⟩
      intro y hy
      apply object_setPage_of_ne
      rintro rfl
      exact hy .refl
    | none =>
      obtain ⟨h1, hh1, hstill, hlookup, hpager', hother, hans1⟩ := exists_dropped pagers zero hresident
      rw [dropPage] at hh1
      rw [hh1]
      have hlinks := hstill.sameLinks.links
      have hobject : (h1.object x).shadow = (h.object x).shadow := hstill.part shadow (fun _ _ _ _ => rfl) x
      have hp1 : x ∈ h1.live := by
        rw [hstill.live]
        exact hp
      have hown1 : h1.ownContents pagers (x, o) = none := by
        rw [ownContents, if_pos hp1, contents_of_not_resident (by simp [hlookup]), hpager', hpager]
      cases hshadow : (h.object x).shadow with
      | none =>
        refine ⟨h1, none, rfl, hstill, fun y hy => hother y ?_, .nowhere hown1 ?_⟩
        . rintro rfl
          exact hy .refl
        . rw [nextPlace_of_mem hp1, hobject, hshadow]
          rfl
      | some b =>
        have hlink : h.links shadow x = some b := by rw [links_of_mem hp, hshadow]
        have hnext : h1.nextPlace (x, o) = some (b, (o + (h.object x).shadowOffset) % wordSize) := by
          rw [hstill.nextPlace, nextPlace_of_mem hp, hshadow]
          rfl
        have hcard := Finset.card_erase_lt_of_mem (ht x .refl)
        obtain ⟨h', r, heq, hstill', hother', hr⟩ := ih (t.erase x) (by omega) (hstill.wellFormed hwf) (hans1 hans)
          (p := (b, (o + (h.object x).shadowOffset) % wordSize))
          (by rw [hstill.live]; exact hwf.linked x hp b hshadow) (by
            intro y hy
            rw [hlinks] at hy
            refine Finset.mem_erase.2 ⟨?_, ht y (Reaches.head hlink hy)⟩
            rintro rfl
            exact hwf.acyclic.not_reaches hlink hy)
        have hnot : ¬ Reaches (h.links shadow) b x := hwf.acyclic.not_reaches hlink
        rw [hlinks] at hother'
        have hown' : h'.ownContents pagers (x, o) = none := by
          rw [ownContents, hstill'.live, if_pos hp1, hother' x hnot, ← hown1, ownContents, if_pos hp1]
        have hnext' := hstill'.nextPlace ▸ hnext
        refine ⟨h', r, heq, hstill.trans hstill', ?_, ?_⟩
        . intro y hy
          rw [hother' y fun hr => hy (Reaches.head hlink hr)]
          apply hother
          rintro rfl
          exact hy .refl
        . cases r with
          | none => exact .there hown' hnext' hr
          | some q =>
            obtain ⟨hq, hreach, -, d, hpage, hd⟩ := hr
            rw [hlinks] at hreach
            refine ⟨hq, Reaches.head hlink hreach, ?_, d, hpage, .there hown' hnext' hd⟩
            intro heq
            exact absurd (heq ▸ hreach) hnot

end Objects

end Vm
