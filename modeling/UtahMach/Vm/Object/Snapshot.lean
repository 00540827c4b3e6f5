import UtahMach.Vm.Object.Search

/-!
This module contains the proof that delayed copies are snapshots of the source whatever is written to it
afterwards.
-/

open Chain

namespace Vm

open Objects Heap

variable {β : Type} {a b c o : Nat} {h h' : Objects β} {outside : Nat → Nat} {pagers : Pagers β}
  {zero : β}

structure Faulted.Ready (r : Faulted β) (a o : Nat) : Prop where
  page : r.page = (a, o)
  resident : ∃ d, (r.objects.object a).memq.lookup o = some (.resident d)
  pushed : ∀ c ∈ (r.objects.object a).copy, (r.objects.object c).memq.lookup o ≠ none

namespace Objects.Source

section

variable (hsrc : Source outside a h)
include hsrc

section

variable (hunpaged : Unpaged h)
include hunpaged

theorem ownContents_of_mem {p : Nat × Nat}
    (hp : p.1 ∈ h.live) : h.ownContents pagers p = none ↔ (h.object p.1).memq.lookup p.2 = none := by
  rw [ownContents, if_pos hp]
  cases hlookup : (h.object p.1).memq.lookup p.2 with
  | none =>
    rw [VmObject.contents_of_not_resident (by simp [hlookup]),
      VmObject.pagerContents_of_not_pagerCreated (hunpaged p.1 hp).1]
    simp
  | some page =>
    cases page with
    | resident d =>
      rw [VmObject.contents_of_resident hlookup]
      simp
    | absent busy => exact absurd hlookup ((hsrc.wellFormed.noPager p.1 hp (hunpaged p.1 hp).1).2.2 p.2 busy)

theorem pushPage_spec (env : FaultEnv) (pagers : Pagers β) (zero : β)
    (ho : o < wordSize) (hpage : (h.object a).memq.lookup o = some (.resident d))
    : ∃ ret h', h.pushPage env pagers a o d = .ok (ret, h', pagers) ∧ Quiet pagers zero outside a h h'
        ∧ (h'.object a).memq.lookup o = some (.resident d)
        ∧ (ret = .success → ∀ c ∈ (h'.object a).copy, (h'.object c).memq.lookup o ≠ none) := by
  cases hcopy : (h.object a).copy with
  | none =>
    rw [pushPage, get_bind hsrc.mem, hcopy]
    refine ⟨.success, h, rfl, .refl hsrc, hpage, ?_⟩
    intro _ c hc
    rw [hcopy] at hc
    contradiction
  | some c =>
    obtain ⟨hc, hshadow, -⟩ := hsrc.copies hcopy
    have hoffset := hsrc.aligned a hsrc.mem c hcopy
    have hca := hsrc.ne_of_copy hcopy
    rw [hsrc.pushPage_eq env pagers ho hcopy]
    split
    . exact ⟨.retry, h, rfl, .refl hsrc, hpage, by simp⟩
    . next hsome =>
      refine ⟨.success, h, rfl, .refl hsrc, hpage, ?_⟩
      intro _ c' hc'
      rw [hcopy] at hc'
      obtain rfl := Option.some.inj hc'
      rw [hsome]
      exact Option.some_ne_none _
    next hnone =>
    split
    . exact ⟨.memoryShortage, h, rfl, .refl hsrc, hpage, by simp⟩
    rw [if_pos (by rw [(hunpaged c hc).1]; decide)]
    refine ⟨.success, h.setPage c o d, rfl, (Still.setPage hsrc.wellFormed hc ?_).quiet hsrc, ?_, ?_⟩
    . apply Finds.there
      . apply (hsrc.ownContents_of_mem hunpaged hc).2
        simpa using hnone
      . rw [nextPlace_of_mem hc, hshadow, hoffset, Nat.add_zero, Nat.mod_eq_of_lt ho]
        rfl
      . apply Finds.here
        rw [ownContents, if_pos hsrc.mem, VmObject.contents_of_resident hpage]
    . rw [object_setPage_of_ne (Ne.symm hca)]
      exact hpage
    . intro _ c' hc'
      rw [setPage_part VmObject.copy rfl, hcopy] at hc'
      obtain rfl := Option.some.inj hc'
      rw [lookup_setPage_self]
      exact Option.some_ne_none _

theorem faultFound_spec (env : FaultEnv) (ho : o < wordSize)
    (hroom : ∀ x ∈ h.live, (h.object x).refCount.toInt < 32767) {p : Nat × Nat} (hp : p.1 ∈ h.live)
    (hpa : p.1 = a → p = (a, o)) (hpage : (h.object p.1).memq.lookup p.2 = some (.resident d))
    (hd : h.Reads pagers zero (a, o) d) (protWrite : Bool)
    : ∃ r, h.faultFound env pagers a o p true false protWrite = .ok r
        ∧ Quiet pagers zero outside a h r.objects ∧ (r.ret = .success → r.Ready a o) := by
  have hpageAt : h.pageAt p = .ok d := by
    rw [pageAt, get_bind hp, hpage]
  rw [faultFound, hpageAt]
  dsimp only [bind, Except.bind]
  by_cases hpa' : p.1 = a
  . obtain rfl := hpa hpa'
    obtain ⟨ret, h', heq, hquiet, hpage', hpushed⟩ := hsrc.pushPage_spec hunpaged env pagers zero ho hpage
    simp only [ne_eq, not_true_eq_false, false_and, if_false, Stop.check, not_false_eq_true, if_true, heq]
    exact ⟨_, rfl, hquiet, fun hret => ⟨rfl, ⟨d, hpage'⟩, hpushed hret⟩⟩
  . by_cases hgrab : env.grab = true
    . have hquiet := (Still.setPage hsrc.wellFormed hsrc.mem hd).quiet hsrc
      obtain ⟨h1, heq1, hkept⟩ := hquiet.source.collapse_spec env.collapse (by
          intro x hx
          rw [setPage_part VmObject.refCount rfl]
          exact hroom x hx)
      have hquiet1 : Quiet pagers zero outside a _ h1 := hquiet.source.quiet_of_kept hkept
      obtain ⟨ret, h', heq, hquiet', hpage', hpushed⟩ := hquiet1.source.pushPage_spec
        (hquiet1.unpaged (hquiet.unpaged hunpaged)) env pagers zero ho
        (hkept.pages o _ lookup_setPage_self)
      simp only [ne_eq, hpa', hgrab, not_true_eq_false, not_false_eq_true, and_false, and_true, if_false,
        Stop.check, if_true, heq1, heq]
      exact ⟨_, rfl, (hquiet.trans hquiet1).trans hquiet', fun hret => ⟨rfl, ⟨d, hpage'⟩, hpushed hret⟩⟩
    . rw [if_pos ⟨hpa', rfl, hgrab⟩]
      exact ⟨_, rfl, .refl hsrc, by simp⟩

theorem vmFaultPage_spec (env : FaultEnv) (pagers : Pagers β) (zero : β)
    (ho : o < wordSize) (hroom : ∀ x ∈ h.live, (h.object x).refCount.toInt < 32767) (protWrite : Bool)
    : ∃ r, h.vmFaultPage env pagers zero a o true false protWrite = .ok r
        ∧ Quiet pagers zero outside a h r.objects ∧ (r.ret = .success → r.Ready a o) := by
  obtain ⟨h1, r, heq, hstill, -, hr⟩ := findPage_spec pagers zero h.live (Nat.lt_succ_self _)
    hsrc.wellFormed (.of_noAbsent fun x hx => (hsrc.wellFormed.noPager x hx (hunpaged x hx).1).2.2)
    (p := (a, o)) hsrc.mem fun x hr => hsrc.wellFormed.mem_of_reaches hsrc.mem hr
  have hsrc1 := hstill.source hsrc
  have hunpaged1 := hstill.unpaged hunpaged
  have hroom1 : ∀ x ∈ h1.live, (h1.object x).refCount.toInt < 32767 := by
    intro x hx
    rw [hstill.live] at hx
    rw [hstill.part VmObject.refCount fun _ _ _ _ => rfl]
    exact hroom x hx
  rw [vmFaultPage, heq]
  cases r with
  | some p =>
    obtain ⟨hp, -, hpa, d, hpage, hd⟩ := hr
    obtain ⟨r, heq, hquiet, hready⟩ := hsrc1.faultFound_spec hunpaged1 env ho hroom1 hp hpa hpage hd protWrite
    exact ⟨r, heq, (hstill.quiet hsrc).trans hquiet, hready⟩
  | none =>
    split
    . have hstill1 := Still.setPage hsrc1.wellFormed hsrc1.mem hr
      obtain ⟨r, heq, hquiet, hready⟩ := (hstill1.source hsrc1).faultFound_spec (hstill1.unpaged hunpaged1)
        env ho (by
          intro x hx
          rw [setPage_part VmObject.refCount rfl]
          exact hroom1 x hx) (p := (a, o)) hsrc1.mem (fun _ => rfl) lookup_setPage_self
        (.here (ownContents_setPage_self pagers hsrc1.mem)) protWrite
      exact ⟨r, heq, ((hstill.trans hstill1).quiet hsrc).trans hquiet, hready⟩
    . exact ⟨_, rfl, hstill.quiet hsrc, nofun⟩

theorem reads_modify_iff (hpushed : ∀ c ∈ (h.object a).copy, (h.object c).memq.lookup o ≠ none) (d : β) {p : Nat × Nat}
    (hp : p.1 ∈ h.live) (hlt : p.2 < wordSize) (hne : p ≠ (a, o)) (e : β)
    : h.Reads pagers zero p e ↔ (h.setPage a o d).Reads pagers zero p e := by
  have hacyclic := acyclic_nextPlace (h := h.setPage a o d) (Repaged.setPage.wellFormed hsrc.wellFormed).acyclic
  apply Finds.standsFor_iff (S := { p | p.1 ∈ h.live ∧ p.2 < wordSize ∧ p ≠ (a, o) }) hacyclic _ ⟨hp, hlt, hne⟩
  rintro p ⟨hp, hlt, hne⟩
  refine .same (ownContents_setPage_of_ne pagers hne) (by rw [nextPlace_setPage]) ?_
  intro hown q hq
  have hlink := (mem_of_links (links_of_nextPlace hq)).2
  have hq2 : q.2 = (p.2 + (h.object p.1).shadowOffset) % wordSize := by
    rw [nextPlace_of_mem hp, hlink] at hq
    rw [← Option.some.inj hq]
  refine ⟨hsrc.wellFormed.linked p.1 hp q.1 hlink, ?_, ?_⟩
  . rw [hq2]
    exact Nat.mod_lt _ (by decide)
  . rintro rfl
    -- only the copy leads to the page, and it has its own
    have hcopy := hsrc.only p.1 hp hlink
    have hpo : p.2 = o := by
      rw [hsrc.aligned a hsrc.mem p.1 hcopy, Nat.add_zero, Nat.mod_eq_of_lt hlt] at hq2
      exact hq2.symm
    apply hpushed p.1 hcopy
    rw [← hpo]
    exact (hsrc.ownContents_of_mem hunpaged hp).1 hown

end

end

end Objects.Source

structure SourceState (β : Type) where
  objects : Objects β
  copies : List (Nat × Objects β)

inductive SourceOp (β : Type) where
  | copy
  | write (env : FaultEnv) (protWrite : Bool) (offset : Nat) (contents : β)
  | release (i : Nat)

def SourceOp.Inside (size : Nat) : SourceOp β → Prop
  | .write _ _ offset _ => offset < size
  | _ => True

namespace SourceState

def step (a : Nat) (zero : β) (st : SourceState β) : SourceOp β → Except Stop (SourceState β)
  | .copy => do
    let (c, objects) ← st.objects.copyDelayed a
    .ok { objects, copies := (c, st.objects) :: st.copies }
  | .write env protWrite offset contents => do
    let r ← st.objects.vmFaultPage env (fun _ _ => none) zero a offset true false protWrite
    match r.ret with
    | .retry | .memoryShortage => .ok { st with objects := r.objects }
    | .success => do
      let _ ← r.objects.pageAt r.page
      .ok { st with objects := r.objects.setPage r.page.1 r.page.2 contents }
  | .release i =>
    match st.copies[i]? with
    | none => .ok st
    | some s => do
      let objects ← st.objects.deallocate (some s.1)
      .ok { objects, copies := st.copies.eraseIdx i }

def run (a : Nat) (zero : β) : SourceState β → List (SourceOp β) → Except Stop (SourceState β)
  | st, [] => .ok st
  | st, op :: ops => do
    let st ← st.step a zero op
    run a zero st ops

def holders (base : Nat → Nat) (st : SourceState β) (x : Nat) : Nat := base x + (st.copies.map Prod.fst).count x

theorem holders_ne_zero {base : Nat → Nat} {st : SourceState β} {s : Nat × Objects β}
    (hmem : s ∈ st.copies) : st.holders base s.1 ≠ 0 := by
  have hcount : 0 < (st.copies.map Prod.fst).count s.1 := List.count_pos_iff.2 (List.mem_map_of_mem hmem)
  rw [holders]
  omega

def Fitting (a : Nat) (zero : β) : SourceState β → List (SourceOp β) → Prop
  | _, [] => True
  | st, op :: ops => st.objects.Fits ∧ ∀ st', st.step a zero op = .ok st' → Fitting a zero st' ops

structure Isolated (base : Nat → Nat) (a : Nat) (zero : β) (st : SourceState β) : Prop where
  reads : ∀ s ∈ st.copies, ∀ o < (s.2.object a).size, ∀ d,
    s.2.Reads (fun _ _ => none) zero (a, o) d ↔ st.objects.Reads (fun _ _ => none) zero (s.1, o) d
  copies : ∀ x ∈ st.objects.live, ∀ c ∈ (st.objects.object x).copy, c ∈ st.objects.live
    ∧ (st.objects.object c).shadow = some x ∧ (st.objects.object c).shadowOffset = 0
    ∧ ∀ b ∈ st.objects.live, (st.objects.object b).shadow = some x → b = c
  counted : ∀ x ∈ st.objects.live,
    (st.objects.object x).refCount.toInt = st.holders base x + st.objects.linkers VmObject.shadow x

structure Snapshots (base : Nat → Nat) (a size : Nat) (zero : β) (st : SourceState β) : Prop where
  held : base a ≠ 0
  source : Objects.Source (st.holders base) a st.objects
  unpaged : Objects.Unpaged st.objects
  size_eq : (st.objects.object a).size = size
  sizes : ∀ s ∈ st.copies, (s.2.object a).size = size
  ne : ∀ s ∈ st.copies, s.1 ≠ a
  below : ∀ s ∈ st.copies, ∀ o < size, st.objects.Below a size (s.1, o)
  reads : ∀ s ∈ st.copies, ∀ o < size, ∀ d,
    s.2.Reads (fun _ _ => none) zero (a, o) d ↔ st.objects.Reads (fun _ _ => none) zero (s.1, o) d

namespace Snapshots

variable {base : Nat → Nat} {size : Nat} {st : SourceState β}

section

variable (hs : Snapshots base a size zero st)
include hs

theorem isolated : Isolated base a zero st where
  reads := by
    intro s hmem
    rw [hs.sizes s hmem]
    exact hs.reads s hmem
  copies := by
    intro x hx c hc
    obtain ⟨hlive, hshadow, hunique⟩ := hs.source.wellFormed.copies x hx c hc
    exact ⟨hlive, hshadow, hs.source.aligned x hx c hc, hunique⟩
  counted := hs.source.wellFormed.counted

theorem size_le : size ≤ wordSize := by
  rw [← hs.size_eq]
  exact hs.source.size_le

theorem mem {s : Nat × Objects β} (hmem : s ∈ st.copies) : s.1 ∈ st.objects.live :=
  hs.source.referenced s.1 (holders_ne_zero hmem)

theorem copy (hfits : st.objects.Fits) : ∃ st', st.step a zero .copy = .ok st' ∧ Snapshots base a size zero st' := by
  obtain ⟨c, h', heq, hcopied⟩ := hs.source.copyDelayed_spec hfits
  rw [step, heq]
  refine ⟨_, rfl, ?_⟩
  have hholders : holders base ⟨h', (c, st.objects) :: st.copies⟩
      = addOutside (st.holders base) (some c) := by
    funext x
    simp only [holders, addOutside, List.map_cons, List.count_cons, beq_iff_eq, Option.some.injEq]
    omega
  have hsize := hs.size_eq
  refine ⟨hs.held, ?_, hcopied.unpaged hs.unpaged, hcopied.size.trans hsize, ?_, ?_, ?_, ?_⟩
  . rw [hholders]
    exact hcopied.source
  . exact List.forall_mem_cons.2 ⟨hsize, hs.sizes⟩
  . exact List.forall_mem_cons.2 ⟨hcopied.ne, hs.ne⟩
  . intro s hmem o ho
    rw [← hsize] at ho ⊢
    obtain rfl | hmem := List.mem_cons.1 hmem
    . exact hcopied.copied_below o ho
    . apply hcopied.below (s.1, o) (hs.mem hmem)
      rw [hsize] at ho ⊢
      exact hs.below s hmem o ho
  . intro s hmem o ho d
    obtain rfl | hmem := List.mem_cons.1 hmem
    . rw [← hsize] at ho
      exact hcopied.copied _ zero o d ho
    . exact (hs.reads s hmem o ho d).trans (hcopied.reads _ zero (s.1, o) d (hs.mem hmem))

theorem quiet (hq : Objects.Quiet (fun _ _ => none) zero (st.holders base) a st.objects h')
    : Snapshots base a size zero { st with objects := h' } := by
  have hlive : ∀ s ∈ st.copies, s.1 ∈ h'.live := fun s hmem => hq.mem (holders_ne_zero hmem)
  have hbelow : ∀ s ∈ st.copies, ∀ o < size,
      st.objects.Below a (st.objects.object a).size (s.1, o) := by
    rw [hs.size_eq]
    exact hs.below
  refine ⟨hs.held, hq.source, hq.unpaged hs.unpaged, hq.size.trans hs.size_eq, hs.sizes, hs.ne, ?_, ?_⟩
  . intro s hmem o ho
    have hbelow' := hq.below (s.1, o) (hlive s hmem) (hbelow s hmem o ho)
    rwa [hs.size_eq] at hbelow'
  . intro s hmem o ho d
    exact (hs.reads s hmem o ho d).trans (hq.reads (s.1, o) d (hlive s hmem) (hbelow s hmem o ho))

theorem modify (hpushed : ∀ c ∈ (st.objects.object a).copy, (st.objects.object c).memq.lookup o ≠ none) (d : β)
    : Snapshots base a size zero { st with objects := st.objects.setPage a o d } := by
  have hsize := hs.size_le
  refine ⟨hs.held, Objects.Repaged.setPage.source hs.source, Objects.Repaged.setPage.unpaged hs.unpaged, ?_,
    hs.sizes, hs.ne, ?_, ?_⟩
  . rw [setPage_part VmObject.size rfl]
    exact hs.size_eq
  . intro s hmem o ho
    exact Objects.Repaged.setPage.below (hs.below s hmem o ho)
  . intro s hmem o' ho' e
    rw [hs.reads s hmem o' ho' e]
    apply hs.source.reads_modify_iff hs.unpaged hpushed d (hs.mem hmem)
    . omega
    . intro heq
      exact hs.ne s hmem (congrArg Prod.fst heq)

theorem write (hfits : st.objects.Fits) (env : FaultEnv) (protWrite : Bool) (ho : o < size) (d : β)
    : ∃ st', st.step a zero (.write env protWrite o d) = .ok st' ∧ Snapshots base a size zero st' := by
  have hsize := hs.size_le
  obtain ⟨r, heq, hquiet, hready⟩ := hs.source.vmFaultPage_spec hs.unpaged env (fun _ _ => none) zero (o := o)
    (by omega) (fun x hx => (hfits x hx).1) protWrite
  rw [step, heq, Stop.ok_bind]
  have hs' := hs.quiet hquiet
  cases hret : r.ret with
  | retry => exact ⟨_, rfl, hs'⟩
  | memoryShortage => exact ⟨_, rfl, hs'⟩
  | success =>
    obtain ⟨hpage, ⟨e, hresident⟩, hpushed⟩ := hready hret
    have hpageAt : r.objects.pageAt (a, o) = .ok e := by
      rw [pageAt, get_bind hs'.source.mem, hresident]
    rw [hpage, hpageAt]
    exact ⟨_, rfl, hs'.modify hpushed d⟩

theorem release (i : Nat) : ∃ st', st.step a zero (.release i) = .ok st' ∧ Snapshots base a size zero st' := by
  rw [step]
  cases hi : st.copies[i]? with
  | none => exact ⟨st, rfl, hs⟩
  | some s =>
    have hmem : s ∈ st.copies := List.mem_of_getElem? hi
    have hholders : st.holders base
        = addOutside (holders base ⟨st.objects, st.copies.eraseIdx i⟩) (some s.1) := by
      funext x
      obtain ⟨hlt, hget⟩ := List.getElem?_eq_some_iff.1 hi
      have hperm := (List.getElem_cons_eraseIdx_perm hlt).map Prod.fst
      rw [holders, ← hperm.count_eq, hget]
      simp only [holders, addOutside, List.map_cons, List.count_cons, beq_iff_eq, Option.some.injEq]
      omega
    have hsrc := hs.source
    rw [hholders] at hsrc
    obtain ⟨h', heq, hreleased⟩ := deallocate_spec hsrc.wellFormed (by
      intro x hx
      obtain rfl := Option.some.inj hx
      exact hs.mem hmem)
    dsimp only
    rw [heq]
    refine ⟨_, rfl, ?_⟩
    have hsrc' := hsrc.released hreleased (by
      rw [holders]
      have := hs.held
      omega)
    have hsub : ∀ s ∈ st.copies.eraseIdx i, s ∈ st.copies := fun s hs => List.mem_of_mem_eraseIdx hs
    have hlive : ∀ s ∈ st.copies.eraseIdx i, s.1 ∈ h'.live := by
      intro s hmem
      apply hsrc'.referenced
      exact holders_ne_zero hmem
    refine ⟨hs.held, hsrc', ?_, ?_, fun s hmem => hs.sizes s (hsub s hmem), fun s hmem => hs.ne s (hsub s hmem), ?_, ?_⟩
    . intro x hx
      rw [hreleased.fewer.same x hx (Set.notMem_empty x)]
      exact hs.unpaged x (hreleased.fewer.live hx)
    . rw [← hs.size_eq, hreleased.fewer.same a hsrc'.mem (Set.notMem_empty a)]
    . intro s hmem o ho
      exact hreleased.fewer.below (Set.empty_subset _) hreleased.wellFormed.linked (hlive s hmem)
        (hs.below s (hsub s hmem) o ho)
    . intro s hmem o ho d
      rw [hs.reads s (hsub s hmem) o ho d]
      exact hreleased.fewer.reads_iff hreleased.wellFormed _ zero (hlive s hmem) d

end

end Snapshots

section

variable {base : Nat → Nat} {size : Nat} {st : SourceState β} (hs : Snapshots base a size zero st)
include hs

theorem Snapshots.step (hfits : st.objects.Fits) {op : SourceOp β} (hop : op.Inside size)
    : ∃ st', st.step a zero op = .ok st' ∧ Snapshots base a size zero st' := by
  cases op with
  | copy => exact hs.copy hfits
  | write env protWrite o d => exact hs.write hfits env protWrite hop d
  | release i => exact hs.release i

theorem Snapshots.run (hfits : Fitting a zero st ops)
    (hops : ∀ op ∈ ops, op.Inside size) : ∃ st', st.run a zero ops = .ok st' ∧ Snapshots base a size zero st' := by
  induction ops generalizing st with
  | nil => exact ⟨st, rfl, hs⟩
  | cons op ops ih =>
    obtain ⟨st1, heq, hs1⟩ := hs.step hfits.1 (hops op List.mem_cons_self)
    obtain ⟨st', heq', hs'⟩ := ih hs1 (hfits.2 st1 heq) fun op hop => hops op (List.mem_cons_of_mem _ hop)
    refine ⟨st', ?_, hs'⟩
    rw [SourceState.run, heq]
    exact heq'

end

theorem run_isolated {base : Nat → Nat} (hsrc : Objects.Source base a h) (hunpaged : h.Unpaged)
    {ops : List (SourceOp β)}
    (hfits : Fitting a zero ⟨h, []⟩ ops) (hops : ∀ op ∈ ops, op.Inside (h.object a).size)
    : ∃ st, run a zero ⟨h, []⟩ ops = .ok st ∧ Isolated base a zero st := by
  have hs : Snapshots base a (h.object a).size zero ⟨h, []⟩ :=
    ⟨hsrc.held, hsrc, hunpaged, rfl, nofun, nofun, nofun, nofun⟩
  obtain ⟨st, heq, hs'⟩ := hs.run hfits hops
  exact ⟨st, heq, hs'.isolated⟩

instance decidableFitting (a : Nat) (zero : β)
    : (st : SourceState β) → (ops : List (SourceOp β)) → Decidable (Fitting a zero st ops)
  | _, [] => isTrue trivial
  | st, op :: ops =>
    match hstep : st.step a zero op with
    | .ok st' =>
      have := decidableFitting a zero st' ops
      decidable_of_iff (st.objects.Fits ∧ Fitting a zero st' ops) (by simp [Fitting, hstep])
    | .error _ => decidable_of_iff st.objects.Fits (by simp [Fitting, hstep])

def twoObjects : List (VmObject Nat) := [
  Objects.anonymous 8192 1 none 0 [(0, 4), (4096, 6)],
  Objects.anonymous 8192 1 (some 0) 0 [(0, 5)]]

theorem twoObjects_source : Objects.Source (fun x => if x = 1 then 1 else 0) 1 (ofList twoObjects) := by
  refine ⟨?_, ⟨by decide, by decide⟩, ?_, by decide, by decide, ?_, by decide, by decide⟩
  . apply wellFormed_ofList
    . intro x hx
      simp only [twoObjects, List.mem_cons, List.not_mem_nil, or_false] at hx
      obtain rfl | rfl := hx <;> exact ⟨_, _, _, _, _, rfl⟩
    . decide
    . decide
  . unfold Objects.Aligned
    decide
  . intro x hx
    by_cases hx1 : x = 1
    . rw [hx1]
      decide
    . rw [if_neg hx1] at hx
      contradiction

def copyWriteCopy : List (SourceOp Nat) := [.copy, .write ⟨Objects.always, true, true⟩ true 4096 7, .copy, .release 1]

theorem run_isolated_twoObjects : ∃ st, run 1 0 ⟨ofList twoObjects, []⟩ copyWriteCopy = .ok st
        ∧ Isolated (fun x => if x = 1 then 1 else 0) 1 0 st :=
  run_isolated twoObjects_source (by unfold Objects.Unpaged; decide) (by decide +kernel)
    (by simp [copyWriteCopy, SourceOp.Inside]; decide)

def sharedCopy : List (VmObject Nat) := [
  { Objects.anonymous 4096 2 none 0 [] with copy := some 1 },
  Objects.anonymous 4096 32767 (some 0) 0 []]

theorem sharedCopy_source : Objects.Source (fun x => if x = 0 then 1 else if x = 1 then 32767 else 0) 0
        (ofList sharedCopy) := by
  refine ⟨⟨acyclic_ofList (by decide), by decide, by decide, by decide, ?_⟩,
    ⟨by decide, by decide⟩, ?_, by decide, by decide, ?_, by decide, by decide⟩
  . intro x hx _
    have hx : x < 2 := Finset.mem_range.1 hx
    have hx : x = 0 ∨ x = 1 := by omega
    obtain rfl | rfl := hx
    . exact ⟨rfl, rfl, fun _ => nofun⟩
    . exact ⟨rfl, rfl, fun _ => nofun⟩
  . unfold Objects.Aligned
    decide
  . intro x hx
    by_cases hx0 : x = 0
    . rw [hx0]
      decide
    by_cases hx1 : x = 1
    . rw [hx1]
      decide
    . rw [if_neg hx0, if_neg hx1] at hx
      contradiction

theorem run_sharedCopy : Objects.Source (fun x => if x = 0 then 1 else if x = 1 then 32767 else 0) 0 (ofList sharedCopy)
        ∧ ∃ st, run 0 0 ⟨ofList sharedCopy, []⟩ [.copy] = .ok st
          ∧ (st.objects.object 1).refCount = -32768
          ∧ ¬ Isolated (fun x => if x = 0 then 1 else if x = 1 then 32767 else 0) 0 0 st := by
  refine ⟨sharedCopy_source, ?_⟩
  obtain ⟨st, heq, href, hlive⟩ : ∃ st, run 0 0 ⟨ofList sharedCopy, []⟩ [.copy] = .ok st
      ∧ (st.objects.object 1).refCount = -32768 ∧ 1 ∈ st.objects.live := by
    decide +kernel
  refine ⟨st, heq, href, ?_⟩
  intro hisolated
  have hcounted := hisolated.counted 1 hlive
  rw [href] at hcounted
  have htoInt : (-32768 : Int16).toInt = -32768 := rfl
  omega

end SourceState

end Vm
