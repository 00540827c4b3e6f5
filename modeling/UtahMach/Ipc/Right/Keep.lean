import UtahMach.Ipc.Right.Copyout

/-!
This module contains the operations that a run is made of.
-/

namespace Ipc

open Function

open KProg

variable {α : Type} {active : Nat → Bool} {c : Cells} {space name : Nat} {r : Right} {h q : Bool}

namespace Ver

theorem withEntry_keeps {body : KProg (Except KernReturn α)} (ha : AllOk c)
    (hbody : ∀ r h q, (c (space, name)).right = some r → At c (space, name) r h q →
      Keeps active body (c.at (space, name) r h q)) : Keeps active (withEntry space name body) c := by
  refine bind (bind (isActive (fun hact => ?_) fun _ => ret (ret ha)))
  exact bind (entryLookup hact ha (ret (ret ha)) fun r h q hr hat => ret (hbody r h q hr hat))

theorem returnCode_keeps {prog : KProg KernReturn} (hp : Keeps active prog c)
    : Keeps active (returnCode prog) c := by
  refine bind (hp.mono fun kr c' hc' => ?_)
  split
  . exact ret hc'
  . exact ret hc'

theorem deallocIfNone_keeps (hcell : At c (space, name) r h q ∨ Empty c (space, name) r h q)
    : Keeps active (deallocIfNone space name) (c.at (space, name) r h q) := by
  refine getEntry (ite (fun ht => ?_) fun ht => ?_)
  . have he := hcell.resolve_left fun ha => ha.ok.type_ne ht
    exact freeNull he.others he.hashed he.object he.request he.marequest fun _ hc => hc
  . exact ret (hcell.resolve_right fun he => ht he.type).allOk

section

variable (ha : AllOk c)
include ha

theorem kmsgCopyinDest_keeps {msgtName : MsgTypeName} : Keeps active (kmsgCopyinDest space name msgtName) c := by
  refine withEntry_keeps ha fun r h q _ hat => bind ((ipcRightCopyin hat).mono fun res c' hpost => ?_)
  match res with
  | .error kr => exact ret hpost.1
  | .ok (object, soright) =>
    obtain ⟨r', h', q', rfl, hcell, -⟩ := hpost
    exact andInert (deallocIfNone_keeps hcell)

theorem objectCopyinTwo_keeps : Keeps active (objectCopyinTwo space name) c := by
  refine withEntry_keeps ha fun r h q _ hat => bind (ipcRightCopyinTwo hat ?_ ?_)
  . exact fun kr c' hc' => ret hc'
  . intro (object, soright) r' h' q' hcell
    exact andInert (deallocIfNone_keeps hcell)

theorem objectCopyinUndo_keeps {msgtName : MsgTypeName}
    : Keeps active (objectCopyinUndo space name msgtName deadok) c := by
  refine withEntry_keeps ha fun r h q _ hat => bind ((ipcRightCopyin hat).mono fun res c' hpost => ?_)
  match res with
  | .error kr => exact ret hpost.1
  | .ok (object, soright) =>
    obtain ⟨r', h', q', rfl, hcell, hu⟩ := hpost
    have hundo : Keeps active (objectCopyinUndo.undo space name msgtName object soright)
        (c.at (space, name) r' h' q') :=
      andInert (ipcRightCopyinUndo_keeps hcell hu)
    refine ite (fun _ => hundo) fun _ => inert fun _ => inert fun p => ?_
    refine ite (fun _ => ?_) fun _ => hundo
    exact andInert (deallocIfNone_keeps hcell)

theorem rightCheck_keeps : Keeps active (rightCheck space name) c := by
  refine withEntry_keeps ha fun r h q _ hat => getEntry (ite (fun hp => ?_) fun _ => ret hat.allOk)
  exact andInert (check_allOk hat hp)

theorem AllOk.enter (hr : (c (space, name)).right = none)
    : c.enter (space, name) = c.at (space, name) .null (c (space, name)).hashed (c (space, name)).request ∧
      Empty c (space, name) .null (c (space, name)).hashed (c (space, name)).request := by
  have hok := ha (space, name)
  unfold CellOk at hok
  rw [hr] at hok
  refine ⟨?_, ha.others _, rfl, rfl, rfl, hok.1, hok.2⟩
  unfold Cells.enter Cells.at
  simp only [hr, Option.getD_none]

end

theorem entryGet (hact : active space = true) (ha : AllOk c)
    (hnone : Q none c) (hsome : ∀ n h q, Empty c (space, n) .null h q →
      Q (some n) (c.at (space, n) .null h q)) : Ver active (entryGet space) Q c := by
  refine ⟨hact, hnone, fun n hr _ => ?_⟩
  obtain ⟨heq, he⟩ := AllOk.enter ha hr
  rw [heq]
  exact hsome n _ _ he

theorem AllOk.unhold (ha : AllOk c) (space : Nat) : AllOk (c.unhold space) := by
  intro k
  unfold Cells.unhold
  split
  . exact (ha k).unhold false
  . exact ha k

@[simp]
theorem Cells.unhold_right (c : Cells) (space : Nat) (k : Nat × Nat) : (c.unhold space k).right = (c k).right := by
  unfold Cells.unhold
  split
  . rfl
  . rfl

theorem entryAllocName (hname : IsName name) (ha : AllOk c) (herr : ∀ kr c', kr ≠ .success → AllOk c' → Q kr c')
    (hok : ∀ c' r h q, active space = true → (∀ k, (c' k).right = (c k).right) →
      (Empty c' (space, name) r h q ∧ r = .null ∨ At c' (space, name) r h q) →
      Q .success (c'.at (space, name) r h q)) : Ver active (entryAllocName space name) Q c := by
  have hu := AllOk.unhold ha space
  refine ⟨hname, ha, fun kr hkr => herr kr _ hkr hu, fun hact => ?_⟩
  cases hr : (c.unhold space (space, name)).right with
  | none =>
    obtain ⟨heq, he⟩ := AllOk.enter hu hr
    rw [heq]
    exact hok _ _ _ _ hact (Cells.unhold_right c space) (.inl ⟨he, rfl⟩)
  | some r =>
    have heq : (c.unhold space).enter (space, name) = (c.unhold space).at (space, name) r
        (c.unhold space (space, name)).hashed (c.unhold space (space, name)).request := by
      unfold Cells.enter Cells.at
      simp only [hr, Option.getD_some]
    rw [heq]
    exact hok _ _ _ _ hact (Cells.unhold_right c space) (.inr (hu.cell hr))

theorem copyoutNew_keeps {msgtName : PortName} (he : Empty c (space, name) .null h q)
    : Keeps active (copyoutNew space name object msgtName overflow) (c.at (space, name) .null h q) := by
  refine getEntry (require rfl (require rfl (inert fun _ => inert fun p => ite (fun _ => ?_) fun _ => ?_)))
  . refine setObject he.hashed (andInert (returnCode_keeps (ipcRightCopyout_new ?_)))
    exact ⟨he.others, rfl, he.hashed, he.marequest⟩
  . exact bind (freeNull he.others he.hashed rfl rfl he.marequest fun _ hc => ret hc)

theorem objectCopyout_keeps {msgtName : PortName} (ha : AllOk c)
    : Keeps active (objectCopyout space object msgtName overflow) c := by
  refine inert fun _ => bind (isActive (fun hact => ?_) fun _ => ret ha)
  refine bind (ite (fun hname => ipcRightReverse ha ?_ fun n r h q _ hat hobj ht => ?old) fun _ => ret ?_)
  case old => exact bind ((returnCode_keeps (ipcRightCopyout_keeps hat hname ht hobj)).mono fun _ _ hc => ret hc)
  -- without a right that can be added to, there is a new entry
  all_goals
    refine bind (entryGet hact ha ?_ fun n h q he => copyoutNew_keeps he)
    exact bind ⟨hact, ha, fun kr => ret (AllOk.unhold ha space)⟩

theorem objectRename_keeps (hname : IsName nname) (ha : AllOk c)
    (hleft : ∀ r, (c (space, oname)).right = some r → r.compat = true → r.request ≠ 0 →
      machPortIndex oname ≠ machPortIndex nname) : Keeps active (objectRename space oname nname) c := by
  refine bind (entryAllocName hname ha (fun kr c' hkr hc' => ?_) fun c' r h q hact hsame hcell => ?_)
  . split
    . contradiction
    . exact ret hc'
  refine bind (ipcRightInuse hcell (fun hat => ret hat.allOk) fun h' q' he => ?_)
  obtain ⟨ho, -, -, -, hh', rfl⟩ := he
  have hmissing : Keeps (α := Except KernReturn Unit) active (do
      KProg.entryDealloc space nname
      return .error .invalidName) (c'.at (space, nname) .null h' false) :=
    bind (freeNull ho hh' rfl rfl rfl fun _ hc => ret hc)
  rw [if_neg Bool.noConfusion]
  refine ite (fun hne => bind ?_) fun _ => bind (ret hmissing)
  have hkeys : (space, oname) ≠ (space, nname) := fun heq => hne (congrArg Prod.snd heq)
  have hold := Cells.at_of_ne c' .null h' false hkeys
  have hcell := ho _ hkeys
  unfold CellOk at hcell
  refine ⟨hact, fun r hr => ?_, fun _ => hmissing, fun hfound => ?_⟩
  . rw [hold] at hr
    rw [hr] at hcell
    exact hcell.1.type_ne
  . obtain ⟨r, hr⟩ := Option.ne_none_iff_exists'.mp hfound
    rw [Cells.hold_eq _ hr, hold]
    rw [hold] at hr
    rw [hr] at hcell
    refine returnCode_keeps (ipcRightRename_keeps hname.1.ne' ?_ hcell.1 hh' hcell.2.1 hcell.2.2 ?_)
    . exact fun k _ hkn => ho k hkn
    . exact hleft r (hsame (space, oname) ▸ hr)

theorem ipcPortLookupNotify (ha : AllOk c)
    (hq : ∀ n c', AllOk c' → (∀ k, (c k).held = true → c' k = c k) → Q n c')
    : Ver active (ipcPortLookupNotify space name) Q c := by
  have hself := hq ipNull c ha fun _ _ => rfl
  refine bind (kassertActive fun hact => bind ⟨hact, ?_, fun _ => ret hself, fun hne => ?_⟩)
  . exact fun r hr => (ha.cell hr).ok.type_ne
  obtain ⟨r, hr⟩ := Option.ne_none_iff_exists'.mp hne
  have hat := ha.cell hr
  have hsame : ∀ k, (c k).held = true → c.hold (space, name) k = c k := by
    intro k hheld
    unfold Cells.hold
    by_cases hk : k = (space, name)
    . subst hk
      rw [update_self, ← hheld]
    . rw [update_of_ne hk]
  rw [c.hold_eq hr] at hsame ⊢
  refine getEntry (ite (fun _ => ret (hq _ _ hat.allOk hsame)) fun ht => ?_)
  have hp := PortType.hasPortRights_of_hasReceive (Bool.not_eq_false _ ▸ ht)
  refine require (hat.ok.object_ne hp) (inert fun _ => inert fun _ => ?_)
  exact inert fun _ => ret (hq _ _ hat.allOk hsame)

variable {k : Nat × Nat}

theorem AllOk.requested (ha : AllOk c) (hreq : (c k).request = true)
    : ∃ r, (c k).right = some r ∧ At c k r (c k).hashed true ∧ r.marequest = true := by
  cases hr : (c k).right with
  | none =>
    have hok := ha k
    unfold CellOk at hok
    rw [hr] at hok
    rw [hok.2] at hreq
    contradiction
  | some r =>
    have hat := ha.cell hr
    rw [hreq] at hat
    exact ⟨r, rfl, hat, hat.request.symm⟩

theorem RightOk.marked (hr : RightOk r) (hmar : r.marequest = true)
    : r.type.hasSend = true ∨ r.type.hasReceive = true := by
  unfold RightOk at hr
  cases ht : r.type <;> simp_all [PortType.hasSend, PortType.hasReceive]

theorem RightOk.mark (hr : RightOk r) (ht : r.type.hasSend = true ∨ r.type.hasReceive = true)
    (marequest : Bool) : RightOk { r with marequest := marequest } := by
  unfold RightOk at hr ⊢
  cases htype : r.type <;> simp_all [PortType.hasSend, PortType.hasReceive]

theorem entryLookup_requested (hact : active space = true)
    (hr : (c (space, name)).right = some r) (ht : r.type ≠ .none)
    (hq : Q true (c.at (space, name) r (c (space, name)).hashed false))
    : Ver active (KProg.entryLookup space name) Q
        (update c (space, name) { c (space, name) with request := false }) := by
  have hself : (update c (space, name) { c (space, name) with request := false })
      (space, name) = { c (space, name) with request := false } := update_self ..
  refine ⟨hact, fun r' hr' => ?_, fun hnone => ?_, fun _ => ?_⟩
  . rw [hself, hr] at hr'
    injection hr' with hr'
    rw [← hr']
    exact ht
  . rw [hself, hr] at hnone
    contradiction
  . rw [Cells.hold_eq _ (by rw [hself]; exact hr), hself]
    unfold Cells.at at hq ⊢
    rw [update_idem]
    exact hq

theorem ipcMarequestDestroy_keeps (ha : AllOk c) : Keeps active (ipcMarequestDestroy marequest) c := by
  refine bind fun i => ⟨fun hi => ?_, fun hname hact hreq => ?_⟩
  . refine ite (fun hne => bind (isActive (fun hact => ?_) fun _ => ?_)) fun _ => rest fun _ => ha
    . rw [hact] at hi
      exact absurd (hi.resolve_right Bool.noConfusion) hne
    . rw [if_neg Bool.noConfusion]
      exact rest fun _ => ha
  . obtain ⟨r, hr, hat, hmar⟩ := AllOk.requested ha hreq
    have hmarked := RightOk.marked hat.ok hmar
    refine ite (fun _ => ?_) fun hno => absurd hname hno
    refine bind (isActive (fun _ => ?_) fun hno => by rw [hact] at hno; contradiction)
    refine bind (entryLookup_requested hact hr hat.ok.type_ne ?_)
    refine require rfl (getEntry (require hmar (require hmarked ?_)))
    refine setBits (rest fun _ => ?_)
    exact At.allOk ⟨hat.others, RightOk.mark hat.ok hmarked false, hat.hashed, rfl⟩

theorem ipcMarequestCreate_notifyRight {notify : Nat} (ha : AllOk c)
    (hq : ∀ n c', AllOk c' → (∀ k, (c k).held = true → c' k = c k) → Q n c')
    : Ver active (ipcMarequestCreate.notifyRight space notify) Q c := by
  refine ite (fun _ => ret (hq _ c ha fun _ _ => rfl)) fun _ => ?_
  exact bind (ipcPortLookupNotify ha fun _ c' hc' hsame => ret (hq _ c' hc' hsame))

theorem ipcMarequestCreate_keeps {marequest port notify : Nat} (ha : AllOk c)
    : Keeps active (ipcMarequestCreate marequest space port notify) c := by
  refine bind (isActive (fun hact => ?_) fun _ => ret ha)
  refine bind (ipcRightReverse ha ?_ fun n r h q hn hat hobj ht => ?_)
  . refine bind (ipcMarequestCreate_notifyRight ha fun soright c' hc' _ => ?_)
    cases soright with
    | none => exact ret hc'
    | some soright => exact bind ⟨fun _ => ret hc', fun hne => absurd rfl hne⟩
  . refine getEntry (require hobj (require ht (ite (fun _ => ret hat.allOk) fun hmar => ?_)))
    refine bind (ipcMarequestCreate_notifyRight hat.allOk fun soright c' hc' hsame => ?_)
    have hcell : c' (space, n) = ⟨some r, true, h, q⟩ := by
      rw [hsame _ (by rw [Cells.at_self]), Cells.at_self]
    have hc'at : c' = c'.at (space, n) r h q := by
      unfold Cells.at
      rw [← hcell, update_eq_self]
    have hq : q = false := hat.request.trans (Bool.eq_false_iff.mpr hmar)
    cases soright with
    | none => exact ret hc'
    | some soright =>
      show Keeps active _ c'
      rw [hc'at]
      refine setBits (bind ⟨fun hnull => absurd hnull hn, fun _ => ⟨hact, ?_, ?_⟩⟩)
      . rw [Cells.at_self, hq]
      . rw [Cells.at_self, Cells.update_at]
        refine ret (At.allOk ⟨hc'.others _, RightOk.mark hat.ok ht true, hat.hashed, rfl⟩)

end Ver

end Ipc
