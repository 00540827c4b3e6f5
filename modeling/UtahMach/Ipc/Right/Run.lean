import UtahMach.Ipc.Right.Refine

/-!
This module contains runs of operations on rights, and what holds in every state they reach.
-/

namespace Ipc

open KProg Prog

inductive RightOp where
  | copyin (space name : Nat) (msgtName : MsgTypeName)
  | copyinDest (space name : Nat) (msgtName : MsgTypeName)
  | copyinTwo (space name : Nat)
  | copyinUndo (space name : Nat) (msgtName : MsgTypeName) (deadok : Bool)
  | copyinCompat (space name : Nat) (msgtName : CompatName) (free : Bool)
  | copyinHeader (space name : Nat)
  | copyout (space object : Nat) (msgtName : PortName) (overflow : Bool)
  | dealloc (space name : Nat)
  | delta (space name : Nat) (right : PortRight) (d : Int32)
  | destroy (space name : Nat)
  | check (space name : Nat)
  | dnrequest (space name : Nat) (immediate : Bool) (notify : Nat)
  | dngrow (port : Nat) (g : DnGrow) (ntable : Option Nat)
  | rename (space oname : Nat) (nname : BitVec 32)
  | marequestCreate (marequest space port notify : Nat)
  | marequestDestroy (marequest : Nat)
  | growTable (space : Nat)

namespace RightOp

def growTableProg (space : Nat) : KProg Unit := do
  if ← isActive space then
    let _ ← entryGrowTable space
  else
    return ()

def prog : RightOp → KProg Unit
  | .copyin space name msgtName => discard (objectCopyin space name msgtName)
  | .copyinDest space name msgtName => discard (kmsgCopyinDest space name msgtName)
  | .copyinTwo space name => discard (objectCopyinTwo space name)
  | .copyinUndo space name msgtName deadok => discard (objectCopyinUndo space name msgtName deadok)
  | .copyinCompat space name msgtName free => discard (objectCopyinCompat space name msgtName free)
  | .copyinHeader space name => discard (objectCopyinHeader space name)
  | .copyout space object msgtName overflow =>
    discard (objectCopyout space object msgtName overflow)
  | .dealloc space name => discard (rightDealloc space name)
  | .delta space name right d => discard (rightDelta space name right d.toInt)
  | .destroy space name => discard (rightDestroy space name)
  | .check space name => discard (rightCheck space name)
  | .dnrequest space name immediate notify => discard (rightDnrequest space name immediate notify)
  | .dngrow port g ntable => discard (ipcPortDngrowEnd port g ntable)
  | .rename space oname nname => discard (machPortRename space oname nname)
  | .marequestCreate marequest space port notify =>
    discard (ipcMarequestCreate marequest space port notify)
  | .marequestDestroy marequest => ipcMarequestDestroy marequest
  | .growTable space => growTableProg space

end RightOp

def Space.rightOf (s : Space) (name : Nat) : Option Right := do
  let (found, s) ← ipcEntryLookup s name
  let e ← s.entry (← found)
  return e.right

def MsgTypeName.ofSend : MsgTypeName → Bool
  | .copySend | .moveSend | .moveSendOnce => true
  | _ => false

namespace Kernel

def run (k : Kernel) : List (KProg Unit) → Except Stop Kernel
  | [] => .ok k
  | prog :: progs =>
    match exec machine prog k with
    | .ok (_, k) => k.run progs
    | .error e => .error e

theorem run_induction {P : Kernel → Prop} {k k' : Kernel} (h : P k)
    (hstep : ∀ prog ∈ progs, ∀ k k' u, P k → exec machine prog k = .ok (u, k') → P k')
    (hrun : k.run progs = .ok k') : P k' := by
  induction progs generalizing k with
  | nil =>
    cases hrun
    exact h
  | cons prog progs ih =>
    unfold run at hrun
    cases hexec : exec machine prog k with
    | error e =>
      rw [hexec] at hrun
      contradiction
    | ok r =>
      rw [hexec] at hrun
      apply ih (hstep prog List.mem_cons_self k r.2 r.1 h hexec) _ hrun
      intro prog' hmem
      exact hstep prog' (List.mem_cons_of_mem _ hmem)

structure SpaceWF (s : Space) (requested : Nat → Prop) (m : Nat → Option Right) (hashed : Nat → Bool) : Prop where
  rep : ∃ free, Rep s m hashed free
  head : m headName = none
  right : ∀ n r, m n = some r → RightOk r ∧ (r.marequest = true ↔ requested n)
  requested : ∀ n, requested n → m n ≠ none
  agree : Agree m hashed

structure WF (k : Kernel) : Prop where
  marequests : k.world.marequests.WF
  space : ∀ space, (k.spaces space).isActive = true →
    ∃ m hashed, SpaceWF (k.spaces space) (k.world.marequests.Has space) m hashed

abbrev active (k : Kernel) (space : Nat) : Bool := (k.spaces space).isActive

variable {k k' : Kernel} {t : Cells} {space name : Nat}

open Classical in
theorem WF.exists_rel (h : WF k) : ∃ t, Rel k.active k t ∧ AllOk t := by
  choose m hashed hwf using h.space
  refine ⟨fun key => if hact : k.active key.1 = true then
    ⟨m key.1 hact key.2, false, hashed key.1 hact key.2, decide (k.world.marequests.Has key.1 key.2)⟩ else gone,
    ⟨fun _ => rfl, fun space hact => ?_, h.marequests, fun key hact => ?_, fun key hact => ?_⟩, fun key => ?_⟩
  . have hs := hwf space hact
    refine ⟨?_, ?_, fun n hn => ?_⟩
    . obtain ⟨free, hrep⟩ := hs.rep
      refine ⟨free, ?_⟩
      convert hrep using 1 <;> funext n <;> simp [Cells.row, hact]
    . simp [Cells.row, hact, hs.head]
    . simp [Cells.row, hact] at hn
  . simp [hact]
  . simp [hact]
  . unfold CellOk
    by_cases hact : k.active key.1 = true
    . have hs := hwf key.1 hact
      simp only [hact, dite_true]
      cases hr : m key.1 hact key.2 with
      | none =>
        obtain ⟨free, hrep⟩ := hs.rep
        refine ⟨?_, decide_eq_false fun hhas => hs.requested _ hhas hr⟩
        rw [Bool.eq_false_iff]
        intro hin
        obtain ⟨r, hsome, -⟩ := hrep.hashed_object _ hin
        rw [hr] at hsome
        contradiction
      | some r =>
        obtain ⟨hok, hmar⟩ := hs.right _ r hr
        refine ⟨hok, hs.agree _ r hr, ?_⟩
        rw [Bool.eq_iff_iff, decide_eq_true_iff]
        exact hmar.symm
    . simp [hact, gone]

theorem WF.of_rel {active : Nat → Bool} (h : Rel active k t) (ha : AllOk t) : WF k := by
  refine ⟨h.wf, fun space hact => ⟨Cell.right ∘ t.row space, Cell.hashed ∘ t.row space, ?_⟩⟩
  rw [h.isActive] at hact
  have hs := h.space space hact
  have hreq : ∀ n, (t (space, n)).request = true ↔ k.world.marequests.Has space n := fun n => h.request (space, n) hact
  refine ⟨hs.rep, hs.head, fun n r hr => ?_, fun n hn => ?_, AllOk.agree ha space⟩
  . have hat := ha.cell (k := (space, n)) hr
    refine ⟨hat.ok, ?_⟩
    rw [← hreq, hat.request]
  . obtain ⟨r, hr, -⟩ := Ver.AllOk.requested ha ((hreq n).mpr hn)
    exact fun hnone => Option.some_ne_none r (hr.symm.trans hnone)

theorem rightOf_eq {s : Space} {m : Nat → Option Right} {hashed : Nat → Bool} {free : List Nat}
    (h : Rep s m hashed free) (hhead : m headName = none) (hsettled : Settled m) (n : Nat) : s.rightOf n = m n := by
  unfold Space.rightOf
  by_cases hname : n = headName
  . subst hname
    rw [ipcEntryLookup_head h, hhead]
    rfl
  . obtain ⟨tree, hlook, hwf, hlist⟩ := ipcEntryLookup_spec h (hsettled n) hname
    rw [hlook]
    cases hr : m n with
    | none => rfl
    | some r =>
      obtain ⟨e, he, rfl⟩ := (h.congr_tree hwf hlist).entry_loc hr
      rw [loc_of_toList hlist] at he
      simp [he]

theorem Rel.rightOf_of_some {active : Nat → Bool} (h : Rel active k t) (ha : AllOk t)
    (hr : (t (space, name)).right = some r) : (k.spaces space).rightOf name = some r := by
  cases hact : active space with
  | true =>
    obtain ⟨⟨free, hrep⟩, hhead, -⟩ := h.space space hact
    rw [rightOf_eq hrep hhead (AllOk.settled ha space)]
    exact hr
  | false =>
    rw [h.dead (space, name) hact] at hr
    contradiction

end Kernel

def RightOp.Allowed (k : Kernel) : RightOp → Prop
  | .copyin space name msgtName => msgtName.ofSend = true → ∀ r, (k.spaces space).rightOf name = some r →
      r.compat = true → r.type.hasSendRights = true → (k.world.yield.ports r.object).ipActive = true
  | .copyinCompat space name msgtName free => msgtName = .port → free = true →
      ∀ r, (k.spaces space).rightOf name = some r → r.type ≠ .send
  | .rename space oname nname => nname.toNat ≠ headName ∧ ∀ r, (k.spaces space).rightOf oname = some r →
      r.compat = true → r.request ≠ 0 → machPortIndex oname ≠ machPortIndex nname.toNat
  | _ => True

def AllowedRun (k : Kernel) : List RightOp → Prop
  | [] => True
  | op :: ops => op.Allowed k ∧ ∀ u k', exec Kernel.machine op.prog k = .ok (u, k') → AllowedRun k' ops

namespace Kernel

section Exec

variable {k k' : Kernel} {space name : Nat} {α : Type}

theorem exec_isActive (h : exec machine (isActive space) k = .ok (b, k')) : k' = k := by
  cases h
  rfl

theorem exec_kassert {p : Prop} [Decidable p] (h : exec machine (kassert p) k = .ok (u, k')) : k' = k := by
  by_cases hp : p
  . unfold kassert at h
    rw [decide_eq_true hp] at h
    cases h
    rfl
  . unfold kassert at h
    rw [decide_eq_false hp] at h
    contradiction

theorem exec_require {p : Prop} [Decidable p] (h : exec machine (require p) k = .ok (u, k')) : k' = k := by
  by_cases hp : p
  . unfold require at h
    rw [decide_eq_true hp] at h
    cases h
    rfl
  . unfold require at h
    rw [decide_eq_false hp] at h
    contradiction

theorem exec_kassertActive (h : exec machine (kassertActive space) k = .ok (u, k')) : k' = k := by
  obtain ⟨b, k1, h1, h2⟩ := exec_bind_ok.mp h
  rw [exec_kassert h2, exec_isActive h1]

theorem exec_getEntry (hentry : (k.spaces space).entry (k.held space name) = some e)
    (h : exec machine (getEntry space name) k = .ok (r, k')) : r = e.right ∧ k' = k := by
  replace h : (orUndefined ((k.spaces space).entry (k.held space name))).map _ = _ := exec_call.mp h
  rw [hentry] at h
  cases h
  exact ⟨rfl, rfl⟩

theorem exec_ipcRightLookupWrite (h : exec machine (ipcRightLookupWrite space name) k = .ok (kr, k'))
    : k'.world = k.world := by
  obtain ⟨b, k1, h1, h2⟩ := exec_bind_ok.mp h
  rw [exec_isActive h1] at h2
  cases b with
  | false =>
    cases h2
    rfl
  | true =>
    obtain ⟨found, k2, h3, h4⟩ := exec_bind_ok.mp h2
    have hworld : k2.world = k.world := by
      replace h3 : (orUndefined (ipcEntryLookup (k.spaces space) name)).map _ = _ := exec_call.mp h3
      cases hlook : ipcEntryLookup (k.spaces space) name with
      | none =>
        rw [hlook] at h3
        contradiction
      | some x =>
        rw [hlook] at h3
        obtain ⟨_ | loc, s⟩ := x
        . cases h3
          rfl
        . cases h3
          rfl
    cases found with
    | false =>
      cases h4
      exact hworld
    | true =>
      cases h4
      exact hworld

theorem exec_ipcRightCheck (hentry : (k.spaces space).entry (k.held space name) = some e)
    (halive : (k.world.yield.ports port).ipActive = true)
    (h : exec machine (ipcRightCheck space port name) k = .ok (b, k')) : b = false := by
  obtain ⟨_, k1, hactive, h1⟩ := exec_bind_ok.mp h
  cases exec_kassertActive hactive
  obtain ⟨bits, k2, hget, h2⟩ := exec_bind_ok.mp h1
  obtain ⟨rfl, rfl⟩ := exec_getEntry hentry hget
  obtain ⟨_, k3, hobject, h3⟩ := exec_bind_ok.mp h2
  cases exec_require hobject
  obtain ⟨_, k4, hlock, h4⟩ := exec_bind_ok.mp h3
  cases hlock
  obtain ⟨p, k5, hp, h5⟩ := exec_bind_ok.mp h4
  cases hp
  rw [if_pos halive] at h5
  cases h5
  rfl

def NotGone (res : Copied) : Prop := res ≠ .error .invalidName

theorem leaves_ok (a : Nat × Nat) : Leaves (I := kernelIface) NotGone (return .ok a) := nofun

theorem leaves_invalidRight : Leaves (I := kernelIface) NotGone (return .error .invalidRight) := nofun

theorem leaves_copyDead : Leaves NotGone (copyDead space name deadok) := by
  refine .bind _ fun bits => .bind _ fun _ => ?_
  cases deadok with
  | false => exact leaves_invalidRight
  | true => exact leaves_ok _

theorem leaves_moveDead : Leaves NotGone (moveDead space name deadok) := by
  refine .bind _ fun bits => .bind _ fun _ => .ite (.ite ?_ ?_) leaves_invalidRight
  . exact .bind _ fun _ => leaves_ok _
  . exact .bind _ fun _ => leaves_ok _

theorem leaves_moveSend (bits : Right) : Leaves NotGone (ipcRightCopyin.moveSend space name bits) := by
  refine .ite (.ite ?_ ?_) ?_
  . exact .bind _ fun _ => .bind _ fun _ => .bind _ fun _ => leaves_ok _
  . exact .bind _ fun _ => .bind _ fun _ => leaves_ok _
  . exact .bind _ fun _ => .bind _ fun _ => leaves_ok _

section Live

variable {dead alive : KProg Copied} {res : Copied} (hdead : Leaves NotGone dead) (halive : Leaves NotGone alive)
  (hentry : (k.spaces space).entry (k.held space name) = some e)
  (hport : e.right.compat = true → e.right.type.hasSendRights = true →
    (k.world.yield.ports e.right.object).ipActive = true)
include hdead halive hentry hport

theorem exec_live (h : exec machine (ipcRightCopyin.live space name e.right dead alive) k = .ok (res, k'))
    : NotGone res := by
  unfold ipcRightCopyin.live at h
  split at h
  . exact hdead.exec h
  . split at h
    . cases h
      exact leaves_invalidRight
    . next hrights =>
      obtain ⟨_, k1, hurefs, h1⟩ := exec_bind_ok.mp h
      cases exec_require hurefs
      obtain ⟨_, k2, hobject, h2⟩ := exec_bind_ok.mp h1
      cases exec_require hobject
      obtain ⟨b, k3, hcheck, h3⟩ := exec_bind_ok.mp h2
      by_cases hcompat : e.right.compat = true
      . rw [exec_ipcRightCheck hentry (hport hcompat (Bool.not_eq_false _ ▸ hrights)) hcheck] at h3
        exact halive.exec h3
      . cases b with
        | false => exact halive.exec h3
        | true =>
          simp only [if_true, if_neg hcompat] at h3
          exact hdead.exec h3

end Live

theorem exec_ipcRightCopyin {res : Copied} {msgtName : MsgTypeName}
    (hentry : (k.spaces space).entry (k.held space name) = some e)
    (hport : msgtName.ofSend = true → e.right.compat = true → e.right.type.hasSendRights = true →
      (k.world.yield.ports e.right.object).ipActive = true)
    (h : exec machine (ipcRightCopyin space name msgtName deadok) k = .ok (res, k')) : NotGone res := by
  obtain ⟨bits, k1, hget, h1⟩ := exec_bind_ok.mp h
  obtain ⟨rfl, rfl⟩ := exec_getEntry hentry hget
  obtain ⟨_, k2, hactive, h2⟩ := exec_bind_ok.mp h1
  cases exec_kassertActive hactive
  cases msgtName with
  | makeSend | makeSendOnce =>
    refine Leaves.exec (P := NotGone) (.ite leaves_invalidRight ?_) h2
    exact .bind _ fun _ => .bind _ fun _ => .bind _ fun _ => .bind _ fun _ => leaves_ok _
  | moveReceive =>
    refine Leaves.exec (P := NotGone) (.ite leaves_invalidRight ?_) h2
    refine .bind _ fun _ => .bind _ fun _ => .bind _ fun _ => .ite ?_ ?_
    . refine .bind _ fun _ => .bind _ fun _ => .bind _ fun _ => .bind _ fun _ => .bind _ fun _ => ?_
      exact .bind _ fun _ => leaves_ok _
    . refine .bind _ fun _ => .bind _ fun _ => .bind _ fun _ => .bind _ fun _ => .bind _ fun _ => ?_
      exact .bind _ fun _ => leaves_ok _
  | copySend =>
    refine exec_live leaves_copyDead (.ite ?_ ?_) hentry (hport rfl) h2
    . exact .bind _ fun _ => leaves_invalidRight
    . exact .bind _ fun _ => .bind _ fun _ => leaves_ok _
  | moveSend =>
    refine exec_live leaves_moveDead (.ite ?_ ?_) hentry (hport rfl) h2
    . exact .bind _ fun _ => leaves_invalidRight
    . exact .bind _ fun _ => leaves_moveSend _
  | moveSendOnce =>
    refine exec_live leaves_moveDead (.ite ?_ ?_) hentry (hport rfl) h2
    . exact .bind _ fun _ => leaves_invalidRight
    . refine .bind _ fun _ => .bind _ fun _ => .bind _ fun _ => .bind _ fun _ => .bind _ fun _ => ?_
      exact .bind _ fun _ => leaves_ok _

end Exec

end Kernel

namespace Ver

def Found (c : Cells) (space name : Nat) : KernReturn → Cells → Prop
  | .success, c' => ∃ r h q, (c (space, name)).right = some r ∧ At c (space, name) r h q ∧ c' = c.at (space, name) r h q
  | _, c' => AllOk c'

theorem ipcRightLookupWrite (ha : AllOk c) : Ver active (ipcRightLookupWrite space name) (Found c space name) c := by
  refine bind (isActive (fun hact => ?_) fun _ => ret ha)
  exact bind (entryLookup hact ha (ret ha) fun r h q hr hat => ret ⟨r, h, q, hr, hat, rfl⟩)

theorem objectCopyin_rest {msgtName : MsgTypeName} {res : Copied} (hpost : CopyinPost c (space, name) msgtName res c')
    (hres : Kernel.NotGone res) : Keeps active (do
      deallocIfNone space name
      match res with
      | .error kr => return .error kr
      | .ok (object, soright) =>
        ipcNotifyPortDeleted object soright name
        return Except.ok (ε := KernReturn) (object, ipNull)) c' := by
  match res with
  | .error kr =>
    obtain ⟨r', h', q', rfl, hat⟩ := hpost.2 fun heq => hres (congrArg Except.error heq)
    exact andInert (deallocIfNone_keeps (.inl hat))
  | .ok (object, soright) =>
    obtain ⟨r', h', q', rfl, hcell, -⟩ := hpost
    exact andInert (deallocIfNone_keeps hcell)

end Ver

namespace Kernel

variable {active : Nat → Bool} {k k' : Kernel} {t : Cells} {space name : Nat}

theorem objectCopyin_safe {msgtName : MsgTypeName} (h : Rel active k t) (ha : AllOk t)
    (hop : (RightOp.copyin space name msgtName).Allowed k)
    : Safe (exec machine (objectCopyin space name msgtName) k) (After active fun _ => AllOk) := by
  refine ((machine_sound active).safe h (Ver.ipcRightLookupWrite ha)).bind fun kr k1 hlook ⟨t1, h1, hfound⟩ => ?_
  have hworld := exec_ipcRightLookupWrite hlook
  cases kr with
  | success =>
    obtain ⟨r, hh, q, hr, hat, rfl⟩ := hfound
    obtain ⟨e, he, rfl⟩ := entry_eq h1 space name (by rw [Cells.at_self]) (by rw [Cells.at_self])
    refine ((machine_sound active).safe h1 (Ver.ipcRightCopyin hat)).bind fun res k2 hcopy ⟨t2, h2, hpost⟩ => ?_
    refine (machine_sound active).safe h2 (Ver.objectCopyin_rest hpost (exec_ipcRightCopyin he ?_ hcopy))
    intro hname hcompat hrights
    rw [hworld]
    exact hop hname e.right (h.rightOf_of_some ha hr) hcompat hrights
  | _ => exact ⟨t1, h1, hfound⟩

end Kernel

namespace RightOp

open Ver

variable {active : Nat → Bool} {c : Cells} {k : Kernel}

theorem discard_keeps {p : KProg α} (hp : Keeps active p c) : Keeps active (discard p) c :=
  bind (hp.mono fun _ _ hc => ret hc)

theorem isDelta (delta : Int32) : IsDelta delta.toInt := ⟨delta.le_toInt, delta.toInt_lt⟩

theorem growTableProg_keeps {space : Nat} (ha : AllOk c) : Keeps active (growTableProg space) c := by
  refine bind (Ver.isActive (fun hact => ?_) fun _ => ret ha)
  exact bind ⟨hact, ha, fun kr => ret (AllOk.unhold ha space)⟩

theorem isName {nname : BitVec 32} (hvalid : machPortValid nname.toNat = true) (hne : nname.toNat ≠ headName)
    : IsName nname.toNat := by
  have hlt := nname.isLt
  simp only [machPortValid, machPortNull, machPortDead, Bool.and_eq_true, bne_iff_ne, ne_eq] at hvalid
  refine ⟨by omega, ?_, hne⟩
  unfold machPortDead
  omega

theorem prog_safe (h : Kernel.Rel active k c) (ha : AllOk c) (op : RightOp) (hop : op.Allowed k)
    : Safe (exec Kernel.machine op.prog k) (Kernel.After active fun _ => AllOk) := by
  have hkeeps : ∀ {p : KProg Unit}, Keeps active p c →
      Safe (exec Kernel.machine p k) (Kernel.After active fun _ => AllOk) :=
    (Kernel.machine_sound active).safe h
  cases op with
  | copyin =>
    refine (Kernel.objectCopyin_safe h ha hop).bind fun _ k' _ hafter => ?_
    exact hafter
  | copyinDest => exact hkeeps (discard_keeps (kmsgCopyinDest_keeps ha))
  | copyinTwo => exact hkeeps (discard_keeps (objectCopyinTwo_keeps ha))
  | copyinUndo => exact hkeeps (discard_keeps (objectCopyinUndo_keeps ha))
  | copyinCompat space name msgtName free =>
    refine hkeeps (discard_keeps (withEntry_keeps ha fun r _ _ hr hat => ipcRightCopyinCompat_keeps hat ?_))
    exact fun hleft => hop hleft.1 hleft.2.1 r (h.rightOf_of_some ha hr) hleft.2.2
  | copyinHeader =>
    exact hkeeps (discard_keeps (withEntry_keeps ha fun _ _ _ _ hat => ipcRightCopyinHeader_keeps hat))
  | copyout => exact hkeeps (discard_keeps (objectCopyout_keeps ha))
  | dealloc =>
    exact hkeeps (discard_keeps (withEntry_keeps ha fun _ _ _ _ hat => returnCode_keeps (ipcRightDealloc_keeps hat)))
  | delta _ _ _ d =>
    exact hkeeps (discard_keeps (withEntry_keeps ha fun _ _ _ _ hat =>
      returnCode_keeps (ipcRightDelta_keeps hat (isDelta d))))
  | destroy =>
    exact hkeeps (discard_keeps (withEntry_keeps ha fun _ _ _ _ hat => returnCode_keeps (ipcRightDestroy_keeps hat)))
  | check => exact hkeeps (discard_keeps (rightCheck_keeps ha))
  | dnrequest =>
    refine hkeeps (discard_keeps (withEntry_keeps ha fun _ _ _ _ hat => ?_))
    exact bind ((ipcRightDnrequest_keeps hat).mono fun _ _ hc => ret hc)
  | dngrow => exact hkeeps (discard_keeps (rest fun _ => ha))
  | rename space oname nname =>
    obtain ⟨hhead, hrename⟩ := hop
    refine hkeeps (discard_keeps (ite (fun _ => ret ha) fun hvalid => ?_))
    refine objectRename_keeps (isName (Bool.not_eq_false _ ▸ hvalid) hhead) ha fun r hr => ?_
    exact hrename r (h.rightOf_of_some ha hr)
  | marequestCreate => exact hkeeps (discard_keeps (ipcMarequestCreate_keeps ha))
  | marequestDestroy => exact hkeeps (ipcMarequestDestroy_keeps ha)
  | growTable => exact hkeeps (growTableProg_keeps ha)

end RightOp

namespace Kernel

variable {k k' : Kernel}

theorem step_wf (h : WF k) (op : RightOp) (hop : op.Allowed k)
    : Safe (exec machine op.prog k) fun _ k' => WF k' := by
  obtain ⟨t, hrel, ha⟩ := h.exists_rel
  refine (op.prog_safe hrel ha hop).mono fun _ k' ⟨t', hrel', ha'⟩ => ?_
  exact .of_rel hrel' ha'

theorem run_wf (h : WF k) (ops : List RightOp) (hops : AllowedRun k ops)
    : k.run (ops.map RightOp.prog) ≠ .error .undefined ∧ ∀ k', k.run (ops.map RightOp.prog) = .ok k' → WF k' := by
  induction ops generalizing k with
  | nil =>
    refine ⟨nofun, fun k' heq => ?_⟩
    cases heq
    exact h
  | cons op ops ih =>
    have hstep := step_wf h op hops.1
    rw [List.map_cons]
    unfold run
    cases hexec : exec machine op.prog k with
    | ok a =>
      rw [hexec] at hstep
      exact ih hstep (hops.2 a.1 a.2 hexec)
    | error e =>
      rw [hexec] at hstep
      cases e with
      | panic => exact ⟨nofun, nofun⟩
      | undefined => exact hstep.elim

end Kernel

end Ipc
