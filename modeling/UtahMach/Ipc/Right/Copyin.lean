import UtahMach.Ipc.Right.Dealloc

/-!
This module contains proofs that entries stay well-formed when rights are copied in.
-/

namespace Ipc

open PortType

open KProg

structure Undoable (msgtName : MsgTypeName) (r : Right) (object soright : Nat) : Prop where
  none : soright ≠ ipNull → r.type = .none ∧ object ≠ ioDead
  deadName : r.type = .deadName → object = ioDead ∧
    (msgtName ≠ .copySend → r.urefs < machPortUrefsMax)
  send : r.type = .send → object = r.object ∧
    (msgtName = .moveSend → r.urefs < machPortUrefsMax - 1)

def CopyinPost (c : Cells) (k : Nat × Nat) (msgtName : MsgTypeName)
    : Copied → Cells → Prop
  | .error kr, c' => AllOk c' ∧ (kr ≠ .invalidName → ∃ r h q, c' = c.at k r h q ∧ At c k r h q)
  | .ok (object, soright), c' => ∃ r h q, c' = c.at k r h q ∧
      (At c k r h q ∨ Empty c k r h q) ∧ Undoable msgtName r object soright

abbrev At.Copies (_ : At c (space, name) r h q) (active : Nat → Bool) (msgtName : MsgTypeName) (p : KProg Copied)
    : Prop := Ver active p (CopyinPost c (space, name) msgtName) (c.at (space, name) r h q)

variable {msgtName : MsgTypeName} {object : Nat}

theorem CopyinPost.left (hcell : At c k r h q ∨ Empty c k r h q)
    (hu : Undoable msgtName r object soright) : CopyinPost c k msgtName (.ok (object, soright)) (c.at k r h q) :=
  ⟨r, h, q, rfl, hcell, hu⟩

theorem CopyinPost.failed (ha : At c k r h q) (kr : KernReturn)
    : CopyinPost c k msgtName (.error kr) (c.at k r h q) :=
  ⟨ha.allOk, fun _ => ⟨r, h, q, rfl, ha⟩⟩

theorem Undoable.receive (ht : r.type.hasReceive = true) : Undoable msgtName r object ipNull := by
  refine ⟨fun hne => absurd rfl hne, fun hdead => ?_, fun hsend => ?_⟩
  . rw [hdead] at ht
    contradiction
  . rw [hsend] at ht
    contradiction

theorem Undoable.empty (ht : r.type = .none) (hobj : object ≠ ioDead) : Undoable msgtName r object soright := by
  refine ⟨fun _ => ⟨ht, hobj⟩, fun hdead => ?_, fun hsend => ?_⟩
  . rw [ht] at hdead
    contradiction
  . rw [ht] at hsend
    contradiction

theorem At.clearReceive (ha : At c k r h q) (ht : r.type = .sendReceive)
    : At c k { r with type := r.type.clearReceive } true q := by
  have hp : r.type.hasPortRights = true := by rw [ht]; rfl
  refine ⟨ha.others, ?_, ?_, ha.request⟩
  . exact .of_hasSend (by rw [ht]; rfl) (ha.ok.valid hp) (ha.ok.urefs_pos (by rw [ht]; rfl)) (ha.ok.urefs_lt hp)
  . rw [ht]
    exact ⟨fun _ => rfl, fun _ => rfl⟩

theorem At.mar_none (ha : At c k r h q) (ht : r.type = .deadName) : q = false := by
  rw [ha.request, (ha.ok.deadName ht).2.2.1]

namespace Ver

section

variable (ha : At c (space, name) r h q)
include ha

theorem requireDeadName (ht : r.type = .deadName) (hq : Q () (c.at (space, name) r h q))
    : Ver active (requireDeadName r) Q (c.at (space, name) r h q) := by
  obtain ⟨hobj, hreq, hmar, hpos, -⟩ := ha.ok.deadName ht
  exact require ht (require hpos (require hmar (require hreq (require hobj hq))))

-- the receiver of the port goes on
theorem receiver (herr : Q err (c.at (space, name) r h q))
    (hf : r.type.hasReceive = true → r.type.hasPortRights = true → Ver active f Q (c.at (space, name) r h q))
    : Ver active (if r.type.hasReceive = false then return err else do
        KProg.require (r.object ≠ ipNull)
        ipLock r.object
        kassertReceiver space name r.object
        f) Q (c.at (space, name) r h q) := by
  refine ite (fun _ => ret herr) fun ht => ?_
  have hrecv : r.type.hasReceive = true := Bool.not_eq_false _ ▸ ht
  have hp := hasPortRights_of_hasReceive hrecv
  exact require (ha.ok.object_ne hp) (inert fun _ => inert fun _ => hf hrecv hp)

variable {deadok : Bool} {msgtName : MsgTypeName}

theorem copyDead (ht : r.type = .deadName) : ha.Copies active .copySend (copyDead space name deadok) := by
  refine getEntry (bind (requireDeadName ha ht (ret ?_)))
  cases deadok with
  | false => exact .failed ha _
  | true =>
    refine .left (.inl ha) ⟨fun hne => absurd rfl hne, fun _ => ⟨rfl, ?_⟩, fun hsend => ?_⟩
    . exact fun hname => absurd rfl hname
    . rw [ht] at hsend
      contradiction

theorem moveDead (ht : r.type = .deadName) : ha.Copies active msgtName (moveDead space name deadok) := by
  obtain ⟨hobj, hreq, -, hpos, hle⟩ := ha.ok.deadName ht
  refine getEntry (bind (requireDeadName ha ht (ite (fun _ => ite (fun _ => ?_) fun hne => ?_)
    fun _ => ret (.failed ha _))))
  . refine setBits (ret (.left (.inr ?_) ⟨fun hne => absurd rfl hne, ?_, ?_⟩))
    . exact ⟨ha.others, rfl, hobj, hreq, ha.not_hashed (by rw [ht]; decide), ha.mar_none ht⟩
    . exact fun hdead => nomatch hdead
    . exact fun hsend => nomatch hsend
  . refine bind (addUrefs ?_ (ret (.left (.inl (ha.addUrefsDead ht ?_ ?_)) ⟨?_, ?_, ?_⟩)))
    . omega
    . omega
    . omega
    . exact fun hne => absurd rfl hne
    . refine fun _ => ⟨rfl, fun _ => ?_⟩
      simp only [Right.addUrefs]
      omega
    . intro hsend
      simp only [Right.addUrefs, ht] at hsend
      contradiction

theorem ipcRightCopyin_live (hdead : ∀ r' h' q', r'.type = .deadName →
      ∀ ha' : At c (space, name) r' h' q', ha'.Copies active msgtName dead)
    (halive : r.type.hasSendRights = true → ha.Copies active msgtName alive)
    : ha.Copies active msgtName (ipcRightCopyin.live space name r dead alive) := by
  refine ite (fun ht => hdead r h q ht ha) fun _ => ite (fun _ => ret (.failed ha _)) fun ht => ?_
  have hrights : r.type.hasSendRights = true := Bool.not_eq_false _ ▸ ht
  have hp : r.type.hasPortRights = true := by
    cases ht' : r.type <;> simp_all [hasSendRights, hasPortRights]
  refine require (ha.ok.urefs_pos hrights) (require (ha.ok.object_ne hp) ?_)
  refine bind (ipcRightCheck ha hp (halive hrights) ?_ ?_)
  . intro hc r' h' q' ht' ha'
    rw [hc]
    exact hdead r' h' q' ht' ha'
  . intro hc c' hc'
    rw [hc]
    exact ret ⟨hc', fun hne => absurd rfl hne⟩

theorem moveLastSend (ht : r.type = .send)
    (hq : ∀ n, Q n (c.at (space, name) { r with request := 0, object := ioNull } false false))
    : Ver active (moveLastSend space name r.object r) Q (c.at (space, name) r h q) := by
  refine bind (ipcRightDncancelMacro rfl fun n => hashDelete ?_ rfl ?_)
  . exact ha.hashed.mpr ht
  . exact ipcMarequestCancel ha.request (setObject rfl (ret (hq n)))

theorem ipcRightCopyin_moveSend (ht : r.type.hasSend = true)
    : ha.Copies active .moveSend (ipcRightCopyin.moveSend space name r) := by
  have hp := hasPortRights_of_hasSend ht
  have hpos := ha.ok.urefs_pos (hasSendRights_of_hasSend ht)
  have hlt := ha.ok.urefs_lt hp
  refine ite (fun _ => ite (fun hrecv => ?_) fun hrecv => ?_) fun hne => ?_
  . have ht : r.type = .sendReceive := eq_sendReceive ht hrecv
    refine inert fun _ => inert fun _ => setBits (ret ?_)
    exact .left (.inl (ha.clearSend ht)) (.receive (by rw [ht]; rfl))
  . have ht : r.type = .send := eq_send ht (Bool.eq_false_iff.mpr hrecv)
    refine bind (moveLastSend ha ht fun n => setBits (ret (.left (.inr ?_) ?_)))
    . exact ⟨ha.others, by rw [ht]; rfl, rfl, rfl, rfl, rfl⟩
    . exact .empty (by rw [ht]; rfl) (ha.ok.object_ne_dead hp)
  . refine inert fun _ => bind (addUrefs ?_ (ret (.left (.inl (ha.addUrefs ht ?_ ?_)) ?_)))
    . omega
    . omega
    . omega
    . refine ⟨fun hne => absurd rfl hne, fun hdead => ?_, fun _ => ⟨rfl, fun _ => ?_⟩⟩
      . simp only [Right.addUrefs] at hdead
        rw [hdead] at ht
        contradiction
      . simp only [Right.addUrefs]
        omega

theorem ipcRightCopyin : ha.Copies active msgtName (ipcRightCopyin space name msgtName deadok) := by
  refine getEntry (inert fun _ => ?_)
  cases msgtName with
  | makeSend | makeSendOnce =>
    refine receiver ha (.failed ha _) fun hrecv hp => ?_
    exact inert fun _ => ret (.left (.inl ha) (.receive hrecv))
  | moveReceive =>
    refine receiver ha (.failed ha _) fun hrecv hp => ?_
    refine ite (fun hsend => ?_) fun hsend => ?_
    . have ht : r.type = .sendReceive := eq_sendReceive hsend hrecv
      have hh := ha.not_hashed (by rw [ht]; decide)
      refine require (ha.ok.urefs_pos (hasSendRights_of_hasSend hsend)) ?_
      refine inert fun _ => hashInsert hh (ha.ok.object_ne hp) rfl ?_
      refine inert fun _ => setBits (inert fun _ => ret ?_)
      refine .left (.inl (ha.clearReceive ht)) ⟨fun hne => absurd rfl hne, ?_, ?_⟩
      . intro hdead
        simp only [ht] at hdead
        contradiction
      . exact fun _ => ⟨rfl, fun hname => nomatch hname⟩
    . have ht : r.type = .receive := eq_receive (Bool.eq_false_iff.mpr hsend) hrecv
      have hh := ha.not_hashed (by rw [ht]; decide)
      refine require (ha.ok.receive_urefs ht) (bind (ipcRightDncancelMacro rfl fun n => ?_))
      refine ipcMarequestCancel ha.request (setObject hh (setBits ?_))
      refine inert fun _ => ret (.left (.inr ?_) (.empty (by rw [ht]; rfl) (ha.ok.object_ne_dead hp)))
      exact ⟨ha.others, by rw [ht]; rfl, rfl, rfl, hh, rfl⟩
  | copySend =>
    refine ipcRightCopyin_live ha (fun r' h' q' ht' ha' => copyDead ha' ht') fun hrights => ?_
    refine ite (fun _ => inert fun _ => ret (.failed ha _)) fun hsend => ?_
    refine inert fun _ => inert fun _ => ret (.left (.inl ha) ?_)
    refine ⟨fun hne => absurd rfl hne, fun hdead => ?_, fun _ => ⟨rfl, fun hname => nomatch hname⟩⟩
    rw [hdead] at hrights
    contradiction
  | moveSend =>
    refine ipcRightCopyin_live ha (fun r' h' q' ht' ha' => moveDead ha' ht') fun _ => ?_
    refine ite (fun _ => inert fun _ => ret (.failed ha _)) fun hsend => ?_
    exact inert fun _ => ipcRightCopyin_moveSend ha (Bool.not_eq_false _ ▸ hsend)
  | moveSendOnce =>
    refine ipcRightCopyin_live ha (fun r' h' q' ht' ha' => moveDead ha' ht') fun _ => ?_
    refine ite (fun _ => inert fun _ => ret (.failed ha _)) fun ht => ?_
    have ht := not_not.mp ht
    have hh := ha.not_hashed (by rw [ht]; decide)
    obtain ⟨hurefs, hmar⟩ := ha.ok.sendOnce ht
    refine require hurefs (require hmar (inert fun _ => ?_))
    refine bind (ipcRightDncancelMacro rfl fun n => setObject hh (setBits ?_))
    refine ret (.left (.inr ?_) (.empty rfl (ha.ok.object_ne_dead (by rw [ht]; rfl))))
    exact ⟨ha.others, rfl, rfl, rfl, hh, by rw [ha.request, hmar]⟩

end

theorem Empty.deadName (he : Empty c k r h q) (hpos : 0 < urefs) (hle : urefs ≤ machPortUrefsMax)
    : At c k { deadNameBits urefs with object := r.object, request := r.request } h q := by
  refine ⟨he.others, .of_deadName rfl he.object he.request rfl hpos hle, ?_, he.marequest⟩
  rw [he.hashed]
  simp [deadNameBits]

theorem ipcRightCopyinUndo_keeps {msgtName : MsgTypeName}
    (hcell : At c (space, name) r h q ∨ Empty c (space, name) r h q)
    (hu : Undoable msgtName r object soright)
    : Keeps active (ipcRightCopyinUndo space name msgtName object soright) (c.at (space, name) r h q) := by
  have hempty : r.type = .none → Empty c (space, name) r h q := by
    intro ht
    exact hcell.resolve_left fun ha => ha.ok.type_ne ht
  have hat : r.type ≠ .none → At c (space, name) r h q := by
    intro ht
    exact hcell.resolve_right fun he => ht he.type
  refine getEntry (inert fun _ => kassert fun _ => ?_)
  refine ite (fun hso => ?_) fun _ => ite (fun ht => ?_) fun hne => ite (fun ht => ?_) fun hdead => ?_
  . obtain ⟨ht, hobj⟩ := hu.none hso
    have he := hempty ht
    refine kassert fun _ => require ht (require he.object (require hobj ?_))
    exact setBits (rest fun _ => (Empty.deadName he (by decide) (by decide)).allOk)
  . have he := hempty ht
    refine kassert fun _ => require he.object (setBits (rest fun _ => ?_))
    exact (Empty.deadName he (by decide) (by decide)).allOk
  . have ha := hat hne
    obtain ⟨hobj, -, -, hpos, -⟩ := ha.ok.deadName ht
    obtain ⟨hobject, hlt⟩ := hu.deadName ht
    refine require hobj (require hobject (require hpos ?_))
    refine ite (fun hcopy => ?_) fun _ => rest fun _ => ha.allOk
    have hlt := hlt hcopy
    have ha' := ha.addUrefsDead ht (by omega : 0 < r.urefs + (1 : Int)) (by omega)
    refine require hlt (bind (addUrefs ?_ (rest fun _ => ha'.allOk)))
    omega
  . have ha := hat hne
    refine kassert fun hname => kassert fun ht => ?_
    have hp : r.type.hasPortRights = true := by rw [ht]; rfl
    have hsend : r.type.hasSend = true := by rw [ht]; rfl
    obtain ⟨hobj, hlt⟩ := hu.send ht
    subst hobj
    have hpos := ha.ok.urefs_pos (by rw [ht]; rfl)
    refine require (ha.ok.object_ne_dead hp) (require rfl (require hpos ?_))
    refine ite (fun hcopy => ?_) fun _ => ?_
    . have hlt := hlt (hname.resolve_right hcopy)
      refine require hlt (bind (addUrefs ?_ ?_))
      . omega
      have ha' := ha.addUrefs hsend (by omega : 0 < r.urefs + (1 : Int)) (by omega)
      exact andInert (check_allOk ha' hp)
    . exact andInert (check_allOk ha hp)

theorem ipcRightCopyinTwo (ha : At c (space, name) r h q) (herr : ∀ kr c', AllOk c' → Q (.error kr) c')
    (hok : ∀ a r' h' q', At c (space, name) r' h' q' ∨ Empty c (space, name) r' h' q' →
      Q (.ok a) (c.at (space, name) r' h' q'))
    : Ver active (ipcRightCopyinTwo space name) Q (c.at (space, name) r h q) := by
  refine getEntry (inert fun _ => ?_)
  refine ite (fun _ => ret (herr _ _ ha.allOk)) fun ht => ite (fun _ => ret (herr _ _ ha.allOk))
    fun htwo => ?_
  have hsend : r.type.hasSend = true := Bool.not_eq_false _ ▸ ht
  have hp := hasPortRights_of_hasSend hsend
  have hlt := ha.ok.urefs_lt hp
  refine require (ha.ok.object_ne hp) (bind (ipcRightCheck ha hp ?_ ?_ ?_))
  . refine inert fun _ => ite (fun _ => ite (fun hrecv => ?_) fun hrecv => ?_) fun hne => ?_
    . refine inert fun _ => inert fun _ => setBits (ret ?_)
      exact hok _ _ _ _ (.inl (ha.clearSend (eq_sendReceive hsend hrecv)))
    . have ht : r.type = .send := eq_send hsend (Bool.eq_false_iff.mpr hrecv)
      refine bind (ipcRightDncancelMacro rfl fun n => hashDelete ?_ rfl ?_)
      . exact ha.hashed.mpr ht
      refine ipcMarequestCancel ha.request (inert fun _ => setObject rfl ?_)
      refine setBits (ret (hok _ _ _ _ (.inr ?_)))
      exact ⟨ha.others, by rw [ht]; rfl, rfl, rfl, rfl, rfl⟩
    . refine inert fun _ => bind (addUrefs ?_ (ret (hok _ _ _ _ (.inl (ha.addUrefs hsend ?_ ?_)))))
      all_goals omega
  . exact fun _ r' h' q' _ ha' => ret (herr _ _ ha'.allOk)
  . exact fun _ c' hc' => ret (herr _ _ hc')

theorem ipcRightCopyinCompat_leaveSend (ho : OthersOk c (space, name))
    (hh : h = false) (hobj : r'.object = r.object) (hvalid : ioValid r.object = true)
    (ht : r'.type = .sendReceive) (hpos : 0 < r'.urefs) (hlt : r'.urefs < machPortUrefsMax) (hq : q = r'.marequest)
    : Keeps active (ipcRightCopyinCompat.leaveSend space name r') (c.at (space, name) r h q) := by
  have hne : r'.object ≠ ioNull := by
    simp only [ioValid, Bool.and_eq_true, bne_iff_ne] at hvalid
    rw [hobj]
    exact hvalid.1
  refine hashInsert hh hne hobj.symm (setBits (inert fun _ => ?_))
  refine inert fun _ => ret (At.allOk ⟨ho, ?_, ?_, hq⟩)
  . exact .of_hasSend (by rw [ht]; rfl) hvalid hpos hlt
  . rw [ht]
    exact ⟨fun _ => rfl, fun _ => rfl⟩

theorem ipcRightCopyinCompat_keeps {msgtName : CompatName} {dealloc : Bool} (ha : At c (space, name) r h q)
    (hleft : ¬ (msgtName = .port ∧ dealloc = true ∧ r.type = .send))
    : ha.Keeps active (ipcRightCopyinCompat space name msgtName dealloc) := by
  refine getEntry (inert fun _ => ?_)
  match msgtName, dealloc with
  | .port, true =>
    refine ite (fun _ => ret ha.allOk) fun ht => ?_
    have ht := not_not.mp ht
    have hp : r.type.hasPortRights = true := by rw [ht]; rfl
    refine require (ha.ok.object_ne hp) (check_inert ha hp ?_)
    refine bind (ipcRightDncancelMacro rfl fun n => inert fun _ => ?_)
    refine ipcMarequestCancel ha.request ?_
    refine freeEntry ha.others ?_ rfl rfl fun _ hc => rest fun _ => hc
    exact absurd ⟨rfl, rfl, ht⟩ hleft
  | .port, false =>
    refine ite (fun _ => ret ha.allOk) fun ht => ?_
    have hp : r.type.hasPortRights = true := by
      cases htype : r.type <;> rw [htype] at ht <;> first | rfl | exact absurd ⟨rfl, rfl⟩ ht
    refine require (ha.ok.object_ne hp) (check_inert ha hp ?_)
    show Keeps active (if r.type.hasSend = false then _ else _) _
    refine ite (fun hsend => ?_) fun _ => rest fun _ => ha.allOk
    have hrecv : r.type = .receive := by
      cases htype : r.type <;> rw [htype] at ht hsend <;> first | rfl | contradiction
    exact require (ha.ok.receive_urefs hrecv) (rest fun _ => ha.allOk)
  | .portAll, true =>
    refine receiver ha ha.allOk fun hrecv hp => ?_
    have hne : r.type ≠ .send := by
      intro heq
      rw [heq] at hrecv
      contradiction
    refine bind (ipcRightDncancelMacro rfl fun n => ipcMarequestCancel ha.request ?_)
    refine freeEntry ha.others (ha.not_hashed hne) rfl rfl fun _ hc => ?_
    refine ite (fun hsend => ?_) fun _ => rest fun _ => hc
    exact require (ha.ok.urefs_pos (hasSendRights_of_hasSend hsend)) (rest fun _ => hc)
  | .portAll, false =>
    refine receiver ha ha.allOk fun hrecv hp => ?_
    refine ite (fun hsend => ?_) fun hsend => ?_
    . have ht : r.type = .receive := eq_receive hsend hrecv
      have hurefs := ha.ok.receive_urefs ht
      refine require hurefs (inert fun _ => ?_)
      refine ipcRightCopyinCompat_leaveSend ha.others (ha.not_hashed (by rw [ht]; decide)) rfl
        (ha.ok.valid hp) (by rw [ht]; rfl) ?_ ?_ ha.request
      . show 0 < r.urefs ||| 1
        rw [hurefs]
        decide
      . show r.urefs ||| 1 < machPortUrefsMax
        rw [hurefs]
        decide
    . have ht : r.type = .sendReceive := eq_sendReceive (Bool.not_eq_false _ ▸ hsend) hrecv
      exact ipcRightCopyinCompat_leaveSend ha.others (ha.not_hashed (by rw [ht]; decide)) rfl
        (ha.ok.valid hp) ht (ha.ok.urefs_pos (by rw [ht]; rfl)) (ha.ok.urefs_lt hp) ha.request

theorem ipcRightCopyinHeader_keeps (ha : At c (space, name) r h q)
    : ha.Keeps active (ipcRightCopyinHeader space name) := by
  refine getEntry (inert fun _ => ?_)
  -- a send right is copied in the same way with and without a receive right
  have hsend : r.type.hasSend = true → Keeps (α := Except KernReturn (Nat × PortName)) active (do
      KProg.require (0 < r.urefs)
      KProg.require (r.object ≠ ipNull)
      if ← Ipc.ipcRightCheck space r.object name then
        return .error (if r.compat then .invalidName else .invalidRight)
      else
        kassertSrights r.object
        modifyPort r.object fun p => { p.reference with ipSrights := p.ipSrights + 1 }
        return .ok (r.object, .portSend)) (c.at (space, name) r h q) := by
    intro ht
    have hp := hasPortRights_of_hasSend ht
    refine require (ha.ok.urefs_pos (hasSendRights_of_hasSend ht)) ?_
    exact require (ha.ok.object_ne hp) (check_inert ha hp (rest fun _ => ha.allOk))
  cases ht : r.type with
  | none => exact absurd ht ha.ok.type_ne
  | portSet | deadName => exact ret ha.allOk
  | receive =>
    exact require (ha.ok.object_ne (by rw [ht]; rfl)) (rest fun _ => ha.allOk)
  | send | sendReceive => exact hsend (by rw [ht]; rfl)
  | sendOnce =>
    have hp : r.type.hasPortRights = true := by rw [ht]; rfl
    obtain ⟨hurefs, hmar⟩ := ha.ok.sendOnce ht
    refine require hurefs (require hmar (require (ha.ok.object_ne hp) (check_inert ha hp ?_)))
    exact inert fun _ => bind (ipcRightDncancelMacro rfl fun n => freeEntry ha.others
      (ha.not_hashed (by rw [ht]; decide)) rfl (by rw [ha.request, hmar]) fun _ hc => rest fun _ => hc)

end Ver

end Ipc
