import UtahMach.Ipc.Right.Rules

/-!
This module contains proofs that entries stay well-formed when rights are given up.
-/

namespace Ipc

open KProg

variable {α : Type} {active : Nat → Bool} {c : Cells} {k : Nat × Nat} {space name : Nat} {r : Right}
  {h q : Bool}

def Keeps (active : Nat → Bool) (p : KProg α) (c : Cells) : Prop := Ver active p (fun _ => AllOk) c

abbrev At.Keeps (_ : At c (space, name) r h q) (active : Nat → Bool) (p : KProg α) : Prop :=
  Ipc.Keeps active p (c.at (space, name) r h q)

structure Empty (c : Cells) (k : Nat × Nat) (r : Right) (h q : Bool) : Prop where
  others : OthersOk c k
  type : r.type = .none
  object : r.object = ioNull
  request : r.request = 0
  hashed : h = false
  marequest : q = false

section

variable (ha : At c k r h q)
include ha

theorem At.setRequest (hp : r.type.hasPortRights = true) (request : Nat)
    (compat : Bool) : At c k { r with request := request, compat := compat } h q := by
  refine ⟨ha.others, ?_, ha.hashed, ha.request⟩
  have hok := ha.ok
  unfold RightOk at hok ⊢
  cases ht : r.type <;> simp only [ht] at hok hp ⊢
  case send | receive | sendReceive | sendOnce => exact hok
  all_goals contradiction

theorem At.clearSend (ht : r.type = .sendReceive)
    : At c k { r with type := r.type.clearSend, urefs := 0 } h q := by
  refine ⟨ha.others, ?_, ?_, ha.request⟩
  . exact .of_receive (by rw [ht]; rfl) (ha.ok.valid (by rw [ht]; rfl)) rfl
  . rw [ha.not_hashed (by rw [ht]; decide)]
    simp [ht, PortType.clearSend]

theorem At.addUrefs {delta : Int} (ht : r.type.hasSend = true)
    (hpos : 0 < r.urefs + delta) (hlt : r.urefs + delta < machPortUrefsMax) : At c k (r.addUrefs delta) h q := by
  refine ⟨ha.others, ?_, ha.hashed, ha.request⟩
  refine .of_hasSend ht (ha.ok.valid (PortType.hasPortRights_of_hasSend ht)) ?_ ?_
  . simp only [Right.addUrefs]
    omega
  . simp only [Right.addUrefs]
    omega

theorem At.addUrefsDead {delta : Int} (ht : r.type = .deadName)
    (hpos : 0 < r.urefs + delta) (hle : r.urefs + delta ≤ machPortUrefsMax) : At c k (r.addUrefs delta) h q := by
  obtain ⟨hobj, hreq, hmar, -, -⟩ := ha.ok.deadName ht
  refine ⟨ha.others, .of_deadName ht hobj hreq hmar ?_ ?_, ha.hashed, ha.request⟩
  . simp only [Right.addUrefs]
    omega
  . simp only [Right.addUrefs]
    omega

end

namespace Ver

theorem andInert {p : KProg α} {f : α → KProg β} [∀ a, Inert (f a)] (hp : Keeps active p c)
    : Keeps active (p >>= f) c :=
  bind (hp.mono fun _ _ hc => rest fun _ => hc)

section

variable (ho : OthersOk c (space, name)) (hh : h = false)
include ho hh

theorem freeEntry {f : Unit → KProg α} (hreq : r.request = 0) (hq : q = false)
    (hf : ∀ c', AllOk c' → Ver active (f ()) Q c')
    : Ver active (Ipc.deallocEntry space name >>= f) Q (c.at (space, name) r h q) :=
  bind (deallocEntry ho.fine hh hreq (hf _ (.dealloc ho hh hq)))

theorem freeNull (hobj : r.object = ioNull) (hreq : r.request = 0)
    (hq : q = false) (hQ : ∀ c', AllOk c' → Q () c')
    : Ver active (KProg.entryDealloc space name) Q (c.at (space, name) r h q) :=
  entryDealloc ho.fine hobj hreq (hQ _ (.dealloc ho hh hq))

end

theorem ipcRightDestroy_destroyPort (ho : OthersOk c (space, name))
    (hh : h = false) (hobj : r.object = r'.object)
    : Keeps active (ipcRightDestroy.destroyPort space name r') (c.at (space, name) r h false) := by
  refine inert fun _ => inert fun p => ite (fun _ => ?_) fun _ => ?_
  . refine bind (ipcRightDncancelMacro hobj fun n => freeEntry ho hh rfl rfl fun _ hc => ?_)
    exact rest fun _ => hc
  . refine kassert fun _ => inert fun _ => setRequest ?_
    exact freeEntry ho hh rfl rfl fun _ hc => ret hc

theorem urefs_delta {urefs up : Nat} {delta : Int} (hd : IsDelta delta) (hle : up ≤ machPortUrefsMax)
    (hunder : ¬ machPortUrefsUnderflow urefs delta = true) (hover : ¬ machPortUrefsOverflow up delta = true)
    : 0 ≤ urefs + delta ∧ (0 < delta → up + delta ≤ machPortUrefsMax) := by
  refine ⟨machPortUrefsUnderflow_eq_false hd (Bool.eq_false_iff.mpr hunder), fun hpos => ?_⟩
  refine machPortUrefsOverflow_eq_false ?_ hd (Bool.eq_false_iff.mpr hover) hpos
  unfold machPortUrefsMax at hle
  omega

section

variable (ha : At c (space, name) r h q)
include ha

theorem deallocDeadName_keeps (ht : r.type = .deadName) : ha.Keeps active (deallocDeadName space name) := by
  obtain ⟨hobj, hreq, hmar, hpos, hle⟩ := ha.ok.deadName ht
  have hh := ha.not_hashed (by rw [ht]; decide)
  refine getEntry (require ht (require hpos (require hreq (require hobj (require hmar ?_)))))
  refine ite (fun _ => ?_) fun hne => ?_
  . exact bind (freeNull ha.others hh hobj hreq (by rw [ha.request, hmar]) fun _ hc => ret hc)
  . refine bind (addUrefs ?_ (ret (ha.addUrefsDead ht ?_ ?_).allOk))
    all_goals omega

theorem deallocSend_keeps (ht : r.type = .send) : ha.Keeps active (deallocSend space name r.object r) := by
  refine inert fun _ => bind (ipcRightDncancelMacro rfl fun n => hashDelete ?_ rfl ?_)
  . exact ha.hashed.mpr ht
  refine ipcMarequestCancel ha.request (inert fun _ => ?_)
  exact freeEntry ha.others rfl rfl rfl fun _ hc => rest fun _ => hc

theorem clearSendRight_keeps (ht : r.type = .sendReceive) : ha.Keeps active (clearSendRight space name r.object r) :=
  inert fun _ => setBits (rest fun _ => (ha.clearSend ht).allOk)

theorem deallocSendOnce_keeps (ht : r.type = .sendOnce) : ha.Keeps active (deallocSendOnce space name r.object) := by
  have hh := ha.not_hashed (by rw [ht]; decide)
  have hq : q = false := by rw [ha.request, (ha.ok.sendOnce ht).2]
  refine bind (ipcRightDncancelMacro rfl fun n => ?_)
  exact freeEntry ha.others hh rfl hq fun _ hc => rest fun _ => hc

theorem addUrefs_keeps (ht : r.type.hasSend = true)
    {delta : Int} (hpos : 0 < r.urefs + delta) (hlt : r.urefs + delta < machPortUrefsMax)
    : ha.Keeps active (Ipc.addUrefs space name r delta) :=
  addUrefs ⟨le_of_lt hpos, le_of_lt hlt⟩ (ha.addUrefs ht hpos hlt).allOk

theorem check_keeps (hp : r.type.hasPortRights = true) (halive : ha.Keeps active alive)
    (hdead : r.compat = false → ∀ r' h' q', r'.type = .deadName →
      ∀ ha' : At c (space, name) r' h' q', ha'.Keeps active dead)
    (hgone : r.compat = true → ∀ c', AllOk c' → Keeps active dead c')
    : ha.Keeps active (do if ← Ipc.ipcRightCheck space r.object name then dead else alive) :=
  bind (Ver.ipcRightCheck ha hp halive hdead hgone)

theorem check_allOk (hp : r.type.hasPortRights = true) : ha.Keeps active (Ipc.ipcRightCheck space r.object name) :=
  ipcRightCheck ha hp ha.allOk (fun _ _ _ _ _ ha' => ha'.allOk) fun _ _ hc => hc

theorem check_inert [Inert dead] (hp : r.type.hasPortRights = true) (halive : ha.Keeps active alive)
    : ha.Keeps active (do if ← Ipc.ipcRightCheck space r.object name then dead else alive) :=
  check_keeps ha hp halive (fun _ _ _ _ _ ha' => rest fun _ => ha'.allOk) fun _ _ hc => rest fun _ => hc

-- what is done with a dead name, unless the right is gone
theorem check_dead {dead : KProg α} (hp : r.type.hasPortRights = true) (halive : ha.Keeps active alive)
    (hdead : ∀ r' h' q', r'.type = .deadName → ∀ ha' : At c (space, name) r' h' q', ha'.Keeps active dead)
    : ha.Keeps active (do
        if ← Ipc.ipcRightCheck space r.object name then (if r.compat then return a else dead) else alive) := by
  refine check_keeps ha hp halive (fun hc r' h' q' ht' ha' => ?_) fun hc c' hc' => ?_
  . rw [hc]
    exact hdead r' h' q' ht' ha'
  . rw [hc]
    exact ret hc'

theorem ipcRightDealloc_keeps : ha.Keeps active (ipcRightDealloc space name) := by
  refine getEntry (inert fun _ => ?_)
  cases ht : r.type with
  | deadName => exact deallocDeadName_keeps ha ht
  | none => exact absurd ht ha.ok.type_ne
  | portSet | receive => exact ret ha.allOk
  | sendOnce =>
    have hp : r.type.hasPortRights = true := by rw [ht]; rfl
    obtain ⟨hurefs, hmar⟩ := ha.ok.sendOnce ht
    refine require hurefs (require hmar (require (ha.ok.object_ne hp) ?_))
    refine check_dead ha hp ?_ fun r' h' q' ht' ha' => deallocDeadName_keeps ha' ht'
    exact inert fun _ => andInert (deallocSendOnce_keeps ha ht)
  | send =>
    have hp : r.type.hasPortRights = true := by rw [ht]; rfl
    have hsend : r.type.hasSend = true := by rw [ht]; rfl
    have hpos := ha.ok.urefs_pos (by rw [ht]; rfl)
    have hlt := ha.ok.urefs_lt hp
    refine require hpos (require (ha.ok.object_ne hp) ?_)
    refine check_dead ha hp ?_ fun r' h' q' ht' ha' => deallocDeadName_keeps ha' ht'
    refine inert fun _ => ite (fun _ => ?_) fun hne => ?_
    . exact andInert (deallocSend_keeps ha ht)
    . exact andInert (addUrefs_keeps ha hsend (by omega) (by omega))
  | sendReceive =>
    have hp : r.type.hasPortRights = true := by rw [ht]; rfl
    have hsend : r.type.hasSend = true := by rw [ht]; rfl
    have hpos := ha.ok.urefs_pos (by rw [ht]; rfl)
    have hlt := ha.ok.urefs_lt hp
    refine require hpos (require (ha.ok.object_ne hp) ?_)
    refine inert fun _ => inert fun _ => inert fun _ => ?_
    refine ite (fun _ => ?_) fun hne => ?_
    . exact andInert (clearSendRight_keeps ha ht)
    . exact andInert (addUrefs_keeps ha hsend (by omega) (by omega))

theorem ipcRightDestroy_keeps : ha.Keeps active (ipcRightDestroy space name) := by
  refine getEntry (inert fun _ => ?_)
  -- a receive right and a send-once right go the same way
  have hother : ∀ (hp : r.type.hasPortRights = true) (ht : r.type ≠ .send)
      (hmar : r.marequest = true → r.type.hasSend = true ∨ r.type.hasReceive = true),
      ha.Keeps active (do
        KProg.require (r.object ≠ ipNull)
        KProg.require (r.marequest = true → r.type.hasSend = true ∨ r.type.hasReceive = true)
        Ipc.ipcMarequestCancel space name r
        ipcRightDestroy.destroyPort space name r) := by
    intro hp ht hmar
    refine require (ha.ok.object_ne hp) (require hmar ?_)
    exact ipcMarequestCancel ha.request (ipcRightDestroy_destroyPort ha.others (ha.not_hashed ht) rfl)
  cases ht : r.type with
  | none => exact absurd ht ha.ok.type_ne
  | deadName =>
    obtain ⟨hobj, hreq, hmar, -, -⟩ := ha.ok.deadName ht
    refine require hreq (require hobj (require hmar ?_))
    exact bind (freeNull ha.others (ha.not_hashed (by rw [ht]; decide)) hobj hreq
      (by rw [ha.request, hmar]) fun _ hc => ret hc)
  | portSet =>
    obtain ⟨hobj, hreq, hmar, -⟩ := ha.ok.portSet ht
    refine require hreq (require hobj ?_)
    exact freeEntry ha.others (ha.not_hashed (by rw [ht]; decide)) hreq
      (by rw [ha.request, hmar]) fun _ hc => rest fun _ => hc
  | send =>
    refine require (ha.ok.object_ne (by rw [ht]; rfl)) (ipcMarequestCancel ha.request ?_)
    refine hashDelete (ha.hashed.mpr ht) rfl ?_
    exact ipcRightDestroy_destroyPort ha.others rfl rfl
  | receive | sendReceive =>
    have := hother (by rw [ht]; rfl) (by rw [ht]; decide) fun _ => .inr (by rw [ht]; rfl)
    rw [ht] at this
    exact this
  | sendOnce =>
    have := hother (by rw [ht]; rfl) (by rw [ht]; decide) fun hmar => by
      rw [(ha.ok.sendOnce ht).2] at hmar
      contradiction
    rw [ht] at this
    exact this

theorem ipcRightDelta_deltaReceive (ht : r.type.hasReceive = true) (hr' : r' = { r with marequest := false })
    : Keeps active (ipcRightDelta.deltaReceive space name r') (c.at (space, name) r h false) := by
  have hp := PortType.hasPortRights_of_hasReceive ht
  have hne : r.type ≠ .send := by
    intro heq
    rw [heq] at ht
    contradiction
  have hh := ha.not_hashed hne
  have hdead : ∀ r1 : Right, r1.type = .deadName → r1.object = ioNull → r1.request = 0 →
      r1.marequest = false → 0 < r1.urefs → r1.urefs ≤ machPortUrefsMax →
      AllOk (c.at (space, name) r1 h false) := by
    intro r1 ht1 hobj hreq hmar hpos hle
    refine At.allOk ⟨ha.others, .of_deadName ht1 hobj hreq hmar hpos hle, ?_, hmar.symm⟩
    rw [hh, ht1]
    simp
  subst hr'
  refine require (ha.ok.object_ne hp) (inert fun _ => inert fun _ => ?_)
  refine ite (fun hc => ?_) fun _ => ite (fun hsend => ?_) fun hsend => ?_
  . refine kassert fun _ => bind (ipcRightDncancel rfl fun n => ?_)
    exact inert fun _ => freeEntry ha.others hh rfl rfl fun _ hc => rest fun _ => hc
  . have hpos := ha.ok.urefs_pos (PortType.hasSendRights_of_hasSend hsend)
    have hlt := ha.ok.urefs_lt hp
    refine require hpos (require hlt (inert fun _ => ?_))
    refine ite (fun _ => ?_) fun hreq => ?_
    . refine setRequest (bind (addUrefs ?_ (setObject hh (rest fun _ => ?_))))
      . simp only
        omega
      . refine hdead _ rfl rfl rfl rfl ?_ ?_
        . simp only [Right.addUrefs]
          omega
        . simp only [Right.addUrefs]
          omega
    . refine setBits (setObject hh (rest fun _ => ?_))
      exact hdead _ rfl rfl (not_not.mp hreq) rfl hpos (le_of_lt hlt)
  . have hrecv : r.type = .receive := PortType.eq_receive (Bool.eq_false_iff.mpr hsend) ht
    refine require (ha.ok.receive_urefs hrecv) (bind (ipcRightDncancelMacro rfl fun n => ?_))
    exact freeEntry ha.others hh rfl rfl fun _ hc => rest fun _ => hc

theorem ipcRightDelta_deltaDeadName {delta : Int} (hd : IsDelta delta) (ht : r.type = .deadName)
    : ha.Keeps active (ipcRightDelta.deltaDeadName space name delta) := by
  obtain ⟨hobj, hreq, hmar, hpos, hle⟩ := ha.ok.deadName ht
  refine getEntry (require ht (require hpos (require hmar (require hobj (require hreq ?_)))))
  refine ite (fun _ => ret ha.allOk) fun hunder => ite (fun _ => ret ha.allOk) fun hover =>
    ite (fun _ => ?_) fun hne => ?_
  . exact bind (freeNull ha.others (ha.not_hashed (by rw [ht]; decide)) hobj hreq
      (by rw [ha.request, hmar]) fun _ hc => ret hc)
  . obtain ⟨hge, hmax⟩ := urefs_delta hd hle hunder hover
    have hmax : r.urefs + delta ≤ machPortUrefsMax := by omega
    exact bind (addUrefs ⟨hge, hmax⟩ (ret (ha.addUrefsDead ht (by omega) hmax).allOk))

theorem ipcRightDelta_deltaSend {delta : Int} (ht : r.type.hasSend = true) (hge : 0 ≤ r.urefs + delta)
    (hlt : r.urefs + delta < machPortUrefsMax)
    : ha.Keeps active (ipcRightDelta.deltaSend space name delta r) := by
  refine ite (fun _ => ite (fun hrecv => ?_) fun hrecv => ?_) fun hne => ?_
  . have ht : r.type = .sendReceive := PortType.eq_sendReceive ht hrecv
    refine inert fun _ => ?_
    exact andInert (clearSendRight_keeps ha ht)
  . have ht : r.type = .send := PortType.eq_send ht (Bool.eq_false_iff.mpr hrecv)
    exact andInert (deallocSend_keeps ha ht)
  . exact andInert (addUrefs_keeps ha ht (by omega) hlt)

theorem ipcRightDelta_keeps {right : PortRight} {delta : Int} (hd : IsDelta delta)
    : ha.Keeps active (ipcRightDelta space name right delta) := by
  refine getEntry (inert fun _ => ?_)
  cases right with
  | portSet =>
    refine ite (fun _ => ret ha.allOk) fun ht => ?_
    have ht := not_not.mp ht
    obtain ⟨hobj, hreq, hmar, hurefs⟩ := ha.ok.portSet ht
    refine require hurefs (require hmar (require hreq ?_))
    refine ite (fun _ => ret ha.allOk) fun _ => ite (fun _ => ret ha.allOk) fun _ => ?_
    refine require hobj (freeEntry ha.others (ha.not_hashed (by rw [ht]; decide)) hreq
      (by rw [ha.request, hmar]) fun _ hc => ?_)
    exact rest fun _ => hc
  | receive =>
    refine ite (fun _ => ret ha.allOk) fun ht => ite (fun _ => ret ha.allOk) fun _ =>
      ite (fun _ => ret ha.allOk) fun _ => ?_
    exact ipcMarequestCancel ha.request (ipcRightDelta_deltaReceive ha (Bool.not_eq_false _ ▸ ht) rfl)
  | sendOnce =>
    refine ite (fun _ => ret ha.allOk) fun ht => ?_
    have ht := not_not.mp ht
    obtain ⟨hurefs, hmar⟩ := ha.ok.sendOnce ht
    have hp : r.type.hasPortRights = true := by rw [ht]; rfl
    refine require hurefs (require hmar (ite (fun _ => ret ha.allOk) fun _ => ?_))
    refine require (ha.ok.object_ne hp) (check_inert ha hp ?_)
    refine inert fun _ => ite (fun _ => ret ha.allOk) fun _ => ?_
    exact andInert (deallocSendOnce_keeps ha ht)
  | deadName =>
    refine ite (fun ht => ?_) fun _ => ite (fun _ => ret ha.allOk) fun ht =>
      ipcRightDelta_deltaDeadName ha hd (not_not.mp ht)
    have hp := PortType.hasPortRights_of_hasSendRights ht
    refine require (ha.ok.object_ne hp) (check_dead ha hp (ret ha.allOk) ?_)
    exact fun r' h' q' ht' ha' => ipcRightDelta_deltaDeadName ha' hd ht'
  | send =>
    refine ite (fun _ => ret ha.allOk) fun ht => ite (fun _ => ret ha.allOk) fun hunder =>
      ite (fun _ => ret ha.allOk) fun hover => ?_
    have hsend : r.type.hasSend = true := Bool.not_eq_false _ ▸ ht
    have hp := PortType.hasPortRights_of_hasSend hsend
    have hlt := ha.ok.urefs_lt hp
    obtain ⟨hge, hmax⟩ := urefs_delta hd hlt hunder hover
    have hmax : r.urefs + delta < machPortUrefsMax := by omega
    refine require (ha.ok.object_ne hp) (check_inert ha hp ?_)
    exact inert fun _ => ipcRightDelta_deltaSend ha hsend hge hmax

theorem ipcRightDnrequest_deadName {notify : Nat}
    : ha.Keeps active (ipcRightDnrequest.deadName space name immediate notify port) := by
  refine getEntry (ite (fun ht => ?_) fun _ => ret ha.allOk)
  obtain ⟨-, -, -, hpos, hle⟩ := ha.ok.deadName ht.1
  refine require hpos (ite (fun _ => ret ha.allOk) fun hover => ?_)
  have hmax : (r.urefs + 1 : Int) ≤ machPortUrefsMax := by
    refine machPortUrefsOverflow_eq_false ?_ ⟨by decide, by decide⟩ (Bool.eq_false_iff.mpr hover) Int.one_pos
    unfold machPortUrefsMax at hle
    omega
  refine bind (addUrefs ⟨by omega, hmax⟩ (inert fun _ => ret ?_))
  exact (ha.addUrefsDead ht.1 (by omega) hmax).allOk

theorem ipcRightDnrequest_request {notify : Nat} (hp : r.type.hasPortRights = true)
    : ha.Keeps active (ipcRightDnrequest.request space name notify r) := by
  refine ite (fun _ => ite (fun _ => ?_) fun _ => ?_) fun _ => ?_
  . exact kassert fun _ => ret ha.allOk
  . exact bind (ipcRightDncancelMacro rfl fun n => ret (ha.setRequest hp 0 r.compat).allOk)
  . refine bind (ipcRightDncancelMacro rfl fun n => inert fun request => ?_)
    refine ite (fun _ => inert fun _ => inert fun _ => ret ?_) fun _ => ?_
    . exact (ha.setRequest hp 0 r.compat).allOk
    . refine setRequest (setBits (ret ?_))
      exact (ha.setRequest hp request false).allOk

theorem ipcRightDnrequest_keeps {notify : Nat} : ha.Keeps active (ipcRightDnrequest space name immediate notify) := by
  refine getEntry (ite (fun hp => ?_) fun _ => ipcRightDnrequest_deadName ha)
  refine require (ha.ok.object_ne hp) (check_dead ha hp (ipcRightDnrequest_request ha hp) ?_)
  exact fun r' h' q' _ ha' => ipcRightDnrequest_deadName ha'

end

theorem ipcRightInuse (ha : Empty c (space, name) r h q ∧ r = .null ∨ At c (space, name) r h q)
    (huse : At c (space, name) r h q → Q true (c.at (space, name) r h q))
    (hfree : ∀ h' q', Empty c (space, name) .null h' q' → Q false (c.at (space, name) .null h' q'))
    : Ver active (ipcRightInuse space name) Q (c.at (space, name) r h q) := by
  refine getEntry (ite (fun ht => ?_) fun ht => ?_)
  . obtain ⟨hempty, rfl⟩ | ha := ha
    . exact ret (hfree _ _ hempty)
    . exact absurd ht ha.ok.type_ne
  have ha : At c (space, name) r h q := by
    obtain ⟨hempty, -⟩ | ha := ha
    . exact absurd hempty.type ht
    . exact ha
  have hclean : ∀ h' : Bool, h' = false → Ver active
      (ipcRightInuse.cleanEntry space name r) Q (c.at (space, name) r h' false) := by
    intro h' hh'
    refine inert fun _ => setRequest (setObject hh' (setBits (ret ?_)))
    exact hfree h' false ⟨ha.others, rfl, rfl, rfl, hh', rfl⟩
  refine ite (fun hc => ?_) fun _ => ret (huse ha)
  have hp : r.type.hasPortRights = true := by
    obtain ht | ht := hc.2 <;> rw [ht] <;> rfl
  have hpos := ha.ok.urefs_pos (by obtain ht | ht := hc.2 <;> rw [ht] <;> rfl)
  refine require hpos (kassert fun _ => require (ha.ok.object_ne hp) ?_)
  refine inert fun _ => inert fun p => ite (fun _ => ret (huse ha)) fun _ => ?_
  refine ite (fun ht => ?_) fun hne => ?_
  . refine ipcMarequestCancel ha.request (hashDelete ?_ rfl (hclean _ rfl))
    exact ha.hashed.mpr ht
  . obtain ⟨hurefs, hmar⟩ := ha.ok.sendOnce (hc.2.resolve_left hne)
    refine require hurefs (require hmar ?_)
    rw [ha.request, hmar]
    exact hclean _ (ha.not_hashed hne)

end Ver

end Ipc
