import UtahMach.Ipc.Mqueue.Finish

/-!
This module contains runs of threads that send and receive.
-/

namespace Ipc

open MqState

inductive MqOp where
  | send (t : Nat) (kmsg : Msg) (always : Bool) (timeOut : Option Nat)
  | sendResume (t : Nat) (reason : WaitResult)
  | receivePort (t port maxSize : Nat) (timeOut : Option Nat)
  | receivePset (t pset maxSize : Nat) (timeOut : Option Nat)
  | receiveResume (t : Nat) (reason : WaitResult)
  | receiveFinish (t : Nat)
  | psetAdd (pset port : Nat)
  | psetRemove (pset port : Nat)
  | psetMove (port : Nat) (nset : Option Nat)
  | psetDestroy (pset : Nat)
  | setQlimit (port qlimit : Nat)
  | portDestroy (port : Nat)
deriving DecidableEq, Repr

def enter (t : Nat) (call : MqState → Option MqState) (s : MqState) : Option MqState :=
  match (s.threads t).activity with
  | .returned _ => call s
  | _ => none

def mqStep : MqOp → MqState → Option MqState
  | .send t kmsg always timeOut => enter t (ipcMqueueSend t kmsg always timeOut)
  | .sendResume t reason => sendResume t reason
  | .receivePort t port maxSize timeOut => enter t (receiveFromPort t port maxSize timeOut)
  | .receivePset t pset maxSize timeOut => enter t (receiveFromPset t pset maxSize timeOut)
  | .receiveResume t reason => receiveResume t reason
  | .receiveFinish t => receiveFinish t
  | .psetAdd pset port => ipcPsetAdd pset port
  | .psetRemove pset port => ipcPsetRemove pset port
  | .psetMove port nset => fun s => (ipcPsetMove port nset s).map Prod.snd
  | .psetDestroy pset => ipcPsetDestroy pset
  | .setQlimit port qlimit => ipcPortSetQlimit port qlimit
  | .portDestroy port => portDestroy port

def mqRun : List MqOp → MqState → Option MqState
  | [], s => some s
  | op :: ops, s => (mqStep op s).bind (mqRun ops)

structure MqInit (s : MqState) : Prop where
  queues : ∀ q, (s.queues q).imqMessages = [] ∧ (s.queues q).imqThreads = []
  ports : ∀ p, (s.ports p).ipBlocked = [] ∧ (s.ports p).ipMsgcount = 0 ∧ (s.ports p).ipSeqno < 2 ^ 32
  threads : ∀ t, ∃ mr, (s.threads t).activity = .returned mr
  log : s.log = []

def MqOp.harmless (s : MqState) : MqOp → Prop
  | .sendResume t _ => ¬ s.wokenCircular t
  | _ => True

def HarmlessRun : List MqOp → MqState → Prop
  | [], _ => True
  | op :: ops, s => op.harmless s ∧ ∀ s', mqStep op s = some s' → HarmlessRun ops s'

def mqFresh (qlimit : Nat) : MqState where
  ports _ := {
    ipActive := true
    kernel := false
    ipPset := none
    ipSeqno := 0
    ipMsgcount := 0
    ipQlimit := qlimit
    ipBlocked := [] }
  ipsActive _ := true
  queues _ := { imqMessages := [], imqThreads := [] }
  threads _ := {
    activity := .returned .success
    ithState := .success
    ithMsize := 0
    ithKmsg := none
    ithSeqno := 0 }
  log := []

theorem mqFresh_init (qlimit : Nat) : MqInit (mqFresh qlimit) :=
  ⟨fun _ => ⟨rfl, rfl⟩, fun _ => ⟨rfl, rfl, by simp [mqFresh]⟩, fun _ => ⟨_, rfl⟩, rfl⟩

variable {start : Nat → Nat} {s s' : MqState}

theorem MqInit.inv {s : MqState} (h : MqInit s) : MqInv (fun p => (s.ports p).ipSeqno) s noFlight := by
  have hqueued : ∀ q p, s.queuedIn q p = [] := fun q p => queuedIn_of_nil (h.queues q).1 p
  refine ⟨fun q => .inl (h.queues q).1, ?_, ?_, ?_, ?_, ?_, ?_, ?_, ?_, ?_⟩
  . intro q t ht
    rw [(h.queues q).2] at ht
    exact absurd ht List.not_mem_nil
  . intro q
    rw [(h.queues q).2]
    exact List.nodup_nil
  . intro p t ht
    rw [(h.ports p).1] at ht
    exact absurd ht List.not_mem_nil
  . intro p
    rw [(h.ports p).1]
    exact List.nodup_nil
  . intro q p _ hne
    exact absurd (hqueued q p) hne
  . intro p m hm
    rw [(h.queues _).1] at hm
    exact absurd hm List.not_mem_nil
  . intro p _
    simp [accepted, received, h.log, hqueued, noFlight]
  . intro p _
    refine ⟨by simp [received, h.log, seqnos], ?_⟩
    simp only [received, h.log, List.filterMap_nil, List.length_nil, Nat.add_zero]
    exact (Nat.mod_eq_of_lt (h.ports p).2.2).symm
  . intro t
    obtain ⟨mr, ha⟩ := h.threads t
    simp [receivedBy, pickedBy, h.log, MqState.pending, ha]

theorem MqInit.noLostWakeup {s : MqState} (h : MqInit s) : NoLostWakeup s := fun p _ hne => absurd (h.ports p).1 hne

theorem MqInit.counted {s : MqState} (h : MqInit s) : MsgsCounted s := by
  intro p _
  have hholders : s.holders p = ∅ := by
    rw [Set.eq_empty_iff_forall_notMem]
    rintro t ⟨kmsg, hk, -⟩
    obtain ⟨mr, ha⟩ := h.threads t
    simp [inHand, ha] at hk
  rw [hholders, (h.ports p).2.1]
  simp [accepted, received, h.log]

theorem enter_eq_some {t : Nat} {call : MqState → Option MqState} (h : enter t call s = some s')
    : (∃ mr, (s.threads t).activity = .returned mr) ∧ call s = some s' := by
  unfold enter at h
  split at h
  . next mr ha => exact ⟨⟨mr, ha⟩, h⟩
  . contradiction

theorem psetMove_of_some (h : MqInv start s noFlight) {port : Nat}
    (hmap : (ipcPsetMove port nset s).map Prod.snd = some s') : MqInv start s' noFlight ∧ RcvFrame s s' := by
  obtain ⟨⟨kr, s''⟩, hs, rfl⟩ := Option.map_eq_some_iff.mp hmap
  have hactive : (s.ports port).ipActive = true := by
    simp only [ipcPsetMove, assert_bind_eq_some] at hs
    exact hs.1
  by_cases hset : ∀ pset ∈ nset, s.ipsActive pset = true
  . obtain ⟨kr', s', heq, h', hf⟩ := ipcPsetMove_spec h nset hactive hset
    cases heq.symm.trans hs
    exact ⟨h', hf⟩
  . -- the port is in the dead set already
    push Not at hset
    obtain ⟨pset, rfl, hdead⟩ := hset
    simp only [ipcPsetMove, assert_bind_eq_some] at hs
    cases hpset : (s.ports port).ipPset with
    | none => simp [hpset, ipcPsetAdd, assert, hdead] at hs
    | some oset =>
      by_cases heq : oset = pset
      . simp only [hpset, if_pos heq] at hs
        cases hs.2
        exact ⟨h, RcvFrame.refl s⟩
      . simp [hpset, heq, assert, hdead] at hs

theorem mqStep_spec (h : MqInv start s noFlight) {op : MqOp} (hs : mqStep op s = some s')
    : MqInv start s' noFlight ∧ (MsgsCounted s → MsgsCounted s') ∧
      (op.harmless s → NoLostWakeup s → NoLostWakeup s') := by
  have hframe : ∀ {s' : MqState}, MqInv start s' noFlight → RcvFrame s s' →
      MqInv start s' noFlight ∧ (MsgsCounted s → MsgsCounted s') ∧ (op.harmless s → NoLostWakeup s → NoLostWakeup s') :=
    fun h' hf => ⟨h', hf.counted, fun _ hw => hw.frame hf⟩
  have hsettles : Settles start s s' →
      MqInv start s' noFlight ∧ (MsgsCounted s → MsgsCounted s') ∧ (op.harmless s → NoLostWakeup s → NoLostWakeup s') :=
    fun ⟨h', hc, hw⟩ => ⟨h', hc, fun _ => hw⟩
  cases op with
  | send t kmsg always timeOut =>
    obtain ⟨⟨mr, ht⟩, hcall⟩ := enter_eq_some hs
    exact hsettles (ipcMqueueSend_spec h ht hcall)
  | sendResume t reason => exact sendResume_spec h hs
  | receivePort t port maxSize timeOut =>
    obtain ⟨⟨mr, ht⟩, hcall⟩ := enter_eq_some hs
    exact hsettles (receiveFromPort_spec h ht hcall)
  | receivePset t pset maxSize timeOut =>
    obtain ⟨⟨mr, ht⟩, hcall⟩ := enter_eq_some hs
    exact hsettles (receiveFromPset_spec h ht hcall)
  | receiveResume t reason => exact hsettles (receiveResume_spec h hs)
  | receiveFinish t => exact hsettles (receiveFinish_spec h hs)
  | psetAdd pset port =>
    have ha := hs
    simp only [mqStep, ipcPsetAdd, assert_bind_eq_some] at ha
    obtain ⟨s'', heq, h', hf⟩ := ipcPsetAdd_spec h pset ha.1 ha.2.1 ha.2.2.1
    obtain rfl := Option.some.inj (heq.symm.trans hs)
    exact hframe h' hf
  | psetRemove pset port =>
    have ha := hs
    simp only [mqStep, ipcPsetRemove, assert_bind_eq_some] at ha
    obtain ⟨s'', heq, h', hf, -⟩ := ipcPsetRemove_spec h pset ha.1 ha.2.1
    obtain rfl := Option.some.inj (heq.symm.trans hs)
    exact hframe h' hf
  | psetMove port nset =>
    obtain ⟨h', hf⟩ := psetMove_of_some h hs
    exact hframe h' hf
  | psetDestroy pset =>
    have ha := hs
    simp only [mqStep, ipcPsetDestroy, assert_bind_eq_some] at ha
    obtain ⟨s'', heq, h', hf⟩ := ipcPsetDestroy_spec h pset ha.1
    obtain rfl := Option.some.inj (heq.symm.trans hs)
    exact hframe h' hf
  | setQlimit port qlimit => exact hsettles (ipcPortSetQlimit_spec h hs)
  | portDestroy port => exact hsettles (portDestroy_spec h hs)

theorem mqRun_inv (ops : List MqOp) (s : MqState) (h : MqInv start s noFlight)
    (hrun : mqRun ops s = some s') : MqInv start s' noFlight := by
  induction ops generalizing s with
  | nil =>
    obtain rfl := Option.some.inj hrun
    exact h
  | cons op ops ih =>
    obtain ⟨s1, hs1, hrun⟩ := Option.bind_eq_some_iff.mp hrun
    exact ih s1 (mqStep_spec h hs1).1 hrun

theorem mqRun_counted (ops : List MqOp) (s : MqState) (h : MqInv start s noFlight) (hc : MsgsCounted s)
    (hrun : mqRun ops s = some s') : MsgsCounted s' := by
  induction ops generalizing s with
  | nil =>
    obtain rfl := Option.some.inj hrun
    exact hc
  | cons op ops ih =>
    obtain ⟨s1, hs1, hrun⟩ := Option.bind_eq_some_iff.mp hrun
    obtain ⟨h1, hc1, -⟩ := mqStep_spec h hs1
    exact ih s1 h1 (hc1 hc) hrun

/-- No receiver ever finds the count of its port used up. -/
theorem mqRun_msgcount {s0 : MqState} (h0 : MqInit s0) (ops : List MqOp) (hrun : mqRun ops s0 = some s)
    : (∀ p, (s.ports p).ipActive = true →
        ((s.ports p).ipMsgcount : ℕ∞) = (s.queuedIn (s.home p) p).length + (s.holders p).encard) ∧
      ∀ t kmsg seqno, (s.threads t).activity = .finishing kmsg seqno → ∃ s', mqStep (.receiveFinish t) s = some s' := by
  have h := mqRun_inv ops s0 h0.inv hrun
  have hc := mqRun_counted ops s0 h0.inv h0.counted hrun
  exact ⟨fun _ hactive => hc.msgcount h hactive, fun _ _ _ ha => receiveFinish_eq_some h hc ha⟩

theorem mqRun_fifo (s0 : MqState) (h0 : MqInit s0) (ops : List MqOp) (s : MqState) (hrun : mqRun ops s0 = some s)
    : (∀ p, (s.ports p).ipActive = true → s.accepted p = (s.received p).map Prod.fst ++ s.queuedIn (s.home p) p ∧
        (∀ q, q ≠ s.home p → s.queuedIn q p = []) ∧
        (s.received p).map Prod.snd = seqnos (s0.ports p).ipSeqno (s.received p).length) ∧
      (∀ t, s.receivedBy t = s.pickedBy t ++ s.pending t) ∧
      ∀ q, (s.queues q).imqMessages = [] ∨ (s.queues q).imqThreads = [] := by
  have h := mqRun_inv ops s0 h0.inv hrun
  refine ⟨fun p hactive => ⟨?_, fun q hne => ?_, (h.seqno p hactive).1⟩, h.picked, h.excl⟩
  . have hf := h.fifo p hactive
    rwa [noFlight, List.append_nil] at hf
  . by_contra hq
    exact hne (h.home q p hactive hq)

def movedRun : List MqOp :=
  [.receivePort 1 0 4 none, .send 2 ⟨20, 0, 8, false, false⟩ false none,
    .send 3 ⟨21, 0, 4, false, false⟩ false none, .psetAdd 7 0, .receivePset 4 7 8 none,
    .receiveFinish 4, .psetDestroy 7, .receivePort 5 0 8 none]

theorem mqRun_fifo_moved : ∃ s, mqRun movedRun (mqFresh 2) = some s ∧
        s.received 0 = [(⟨20, 0, 8, false, false⟩, 0), (⟨21, 0, 4, false, false⟩, 1)] ∧
        s.accepted 0 = (s.received 0).map Prod.fst ++ s.queuedIn (s.home 0) 0 := by
  obtain ⟨s, hrun, hactive, hrec⟩ : ∃ s, mqRun movedRun (mqFresh 2) = some s ∧
      (s.ports 0).ipActive = true ∧
      s.received 0 = [(⟨20, 0, 8, false, false⟩, 0), (⟨21, 0, 4, false, false⟩, 1)] :=
    ⟨_, rfl, rfl, rfl⟩
  exact ⟨s, hrun, hrec, ((mqRun_fifo _ (mqFresh_init 2) _ s hrun).1 0 hactive).1⟩

theorem mqRun_wakeup (ops : List MqOp) (s : MqState) (h : MqInv start s noFlight)
    (hw : NoLostWakeup s) (hops : HarmlessRun ops s) (hrun : mqRun ops s = some s') : NoLostWakeup s' := by
  induction ops generalizing s with
  | nil =>
    obtain rfl := Option.some.inj hrun
    exact hw
  | cons op ops ih =>
    obtain ⟨s1, hs1, hrun⟩ := Option.bind_eq_some_iff.mp hrun
    obtain ⟨h1, -, hw1⟩ := mqStep_spec h hs1
    exact ih s1 h1 (hw1 hops.1 hw) (hops.2 s1 hs1) hrun

theorem mqRun_noLostWakeup (s0 : MqState) (h0 : MqInit s0) (ops : List MqOp)
    (hops : HarmlessRun ops s0) (s : MqState) (hrun : mqRun ops s0 = some s) : NoLostWakeup s :=
  mqRun_wakeup ops s0 h0.inv h0.noLostWakeup hops hrun

theorem HarmlessRun.cons {op : MqOp} (hop : op.harmless s)
    (hs : mqStep op s = some s1) (hops : HarmlessRun ops s1) : HarmlessRun (op :: ops) s := by
  refine ⟨hop, fun s' hs' => ?_⟩
  obtain rfl := Option.some.inj (hs.symm.trans hs')
  exact hops

def waitingRun (circular : Bool) : List MqOp :=
  [.send 1 ⟨20, 0, 4, false, false⟩ false none, .send 2 ⟨21, 0, 4, false, circular⟩ false none,
    .send 3 ⟨22, 0, 4, false, false⟩ false none, .receivePort 4 0 8 none, .receiveFinish 4,
    .sendResume 2 .timedOut]

theorem mqRun_noLostWakeup_waiting : ∃ s, mqRun (waitingRun false) (mqFresh 1) = some s ∧ NoLostWakeup s := by
  obtain ⟨s, hrun⟩ : ∃ s, mqRun (waitingRun false) (mqFresh 1) = some s := ⟨_, rfl⟩
  refine ⟨s, hrun, mqRun_noLostWakeup _ (mqFresh_init 1) _ ?_ s hrun⟩
  refine .cons trivial rfl (.cons trivial rfl (.cons trivial rfl (.cons trivial rfl (.cons trivial
    rfl (.cons ?_ rfl trivial)))))
  rintro ⟨-, kmsg, always, timeOut, ha, hc⟩
  cases ha
  cases hc

/--
The second sender goes on waiting at an empty queue.
-/
theorem mqRun_lostWakeup : ∃ s, MqInit (mqFresh 1) ∧ mqRun (waitingRun true) (mqFresh 1) = some s ∧
        (s.ports 0).ipMsgcount = 0 ∧ (s.ports 0).ipBlocked = [3] ∧ ¬ NoLostWakeup s := by
  obtain ⟨s, hrun, hport, hthreads⟩ : ∃ s, mqRun (waitingRun true) (mqFresh 1) = some s ∧
      s.ports 0 = { (mqFresh 1).ports 0 with ipSeqno := 1, ipBlocked := [3] } ∧
      ∀ t, (∃ mr, (s.threads t).activity = .returned mr) ∨ (s.threads t).ithState = .sendInProgress := by
    refine ⟨_, rfl, rfl, fun t => ?_⟩
    match t with
    | 0 => exact .inl ⟨_, rfl⟩
    | 1 => exact .inl ⟨_, rfl⟩
    | 2 => exact .inl ⟨_, rfl⟩
    | 3 => exact .inr rfl
    | 4 => exact .inl ⟨_, rfl⟩
    | t + 5 => exact .inl ⟨_, rfl⟩
  refine ⟨s, mqFresh_init 1, hrun, by rw [hport]; rfl, by rw [hport], fun h => ?_⟩
  have hwoken : s.woken 0 = ∅ := by
    rw [Set.eq_empty_iff_forall_notMem]
    rintro t ⟨⟨kmsg, always, timeOut, ha, -⟩, hs⟩
    rcases hthreads t with ⟨mr, hr⟩ | hp
    . rw [hr] at ha
      contradiction
    . rw [hp] at hs
      contradiction
  have h0 := h 0
  rw [hport, hwoken, Set.encard_empty] at h0
  exact absurd (h0 rfl (List.cons_ne_nil 3 [])) (by simp [mqFresh])

theorem mqRun_waits_once {s0 : MqState} (h0 : MqInit s0) (ops : List MqOp) (hrun : mqRun ops s0 = some s)
    : (∀ q, (s.queues q).imqThreads.Nodup) ∧ (∀ p, (s.ports p).ipBlocked.Nodup) ∧
      ∀ q, ∀ t ∈ (s.queues q).imqThreads, (∀ q', t ∈ (s.queues q').imqThreads → q' = q) ∧
        ∀ p, t ∉ (s.ports p).ipBlocked := by
  have h := mqRun_inv ops s0 h0.inv hrun
  refine ⟨h.nodup, h.blocked_nodup, fun q t ht => ⟨fun q' ht' => ?_, ?_⟩⟩
  . exact MqInv.eq_of_waits (h.waits q' t ht') (h.waits q t ht)
  . exact h.not_blocked_of_waits (h.waits q t ht)

theorem mqRun_waits_once_set : ∃ s, mqRun [.psetAdd 7 0, .receivePset 1 7 8 none] (mqFresh 1) = some s ∧
      1 ∈ (s.queues (.pset 7)).imqThreads ∧ ∀ p, 1 ∉ (s.ports p).ipBlocked := by
  obtain ⟨s, hrun, hmem⟩ : ∃ s, mqRun [.psetAdd 7 0, .receivePset 1 7 8 none] (mqFresh 1) = some s ∧
      1 ∈ (s.queues (.pset 7)).imqThreads := ⟨_, rfl, List.mem_singleton_self 1⟩
  exact ⟨s, hrun, hmem, ((mqRun_waits_once (mqFresh_init 1) _ hrun).2.2 _ 1 hmem).2⟩

end Ipc
