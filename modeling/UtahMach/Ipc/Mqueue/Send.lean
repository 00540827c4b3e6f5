import UtahMach.Ipc.Mqueue.Wakeup

/-!
This module contains what the steps of senders and receivers do to the invariant of message queues.
-/

namespace Ipc

open Function

open MqState

variable {start : Nat → Nat} {s : MqState}

theorem accepted_record (s : MqState) (kmsg : Msg) (p : Nat) : (s.record (.accepted kmsg)).accepted p =
    s.accepted p ++ if kmsg.msghRemotePort = p then [kmsg] else [] := by
  by_cases heq : kmsg.msghRemotePort = p
  . simp [accepted, MsgEvent.acceptedFor, heq]
  . simp [accepted, MsgEvent.acceptedFor, heq]

theorem received_record_accepted (s : MqState) (kmsg : Msg) (p : Nat)
    : (s.record (.accepted kmsg)).received p = s.received p := by
  simp [received, MsgEvent.receivedFor]

namespace MqInv

variable {flight : Nat → List Msg} {t : Nat}

theorem setPort (h : MqInv start s flight) (p : Nat) (port : MqPort)
    (ha : port.ipActive = (s.ports p).ipActive) (hset : port.ipPset = (s.ports p).ipPset)
    (hseq : port.ipSeqno = (s.ports p).ipSeqno)
    (hb : ∀ t ∈ port.ipBlocked, s.Sends t p ∧ (s.threads t).ithState = .sendInProgress)
    (hnodup : port.ipBlocked.Nodup) : MqInv start (s.setPort p port) flight := by
  have hactive : ∀ p', ((s.setPort p port).ports p').ipActive = (s.ports p').ipActive := by
    intro p'
    by_cases heq : p' = p
    . simp [heq, ha]
    . simp [heq]
  have hseqno : ∀ p', ((s.setPort p port).ports p').ipSeqno = (s.ports p').ipSeqno := by
    intro p'
    by_cases heq : p' = p
    . simp [heq, hseq]
    . simp [heq]
  have hhome : ∀ p', (s.setPort p port).home p' = s.home p' := by
    intro p'
    unfold MqState.home
    by_cases heq : p' = p
    . simp [heq, hset]
    . simp [heq]
  refine ⟨h.excl, h.waits, h.nodup, ?_, ?_, ?_, h.own, ?_, ?_, h.picked⟩
  . intro p' t ht
    by_cases heq : p' = p
    . subst heq
      rw [setPort_ports, update_self] at ht
      exact hb t ht
    . rw [setPort_ports, update_of_ne heq] at ht
      exact h.blocked p' t ht
  . intro p'
    by_cases heq : p' = p
    . subst heq
      rw [setPort_ports, update_self]
      exact hnodup
    . rw [setPort_ports, update_of_ne heq]
      exact h.blocked_nodup p'
  . intro q p' hp' hne
    rw [hactive] at hp'
    rw [hhome]
    exact h.home q p' hp' hne
  . intro p' hp'
    rw [hactive] at hp'
    rw [hhome]
    exact h.fifo p' hp'
  . intro p' hp'
    rw [hactive] at hp'
    rw [hseqno]
    exact h.seqno p' hp'

theorem recordOther (h : MqInv start s flight) {ev : MsgEvent}
    (ha : ∀ p, ev.acceptedFor p = none) (hr : ∀ p, ev.receivedFor p = none)
    (hb : ∀ t, ev.receivedBy t = none) (hp : ∀ t, ev.pickedBy t = none) : MqInv start (s.record ev) flight := by
  refine ⟨h.excl, h.waits, h.nodup, h.blocked, h.blocked_nodup, h.home, h.own, ?_, ?_, ?_⟩
  . intro p hactive
    have hf := h.fifo p hactive
    simp only [accepted, received, record_log, List.filterMap_append, List.filterMap_cons, ha, hr,
      List.filterMap_nil, List.append_nil]
    exact hf
  . intro p hactive
    have hs := h.seqno p hactive
    simp only [received, record_log, List.filterMap_append, List.filterMap_cons, hr,
      List.filterMap_nil, List.append_nil]
    exact hs
  . intro t
    have hpick := h.picked t
    simp only [receivedBy, pickedBy, record_log, List.filterMap_append, List.filterMap_cons, hb, hp,
      List.filterMap_nil, List.append_nil]
    exact hpick

theorem recordAccepted (h : MqInv start s noFlight) (kmsg : Msg) : MqInv start (s.record (.accepted kmsg))
        (update noFlight kmsg.msghRemotePort [kmsg]) := by
  refine ⟨h.excl, h.waits, h.nodup, h.blocked, h.blocked_nodup, h.home, h.own, ?_, ?_, ?_⟩
  . intro p hactive
    have hf := h.fifo p hactive
    rw [accepted_record, received_record_accepted, hf]
    by_cases heq : kmsg.msghRemotePort = p
    . subst heq
      simp [noFlight, queuedIn]
    . have hne : p ≠ kmsg.msghRemotePort := fun hc => heq hc.symm
      simp [noFlight, queuedIn, heq, hne]
  . intro p hactive
    rw [received_record_accepted]
    exact h.seqno p hactive
  . intro t
    have hb : (s.record (.accepted kmsg)).receivedBy t = s.receivedBy t := by
      simp [receivedBy, MsgEvent.receivedBy]
    have hp : (s.record (.accepted kmsg)).pickedBy t = s.pickedBy t := by
      simp [pickedBy, MsgEvent.pickedBy]
    rw [hb, hp]
    exact h.picked t

theorem not_queued (h : MqInv start s flight)
    (ht : ¬ s.Receives t) (q : QueueId) : t ∉ (s.queues q).imqThreads := fun hmem =>
  ht (h.waits q t hmem).receives

theorem pending_of_not_receives (ht : ¬ s.Receives t) : s.pending t = [] := by
  unfold pending
  split
  . next q maxSize timeOut ha _ => exact absurd ⟨q, maxSize, timeOut, ha⟩ ht
  . rfl

theorem setFree (h : MqInv start s flight) (hr : ¬ s.Receives t) (hb : ∀ p, t ∉ (s.ports p).ipBlocked)
    (hr' : ¬ (s.setThread t th).Receives t) : MqInv start (s.setThread t th) flight := by
  apply h.setThread (h.not_queued hr) hb
  rw [pending_of_not_receives hr, pending_of_not_receives hr']

theorem leave (h : MqInv start s flight) (mr : MsgReturn)
    (hr : ¬ s.Receives t) (hb : ∀ p, t ∉ (s.ports p).ipBlocked) : MqInv start (s.leave t mr) flight := by
  apply h.setFree hr hb
  rintro ⟨q, maxSize, timeOut, ha⟩
  simp at ha

end MqInv

namespace MsgsCounted

variable {t : Nat} (h : MsgsCounted s)
include h

theorem setThread (hhand : (s.setThread t th).inHand t = s.inHand t) : MsgsCounted (s.setThread t th) := by
  refine h.congr (fun _ hp => ⟨hp, rfl⟩) (fun _ => rfl) (fun _ => rfl) fun t' => ?_
  by_cases heq : t' = t
  . rw [heq, hhand]
  . exact inHand_eq (update_of_ne heq _ _)

theorem leave (hnone : s.inHand t = none) (mr : MsgReturn) : MsgsCounted (s.leave t mr) := by
  apply h.setThread
  rw [hnone]
  simp [inHand]

theorem setPort (p : Nat) (port : MqPort) (ha : port.ipActive = true → (s.ports p).ipActive = true)
    (hm : port.ipMsgcount = (s.ports p).ipMsgcount) : MsgsCounted (s.setPort p port) := by
  refine h.congr (fun p' hp' => ?_) (fun _ => rfl) (fun _ => rfl) fun _ => rfl
  by_cases heq : p' = p
  . subst heq
    rw [setPort_ports, update_self] at hp' ⊢
    exact ⟨ha hp', hm⟩
  . rw [setPort_ports, update_of_ne heq] at hp' ⊢
    exact ⟨hp', rfl⟩

theorem setQueue (q : QueueId) (mqueue : Mqueue) : MsgsCounted (s.setQueue q mqueue) :=
  h.congr (fun _ hp => ⟨hp, rfl⟩) (fun _ => rfl) (fun _ => rfl) fun _ => rfl

theorem recordOther {ev : MsgEvent} (ha : ∀ p, ev.acceptedFor p = none) (hr : ∀ p, ev.receivedFor p = none)
    : MsgsCounted (s.record ev) := by
  refine h.congr (fun _ hp => ⟨hp, rfl⟩) (fun p => ?_) (fun p => ?_) fun _ => rfl
  . simp [accepted, ha]
  . simp [received, hr]

theorem accept (kmsg : Msg) : MsgsCounted ((s.setPort kmsg.msghRemotePort { s.ports kmsg.msghRemotePort with
    ipMsgcount := (s.ports kmsg.msghRemotePort).ipMsgcount + 1 }).record (.accepted kmsg)) := by
  intro p hactive
  rw [record_ports, setPort_ports] at hactive ⊢
  change (_ : ℕ∞) + ((s.record (.accepted kmsg)).received p).length =
    ((s.record (.accepted kmsg)).accepted p).length + (s.holders p).encard
  rw [accepted_record, received_record_accepted]
  by_cases heq : p = kmsg.msghRemotePort
  . subst heq
    rw [update_self] at hactive ⊢
    have hold := h _ hactive
    rw [if_pos rfl, List.length_append, List.length_singleton, Nat.cast_add, Nat.cast_add,
      Nat.cast_one, add_right_comm, hold, add_right_comm]
  . rw [update_of_ne heq] at hactive ⊢
    rw [if_neg (Ne.symm heq), List.append_nil]
    exact h p hactive

end MsgsCounted

structure OwnStep (t : Nat) (s s' : MqState) : Prop where
  activity : ∀ t', t' ≠ t → (s'.threads t').activity = (s.threads t').activity
  others : ∀ t', t' ≠ t → ¬ s.Receives t' → s'.threads t' = s.threads t'

namespace OwnStep

variable {s s' s'' : MqState} {t : Nat}

theorem of_eq (h : ∀ t', t' ≠ t → s'.threads t' = s.threads t') : OwnStep t s s' :=
  ⟨fun t' hne => by rw [h t' hne], fun t' hne _ => h t' hne⟩

theorem of_frame (h : RcvFrame s s') : OwnStep t s s' := ⟨fun t' _ => h.activity t', fun t' _ => h.others t'⟩

theorem trans (h : OwnStep t s s') (h' : OwnStep t s' s'') : OwnStep t s s'' := by
  refine ⟨fun t' hne => (h'.activity t' hne).trans (h.activity t' hne), fun t' hne hr => ?_⟩
  have hr' : ¬ s'.Receives t' := by
    rintro ⟨q, maxSize, timeOut, ha⟩
    rw [h.activity t' hne] at ha
    exact hr ⟨q, maxSize, timeOut, ha⟩
  rw [h'.others t' hne hr', h.others t' hne hr]

theorem leave (s : MqState) (t : Nat) (mr : MsgReturn) : OwnStep t s (s.leave t mr) := by
  apply of_eq
  intro t' hne
  simp [MqState.leave, update_of_ne hne]

theorem woken (h : OwnStep t s s') (p : Nat) : s.woken p \ {t} ⊆ s'.woken p := by
  rintro t' ⟨⟨hs, hstate⟩, hne⟩
  have heq := h.others t' hne (Sends.not_receives hs)
  unfold MqState.woken
  rw [Set.mem_ofPred_eq]
  unfold Sends
  rw [heq]
  exact ⟨hs, hstate⟩

end OwnStep

theorem NoLostWakeup.ownStep {s s' : MqState} (h : NoLostWakeup s) {t : Nat} (port : Nat)
    (hown : OwnStep t s s') (ht : ∀ p, p ≠ port → t ∉ s.woken p)
    (hports : ∀ p, p ≠ port → SameSenders (s.ports p) (s'.ports p))
    (hport : (s'.ports port).ipActive = true → (s'.ports port).ipBlocked ≠ [] →
      ((s'.ports port).ipQlimit : ℕ∞) ≤ (s'.ports port).ipMsgcount + (s'.woken port).encard) : NoLostWakeup s' := by
  intro p hactive hne
  by_cases heq : p = port
  . subst heq
    exact hport hactive hne
  . obtain ⟨ha, hb, hq, hm⟩ := hports p heq
    rw [ha] at hactive
    rw [hb] at hne
    rw [hq, hm]
    have hsub : s.woken p ⊆ s'.woken p := by
      have hw := hown.woken p
      rwa [Set.sdiff_singleton_eq_self (ht p heq)] at hw
    exact (h p hactive hne).trans (add_le_add_right (Set.encard_le_encard hsub) _)

section Send

structure ReadyToSend (s : MqState) (t : Nat) (kmsg : Msg) : Prop where
  receives : ¬ s.Receives t
  blocked : ∀ p, t ∉ (s.ports p).ipBlocked
  sends : ∀ p, s.Sends t p → p = kmsg.msghRemotePort
  inHand : s.inHand t = none

theorem ReadyToSend.not_woken (hr : ReadyToSend s t kmsg) {p : Nat} (hne : p ≠ kmsg.msghRemotePort)
    : t ∉ s.woken p := fun hw => hne (hr.sends p hw.1)

theorem SameSenders.refl (port : MqPort) : SameSenders port port := ⟨rfl, rfl, rfl, rfl⟩

theorem leave_spec (h : MqInv start s' noFlight) (hr : ReadyToSend s t kmsg)
    (hs : s'.threads = s.threads ∧ s'.ports = s.ports) (mr : MsgReturn)
    : MqInv start (s'.leave t mr) noFlight ∧ (NoLostWakeup s →
        (t ∈ s.woken kmsg.msghRemotePort → (s.ports kmsg.msghRemotePort).ipActive = true →
          (s.ports kmsg.msghRemotePort).ipQlimit ≤ (s.ports kmsg.msghRemotePort).ipMsgcount) →
        NoLostWakeup (s'.leave t mr)) := by
  have hown : OwnStep t s (s'.leave t mr) := (OwnStep.of_eq fun t' _ => by rw [hs.1]).trans (OwnStep.leave s' t mr)
  have hports : (s'.leave t mr).ports = s.ports := hs.2
  constructor
  . apply h.leave mr
    . unfold Receives
      rw [hs.1]
      exact hr.receives
    . rw [hs.2]
      exact hr.blocked
  . intro hw hfull
    refine hw.ownStep kmsg.msghRemotePort hown (fun p => hr.not_woken) ?_ ?_
    . intro p _
      rw [hports]
      exact SameSenders.refl _
    . rw [hports]
      intro hactive hne
      by_cases hmem : t ∈ s.woken kmsg.msghRemotePort
      . have hle : ((s.ports kmsg.msghRemotePort).ipQlimit : ℕ∞) ≤
            (s.ports kmsg.msghRemotePort).ipMsgcount := by
          exact_mod_cast hfull hmem hactive
        exact hle.trans le_self_add
      . have hsub := hown.woken kmsg.msghRemotePort
        rw [Set.sdiff_singleton_eq_self hmem] at hsub
        exact (hw _ hactive hne).trans (add_le_add_right (Set.encard_le_encard hsub) _)

section

variable (h : MqInv start s noFlight)
include h

theorem accept_spec (hr : ReadyToSend s t kmsg) (hs1 : s1 = s.setPort kmsg.msghRemotePort
      { s.ports kmsg.msghRemotePort with ipMsgcount := (s.ports kmsg.msghRemotePort).ipMsgcount + 1 })
    : ∃ s', deliver (s1.record (.accepted kmsg)) (s1.home kmsg.msghRemotePort) kmsg = some s' ∧
        Settles start s (s'.leave t .success) := by
  have h1 : MqInv start s1 noFlight := by
    rw [hs1]
    exact h.setPort _ _ rfl rfl rfl (h.blocked _) (h.blocked_nodup _)
  have hports : ∀ p, p ≠ kmsg.msghRemotePort → s1.ports p = s.ports p := by
    intro p hne
    rw [hs1, setPort_ports, update_of_ne hne]
  have hport : s1.ports kmsg.msghRemotePort = { s.ports kmsg.msghRemotePort with
      ipMsgcount := (s.ports kmsg.msghRemotePort).ipMsgcount + 1 } := by
    rw [hs1, setPort_ports, update_self]
  have hthreads : s1.threads = s.threads := by rw [hs1, setPort_threads]
  obtain ⟨s2, heq, h2, hd, -⟩ := deliver_spec rfl (h1.recordAccepted kmsg)
  rw [update_noFlight] at h2
  have hframe := RcvFrame.of_delivery hd
  have hr2 : ¬ s2.Receives t := by
    rw [hframe.receives]
    unfold Receives
    rw [record_threads, hthreads]
    exact hr.receives
  have hblocked : ∀ p, (s2.ports p).ipBlocked = (s.ports p).ipBlocked := by
    intro p
    rw [hframe.ports p, record_ports]
    by_cases hp : p = kmsg.msghRemotePort
    . rw [hp, hport]
    . rw [hports p hp]
  refine ⟨s2, heq, h2.leave .success hr2 fun p => by rw [hblocked]; exact hr.blocked p, fun hc => ?_, ?_⟩
  . have hreceives : ¬ (s1.record (.accepted kmsg)).Receives t := by
      rwa [← hframe.receives]
    have hhand : s2.inHand t = s.inHand t := inHand_eq ((hframe.others t hreceives).trans (congrFun hthreads t))
    exact (hframe.counted (hs1 ▸ hc.accept kmsg)).leave (hhand.trans hr.inHand) .success
  intro hw
  have hown : OwnStep t s (s2.leave t .success) :=
    ((OwnStep.of_eq fun t' _ => by rw [record_threads, hthreads]).trans (OwnStep.of_frame hframe)).trans
      (OwnStep.leave s2 t .success)
  have hleave : (s2.leave t .success).ports = s2.ports := rfl
  refine hw.ownStep kmsg.msghRemotePort hown (fun p => hr.not_woken) ?_ ?_
  . intro p hp
    rw [hleave, hframe.ports p, record_ports, hports p hp]
    exact SameSenders.refl _
  . rw [hleave, hframe.ports kmsg.msghRemotePort, record_ports, hport]
    intro hactive hne
    have hone := Set.encard_le_encard_sdiff_add_encard (s.woken kmsg.msghRemotePort) {t}
    rw [Set.encard_singleton] at hone
    calc ((s.ports kmsg.msghRemotePort).ipQlimit : ℕ∞)
      _ ≤ (s.ports kmsg.msghRemotePort).ipMsgcount + (s.woken kmsg.msghRemotePort).encard := hw _ hactive hne
      _ ≤ (s.ports kmsg.msghRemotePort).ipMsgcount +
          ((s.woken kmsg.msghRemotePort \ {t}).encard + 1) :=
        add_le_add_right hone _
      _ ≤ (s.ports kmsg.msghRemotePort).ipMsgcount +
          (((s2.leave t .success).woken kmsg.msghRemotePort).encard + 1) :=
        add_le_add_right (add_le_add_left (Set.encard_le_encard (hown.woken _)) _) _
      _ = ((s.ports kmsg.msghRemotePort).ipMsgcount + 1 : ℕ) +
          ((s2.leave t .success).woken kmsg.msghRemotePort).encard := by
        rw [add_comm _ (1 : ℕ∞), ← add_assoc, Nat.cast_add, Nat.cast_one]

theorem MqInv.block (hr : ReadyToSend s t kmsg) (always : Bool) (timeOut : Option Nat)
    : MqInv start ((s.setPort kmsg.msghRemotePort { s.ports kmsg.msghRemotePort with
          ipBlocked := (s.ports kmsg.msghRemotePort).ipBlocked ++ [t] }).setThread t { s.threads t with
          activity := .sending kmsg always timeOut, ithState := .sendInProgress }) noFlight := by
  -- the thread first, since its place in the list depends on what it does
  have h1 : MqInv start (s.setThread t
      { s.threads t with
        activity := .sending kmsg always timeOut, ithState := .sendInProgress }) noFlight := by
    apply h.setFree hr.receives hr.blocked
    rintro ⟨q, maxSize, timeOut', ha⟩
    simp at ha
  refine h1.setPort kmsg.msghRemotePort _ rfl rfl rfl ?_ ?_
  . intro t' ht'
    rw [List.mem_append, List.mem_singleton] at ht'
    rcases ht' with hmem | rfl
    . exact h1.blocked _ t' hmem
    . refine ⟨⟨kmsg, always, timeOut, ?_, rfl⟩, ?_⟩
      . simp
      . simp
  . rw [List.nodup_append]
    refine ⟨h.blocked_nodup _, by simp, ?_⟩
    intro a ha b hb
    rw [List.mem_singleton] at hb
    subst hb
    exact fun heq => hr.blocked _ (heq ▸ ha)

theorem sendPass_spec (hr : ReadyToSend s t kmsg) (always : Bool) (timeOut : Option Nat)
    : ∃ s', sendPass t kmsg always timeOut s = some s' ∧ MqInv start s' noFlight ∧ (MsgsCounted s → MsgsCounted s') ∧
        (¬ (kmsg.circular = true ∧ t ∈ s.woken kmsg.msghRemotePort) → NoLostWakeup s → NoLostWakeup s') := by
  have hdestroyed : MqInv start (s.record (.destroyed kmsg)) noFlight :=
    h.recordOther (fun _ => rfl) (fun _ => rfl) (fun _ => rfl) (fun _ => rfl)
  have hdropped : MsgsCounted s → MsgsCounted ((s.record (.destroyed kmsg)).leave t .success) := fun hc =>
    (hc.recordOther (fun _ => rfl) fun _ => rfl).leave hr.inHand _
  unfold sendPass
  by_cases hactive : (s.ports kmsg.msghRemotePort).ipActive = false
  . have hl := leave_spec hdestroyed hr ⟨rfl, rfl⟩ .success
    refine ⟨_, if_pos hactive, hl.1, hdropped, fun _ hw => hl.2 hw fun _ ha => ?_⟩
    rw [hactive] at ha
    contradiction
  by_cases hroom : (s.ports kmsg.msghRemotePort).ipMsgcount <
      (s.ports kmsg.msghRemotePort).ipQlimit ∨ always = true ∨ kmsg.sendOnce = true
  . simp only [if_neg hactive, if_pos hroom]
    unfold sendAccept
    by_cases hc : kmsg.circular = true
    . have hl := leave_spec hdestroyed hr ⟨rfl, rfl⟩ .success
      refine ⟨_, if_pos hc, hl.1, hdropped, fun hn hw => hl.2 hw fun hm => ?_⟩
      exact absurd ⟨hc, hm⟩ hn
    . obtain ⟨s', heq, h', hc', hw'⟩ := accept_spec h hr rfl
      refine ⟨s'.leave t .success, ?_, h', hc', fun _ => hw'⟩
      simp only [if_neg hc]
      exact congrArg (· >>= fun s' => some (MqState.leave s' t .success)) heq
  . have hfull : (s.ports kmsg.msghRemotePort).ipQlimit ≤
        (s.ports kmsg.msghRemotePort).ipMsgcount := by
      by_contra hlt
      exact hroom (.inl (not_le.mp hlt))
    simp only [if_neg hactive, if_neg hroom]
    by_cases htime : timeOut = some 0
    . have hl := leave_spec h hr ⟨rfl, rfl⟩ .sendTimedOut
      exact ⟨_, if_pos htime, hl.1, fun hc => hc.leave hr.inHand _, fun _ hw => hl.2 hw fun _ _ => hfull⟩
    . refine ⟨_, if_neg htime, ?_, fun hc => ?_, fun _ hw => ?_⟩
      . exact h.block hr always timeOut
      . have hnone : (s.setPort kmsg.msghRemotePort { s.ports kmsg.msghRemotePort with
            ipBlocked := (s.ports kmsg.msghRemotePort).ipBlocked ++ [t] }).inHand t = none := hr.inHand
        refine (hc.setPort _ _ ?_ ?_).setThread ?_
        . exact id
        . rfl
        . rw [hnone]
          simp [inHand]
      . refine hw.ownStep (t := t) kmsg.msghRemotePort (OwnStep.of_eq ?_) (fun p => hr.not_woken)
          ?_ ?_
        . intro t' hne
          rw [setThread_threads, update_of_ne hne, setPort_threads]
        . intro p hne
          rw [setThread_ports, setPort_ports, update_of_ne hne]
          exact SameSenders.refl _
        . intro _ _
          rw [setThread_ports, setPort_ports, update_self]
          have hle : ((s.ports kmsg.msghRemotePort).ipQlimit : ℕ∞) ≤
              (s.ports kmsg.msghRemotePort).ipMsgcount := by
            exact_mod_cast hfull
          exact hle.trans le_self_add

theorem ready_of_returned (ht : (s.threads t).activity = .returned mr) (kmsg : Msg) : ReadyToSend s t kmsg := by
  have hsends : ∀ p, ¬ s.Sends t p := by
    rintro p ⟨kmsg', always, timeOut, ha, -⟩
    rw [ht] at ha
    contradiction
  refine ⟨?_, fun p hmem => hsends p (h.blocked p t hmem).1, fun p hs => absurd hs (hsends p), ?_⟩
  . rintro ⟨q, maxSize, timeOut, ha⟩
    rw [ht] at ha
    contradiction
  . simp [inHand, ht]

theorem ipcMqueueSend_spec (ht : (s.threads t).activity = .returned mr)
    (hs : ipcMqueueSend t kmsg always timeOut s = some s')
    : Settles start s s' := by
  have hr := ready_of_returned h ht kmsg
  have hwoken : ∀ p, t ∉ s.woken p := by
    rintro p ⟨⟨kmsg', always, timeOut, ha, -⟩, -⟩
    rw [ht] at ha
    contradiction
  unfold ipcMqueueSend at hs
  by_cases hk : (s.ports kmsg.msghRemotePort).kernel = true
  . simp only [if_pos hk] at hs
    obtain ⟨ha, hs⟩ := assert_bind_eq_some.1 hs
    obtain rfl := Option.some.inj hs
    have hserved : MqInv start (s.record (.served kmsg)) noFlight :=
      h.recordOther (fun _ => rfl) (fun _ => rfl) (fun _ => rfl) (fun _ => rfl)
    have hl := leave_spec hserved hr ⟨rfl, rfl⟩ .success
    exact ⟨hl.1, fun hc => (hc.recordOther (fun _ => rfl) fun _ => rfl).leave hr.inHand _,
      fun hw => hl.2 hw fun hm => absurd hm (hwoken _)⟩
  . simp only [if_neg hk] at hs
    obtain ⟨s'', heq, h', hc', hw'⟩ := sendPass_spec h hr always timeOut
    rw [heq] at hs
    obtain rfl := Option.some.inj hs
    exact ⟨h', hc', hw' fun hc => hwoken _ hc.2⟩

theorem MqInv.unblock (t p : Nat) : MqInv start (s.setPort p
        { s.ports p with ipBlocked := (s.ports p).ipBlocked.erase t }) noFlight :=
  h.setPort p _ rfl rfl rfl (fun t' ht' => h.blocked p t' (List.mem_of_mem_erase ht'))
    ((h.blocked_nodup p).erase t)

end

theorem NoLostWakeup.unblock (h : NoLostWakeup s) (t p : Nat) : NoLostWakeup (s.setPort p
        { s.ports p with ipBlocked := (s.ports p).ipBlocked.erase t }) := by
  intro p' hactive hne
  by_cases heq : p' = p
  . subst heq
    rw [setPort_ports, update_self] at hactive hne ⊢
    refine h p' hactive fun hnil => hne ?_
    rw [hnil, List.erase_nil]
  . rw [setPort_ports, update_of_ne heq] at hactive hne ⊢
    exact h p' hactive hne

def MqState.wokenCircular (s : MqState) (t : Nat) : Prop :=
  (s.threads t).ithState = .success ∧
    ∃ kmsg always timeOut, (s.threads t).activity = .sending kmsg always timeOut ∧
      kmsg.circular = true

theorem sendResume_spec (h : MqInv start s noFlight)
    (hs : sendResume t reason s = some s') : MqInv start s' noFlight ∧ (MsgsCounted s → MsgsCounted s') ∧
        (¬ s.wokenCircular t → NoLostWakeup s → NoLostWakeup s') := by
  unfold sendResume at hs
  cases ha : (s.threads t).activity with
  | returned | receiving | finishing => simp [ha] at hs
  | sending kmsg always timeOut =>
    have hreceives : ¬ s.Receives t := by
      rintro ⟨q, maxSize, timeOut', ha'⟩
      rw [ha] at ha'
      contradiction
    have hsends : ∀ p, s.Sends t p → p = kmsg.msghRemotePort := by
      rintro p ⟨kmsg', always', timeOut', ha', hp⟩
      rw [ha] at ha'
      cases ha'
      exact hp.symm
    have hhand : s.inHand t = none := by simp [inHand, ha]
    simp only [ha] at hs
    by_cases hstate : (s.threads t).ithState = .success
    . have hr : ReadyToSend s t kmsg := by
        refine ⟨hreceives, fun p hmem => ?_, hsends, hhand⟩
        have hin := (h.blocked p t hmem).2
        rw [hstate] at hin
        contradiction
      simp only [if_pos hstate] at hs
      obtain ⟨s'', heq, h', hc', hw'⟩ := sendPass_spec h hr always timeOut
      rw [heq] at hs
      obtain rfl := Option.some.inj hs
      exact ⟨h', hc', fun hn => hw' fun hc => hn ⟨hstate, kmsg, always, timeOut, ha, hc.1⟩⟩
    . simp only [if_neg hstate] at hs
      obtain ⟨hin, hs⟩ := assert_bind_eq_some.1 hs
      have h1 := h.unblock t kmsg.msghRemotePort
      have hc1 : MsgsCounted s → MsgsCounted (s.setPort kmsg.msghRemotePort { s.ports kmsg.msghRemotePort with
          ipBlocked := (s.ports kmsg.msghRemotePort).ipBlocked.erase t }) := fun hc => hc.setPort _ _ id rfl
      have hw1 := fun hw : NoLostWakeup s => hw.unblock t kmsg.msghRemotePort
      have hr : ReadyToSend (s.setPort kmsg.msghRemotePort
          { s.ports kmsg.msghRemotePort with
            ipBlocked := (s.ports kmsg.msghRemotePort).ipBlocked.erase t }) t kmsg := by
        refine ⟨hreceives, fun p hmem => ?_, hsends, hhand⟩
        by_cases heq : p = kmsg.msghRemotePort
        . subst heq
          rw [setPort_ports, update_self] at hmem
          exact (h.blocked_nodup _).not_mem_erase hmem
        . rw [setPort_ports, update_of_ne heq] at hmem
          exact heq (hsends p (h.blocked p t hmem).1)
      have hnot : ∀ p, t ∉ (s.setPort kmsg.msghRemotePort
          { s.ports kmsg.msghRemotePort with
            ipBlocked := (s.ports kmsg.msghRemotePort).ipBlocked.erase t }).woken p :=
        fun p hm => hstate hm.2
      cases reason with
      | interrupted =>
        obtain rfl := Option.some.inj hs
        have hl := leave_spec h1 hr ⟨rfl, rfl⟩ .sendInterrupted
        exact ⟨hl.1, fun hc => (hc1 hc).leave hhand _, fun _ hw => hl.2 (hw1 hw) fun hm => absurd hm (hnot _)⟩
      | timedOut =>
        obtain ⟨htime, hs⟩ := assert_bind_eq_some.1 hs
        obtain ⟨s'', heq, h', hc', hw'⟩ := sendPass_spec h1 hr always (some 0)
        obtain rfl := Option.some.inj (heq.symm.trans hs)
        exact ⟨h', hc' ∘ hc1, fun _ hw => hw' (fun hc => hnot _ hc.2) (hw1 hw)⟩

end Send

end Ipc
