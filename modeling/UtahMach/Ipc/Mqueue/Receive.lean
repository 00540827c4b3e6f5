import UtahMach.Ipc.Mqueue.Send

/-!
This module contains what receivers do to the invariant of message queues, and the functions that
wake senders up.
-/

namespace Ipc

open Option (some)

open MqState
open Function (update update_of_ne update_self)

variable {start : Nat → Nat} {s : MqState} {t : Nat}

structure Idle (s : MqState) (t : Nat) : Prop where
  queued : ∀ q, t ∉ (s.queues q).imqThreads
  blocked : ∀ p, t ∉ (s.ports p).ipBlocked
  pending : s.pending t = []
  sends : ∀ p, ¬ s.Sends t p
  inHand : s.inHand t = none

theorem Idle.of_not_receives (h : MqInv start s noFlight) (hr : ¬ s.Receives t) (hs : ∀ p, ¬ s.Sends t p)
    (hhand : s.inHand t = none) : Idle s t :=
  ⟨h.not_queued hr, fun p hmem => hs p (h.blocked p t hmem).1, MqInv.pending_of_not_receives hr, hs, hhand⟩

theorem Idle.of_returned (h : MqInv start s noFlight) (ht : (s.threads t).activity = .returned mr) : Idle s t := by
  apply Idle.of_not_receives h
  . rintro ⟨q, maxSize, timeOut, ha⟩
    rw [ht] at ha
    contradiction
  . rintro p ⟨kmsg, always, timeOut, ha, -⟩
    rw [ht] at ha
    contradiction
  . simp [MqState.inHand, ht]

theorem Idle.not_woken (hi : Idle s t) (p : Nat) : t ∉ s.woken p := fun hw => hi.sends p hw.1

theorem NoLostWakeup.idleStep (h : NoLostWakeup s) (hi : ∀ p, t ∉ s.woken p)
    (hown : OwnStep t s s') (hports : ∀ p, SameSenders (s.ports p) (s'.ports p)) : NoLostWakeup s' := by
  refine h.ownStep 0 hown (fun p _ => hi p) (fun p _ => hports p) ?_
  obtain ⟨ha, hb, hq, hm⟩ := hports 0
  rw [ha, hb, hq, hm]
  intro hactive hne
  have hw := hown.woken 0
  rw [Set.sdiff_singleton_eq_self (hi 0)] at hw
  exact (h 0 hactive hne).trans (add_le_add_right (Set.encard_le_encard hw) _)

theorem MqInv.leaveIdle (h : MqInv start s noFlight) (hi : Idle s t) (mr : MsgReturn)
    : MqInv start (s.leave t mr) noFlight := by
  apply h.setThread hi.queued hi.blocked
  rw [hi.pending]
  simp [MqState.pending]

section Take

def MqState.take (s : MqState) (t : Nat) (q : QueueId) (kmsg : Msg) (rest : List Msg) : MqState :=
  let p := s.ports kmsg.msghRemotePort
  let s := s.setQueue q { s.queues q with imqMessages := rest }
  let s := s.setPort kmsg.msghRemotePort { p with ipSeqno := (p.ipSeqno + 1) % 2 ^ 32 }
  let s := s.record (.received kmsg p.ipSeqno t)
  let s := s.record (.picked kmsg p.ipSeqno t)
  s.setThread t { s.threads t with activity := .finishing kmsg p.ipSeqno }

theorem take_ports (p : Nat) : (s.take t q kmsg rest).ports p =
    { s.ports p with ipSeqno := ((s.take t q kmsg rest).ports p).ipSeqno } := by
  unfold MqState.take
  by_cases heq : p = kmsg.msghRemotePort
  . subst heq
    simp
  . simp [update_of_ne heq]

theorem take_queuedIn (hq : (s.queues q).imqMessages = kmsg :: rest) (q' : QueueId) (p : Nat) : s.queuedIn q' p =
        (if q' = q ∧ kmsg.msghRemotePort = p then [kmsg] else []) ++ (s.take t q kmsg rest).queuedIn q' p := by
  unfold queuedIn MqState.take
  by_cases heq : q' = q
  . subst heq
    by_cases hp : kmsg.msghRemotePort = p
    . simp [hq, hp]
    . simp [hq, hp]
  . simp [heq]

theorem take_received (p : Nat) : (s.take t q kmsg rest).received p = s.received p ++
    if kmsg.msghRemotePort = p then [(kmsg, (s.ports p).ipSeqno)] else [] := by
  by_cases heq : kmsg.msghRemotePort = p
  . subst heq
    simp [MqState.take, received, MsgEvent.receivedFor]
  . simp [MqState.take, received, MsgEvent.receivedFor, heq]

theorem MqInv.take (h : MqInv start s noFlight) (hi : Idle s t) (hq : (s.queues q).imqMessages = kmsg :: rest)
    : MqInv start (s.take t q kmsg rest) noFlight := by
  have hactive : ∀ p, ((s.take t q kmsg rest).ports p).ipActive = (s.ports p).ipActive := fun p => by rw [take_ports]
  have hblocked : ∀ p, ((s.take t q kmsg rest).ports p).ipBlocked = (s.ports p).ipBlocked := fun p => by rw [take_ports]
  have hhome : ∀ p, (s.take t q kmsg rest).home p = s.home p := by
    intro p
    unfold MqState.home
    rw [take_ports]
  have hother : ∀ t', t' ≠ t → (s.take t q kmsg rest).threads t' = s.threads t' := fun t' hne => update_of_ne hne _ _
  have hthreads : ∀ q', ((s.take t q kmsg rest).queues q').imqThreads =
      (s.queues q').imqThreads := by
    intro q'
    unfold MqState.take
    by_cases heq : q' = q
    . simp [heq]
    . simp [update_of_ne heq]
  have hsub : ∀ q', ((s.take t q kmsg rest).queues q').imqMessages.Sublist
      (s.queues q').imqMessages := by
    intro q'
    unfold MqState.take
    by_cases heq : q' = q
    . subst heq
      simp [hq]
    . simp [update_of_ne heq]
  have hqueued := take_queuedIn (t := t) hq
  refine h.shrink (fun q' => hthreads q' ▸ .refl _) hsub hblocked (fun p => hactive p ▸ id) (fun _ p _ _ => hhome p)
    (fun q' t' ht' => hother t' fun heq => hi.queued q' (heq ▸ ht'))
    (fun p t' ht' => hother t' fun heq => hi.blocked p (heq ▸ ht')) ?_ ?_ ?_
  . intro p hp
    rw [hactive] at hp
    have hacc : (s.take t q kmsg rest).accepted p = s.accepted p := by
      simp [MqState.take, accepted, MsgEvent.acceptedFor]
    rw [hacc, h.fifo p hp, take_received, hhome, hqueued (s.home p) p]
    by_cases heq : kmsg.msghRemotePort = p
    . have hin : q = s.home p := by
        apply h.home q p hp
        rw [hqueued q p, if_pos ⟨rfl, heq⟩]
        simp
      simp [heq, hin]
    . simp [heq]
  . intro p hp
    rw [hactive] at hp
    apply h.seqno_received hp (take_received p)
    by_cases heq : kmsg.msghRemotePort = p
    . subst heq
      simp [MqState.take]
    . simp [MqState.take, update_of_ne (Ne.symm heq), heq]
  . intro t'
    have hold := h.picked t'
    by_cases heq : t' = t
    . subst heq
      rw [hi.pending, List.append_nil] at hold
      have hgiven : (s.take t' q kmsg rest).receivedBy t' =
          s.receivedBy t' ++ [(kmsg, (s.ports kmsg.msghRemotePort).ipSeqno)] := by
        simp [MqState.take, receivedBy, MsgEvent.receivedBy]
      have hpick : (s.take t' q kmsg rest).pickedBy t' =
          s.pickedBy t' ++ [(kmsg, (s.ports kmsg.msghRemotePort).ipSeqno)] := by
        simp [MqState.take, pickedBy, List.filterMap_cons, MsgEvent.pickedBy]
      have hpend : (s.take t' q kmsg rest).pending t' = [] := by
        simp [MqState.take, MqState.pending]
      rw [hgiven, hpick, hpend, hold, List.append_nil]
    . have hgiven : (s.take t q kmsg rest).receivedBy t' = s.receivedBy t' := by
        simp [MqState.take, receivedBy, MsgEvent.receivedBy, Ne.symm heq]
      have hpick : (s.take t q kmsg rest).pickedBy t' = s.pickedBy t' := by
        simp [MqState.take, pickedBy, MsgEvent.pickedBy, Ne.symm heq]
      have hpend : (s.take t q kmsg rest).pending t' = s.pending t' := by
        unfold MqState.pending
        rw [hother t' heq]
      rw [hgiven, hpick, hpend, hold]

theorem MsgsCounted.taken (h : MsgsCounted s) (hi : Idle s t) : MsgsCounted (s.take t q kmsg rest) := by
  refine h.take (fun p hp => ?_) (fun p => ?_) t kmsg (fun p => ⟨_, take_received p⟩) hi.inHand ?_ fun t' hne => ?_
  . rw [take_ports] at hp ⊢
    exact ⟨hp, rfl⟩
  . simp [MqState.take, accepted, MsgEvent.acceptedFor]
  . simp [MqState.take, MqState.inHand]
  . exact inHand_eq (update_of_ne hne _ _)

end Take

theorem MqInv.await (h : MqInv start s noFlight) (hi : Idle s t)
    (hq : (s.queues q).imqMessages = []) (maxSize : Nat) (timeOut : Option Nat) : MqInv start ((s.setQueue q
        { s.queues q with imqThreads := (s.queues q).imqThreads ++ [t] }).setThread t { s.threads t with
          activity := .receiving q maxSize timeOut, ithState := .rcvInProgress, ithMsize := maxSize }) noFlight := by
  have h1 : MqInv start (s.setThread t
      { s.threads t with
        activity := .receiving q maxSize timeOut
        ithState := .rcvInProgress
        ithMsize := maxSize }) noFlight := by
    apply h.setThread hi.queued hi.blocked
    rw [hi.pending]
    simp [MqState.pending]
  have hmsgs : ∀ q', (update s.queues q
      { s.queues q with imqThreads := (s.queues q).imqThreads ++ [t] } q').imqMessages =
      (s.queues q').imqMessages := update_part Mqueue.imqMessages (by rfl)
  refine ⟨?_, ?_, ?_, h1.blocked, h1.blocked_nodup, ?_, ?_, ?_, h1.seqno, h1.picked⟩
  . intro q'
    by_cases heq : q' = q
    . subst heq
      simp [hq]
    . have hex := h.excl q'
      simpa [update_of_ne heq] using hex
  . intro q' t' ht'
    by_cases heq : q' = q
    . subst heq
      rw [setThread_queues, setQueue_queues, update_self, List.mem_append, List.mem_singleton] at ht'
      rcases ht' with hmem | rfl
      . exact h1.waits q' t' hmem
      . exact ⟨⟨maxSize, timeOut, by simp⟩, by simp⟩
    . rw [setThread_queues, setQueue_queues, update_of_ne heq] at ht'
      exact h1.waits q' t' ht'
  . intro q'
    by_cases heq : q' = q
    . subst heq
      rw [setThread_queues, setQueue_queues, update_self, List.nodup_append]
      refine ⟨h.nodup q', by simp, ?_⟩
      intro a ha b hb
      rw [List.mem_singleton] at hb
      subst hb
      exact fun heq => hi.queued q' (heq ▸ ha)
    . rw [setThread_queues, setQueue_queues, update_of_ne heq]
      exact h.nodup q'
  . intro q' p hp hne
    apply h.home q' p hp
    unfold queuedIn at hne ⊢
    rwa [setThread_queues, setQueue_queues, hmsgs] at hne
  . intro p m hm
    rw [setThread_queues, setQueue_queues, hmsgs] at hm
    exact h.own p m hm
  . intro p hp
    have hf := h.fifo p hp
    have hqueued : ((s.setQueue q
        { s.queues q with imqThreads := (s.queues q).imqThreads ++ [t] }).setThread t
        { s.threads t with
          activity := .receiving q maxSize timeOut
          ithState := .rcvInProgress
          ithMsize := maxSize }).queuedIn (s.home p) p = s.queuedIn (s.home p) p := by
      unfold queuedIn
      rw [setThread_queues, setQueue_queues, hmsgs]
    rw [home_setThread, home_setQueue, hqueued]
    exact hf

section Receive

theorem OwnStep.take (kmsg : Msg) (rest : List Msg) : OwnStep t s (s.take t q kmsg rest) :=
  OwnStep.of_eq fun _ hne => update_of_ne hne _ _

theorem receivePass_nil (hq : (s.queues q).imqMessages = []) : receivePass t q maxSize timeOut s =
        if timeOut = some 0 then
          s.leave t .rcvTimedOut
        else (s.setQueue q { s.queues q with imqThreads := (s.queues q).imqThreads ++ [t] }).setThread t
            { s.threads t with
              activity := .receiving q maxSize timeOut
              ithState := .rcvInProgress
              ithMsize := maxSize } := by
  simp only [receivePass, hq]

theorem receivePass_cons {kmsg : Msg} {rest : List Msg} (hq : (s.queues q).imqMessages = kmsg :: rest)
    : receivePass t q maxSize timeOut s = if maxSize < kmsg.msghSize then
          s.leave t (.rcvTooLarge kmsg.msghSize)
        else
          s.take t q kmsg rest := by
  simp only [receivePass, hq, MqState.take]

theorem receivePass_spec (h : MqInv start s noFlight) (hi : Idle s t) (q : QueueId) (maxSize : Nat)
    (timeOut : Option Nat) : Settles start s (receivePass t q maxSize timeOut s) := by
  have hleave : ∀ mr, Settles start s (s.leave t mr) := fun mr =>
    ⟨h.leaveIdle hi mr, fun hc => hc.leave hi.inHand mr,
      fun hw => hw.idleStep hi.not_woken (OwnStep.leave s t mr) fun p => SameSenders.refl _⟩
  cases hq : (s.queues q).imqMessages with
  | nil =>
    rw [receivePass_nil hq]
    by_cases htime : timeOut = some 0
    . rw [if_pos htime]
      exact hleave _
    . rw [if_neg htime]
      refine ⟨h.await hi hq maxSize timeOut, fun hc => ?_, fun hw =>
        hw.idleStep hi.not_woken (OwnStep.of_eq ?_) fun p => SameSenders.refl _⟩
      . have hnone : (s.setQueue q { s.queues q with imqThreads := (s.queues q).imqThreads ++ [t] }).inHand t = none :=
          hi.inHand
        refine (hc.setQueue q _).setThread ?_
        rw [hnone]
        simp [MqState.inHand]
      . intro t' hne
        rw [setThread_threads, update_of_ne hne, setQueue_threads]
  | cons kmsg rest =>
    rw [receivePass_cons hq]
    by_cases hsize : maxSize < kmsg.msghSize
    . rw [if_pos hsize]
      exact hleave _
    . rw [if_neg hsize]
      refine ⟨h.take hi hq, fun hc => hc.taken hi,
        fun hw => hw.idleStep hi.not_woken (OwnStep.take kmsg rest) fun p => ?_⟩
      rw [take_ports]
      exact ⟨rfl, rfl, rfl, rfl⟩

theorem Idle.frame (hi : Idle s t) (hr : ¬ s.Receives t)
    (h' : MqInv start s' noFlight) (hf : RcvFrame s s') : Idle s' t := by
  apply Idle.of_not_receives h'
  . rw [hf.receives]
    exact hr
  . intro p
    unfold Sends
    rw [hf.activity]
    exact hi.sends p
  . rw [inHand_eq (hf.others t hr)]
    exact hi.inHand

section

variable (h : MqInv start s noFlight)
include h

theorem receiveFromPort_spec (ht : (s.threads t).activity = .returned mr) {port : Nat}
    (hs : receiveFromPort t port maxSize timeOut s = some s')
    : Settles start s s' := by
  have hi := Idle.of_returned h ht
  unfold receiveFromPort at hs
  obtain ⟨hactive, hs⟩ := assert_bind_eq_some.1 hs
  cases hpset : (s.ports port).ipPset with
  | none =>
    simp only [hpset] at hs
    obtain rfl := some.inj hs
    exact receivePass_spec h hi _ _ _
  | some pset =>
    simp only [hpset] at hs
    by_cases hset : s.ipsActive pset = true
    . simp only [if_pos hset] at hs
      obtain rfl := some.inj hs
      exact ⟨h.leaveIdle hi _, fun hc => hc.leave hi.inHand _,
        fun hw => hw.idleStep hi.not_woken (OwnStep.leave s t _) fun p => SameSenders.refl _⟩
    . obtain ⟨s1, heq, h1, hf, -, -⟩ := ipcPsetRemove_spec h pset hactive hpset
      simp only [if_neg hset, heq] at hs
      obtain rfl := some.inj hs
      have hr : ¬ s.Receives t := by
        rintro ⟨q, maxSize, timeOut, ha⟩
        rw [ht] at ha
        contradiction
      obtain ⟨h2, hc2, hw2⟩ := receivePass_spec h1 (hi.frame hr h1 hf) (.port port) maxSize timeOut
      exact ⟨h2, hc2 ∘ hf.counted, fun hw => hw2 (hw.frame hf)⟩

theorem receiveFromPset_spec (ht : (s.threads t).activity = .returned mr) {pset : Nat}
    (hs : receiveFromPset t pset maxSize timeOut s = some s')
    : Settles start s s' := by
  unfold receiveFromPset at hs
  obtain ⟨hset, hs⟩ := assert_bind_eq_some.1 hs
  obtain rfl := some.inj hs
  exact receivePass_spec h (Idle.of_returned h ht) _ _ _

theorem Idle.of_receiving (ha : (s.threads t).activity = .receiving q maxSize timeOut)
    (hs : (s.threads t).ithState ≠ .success) (hq : ∀ q, t ∉ (s.queues q).imqThreads) : Idle s t := by
  have hsends : ∀ p, ¬ s.Sends t p := by
    rintro p ⟨kmsg, always, timeOut, ha', -⟩
    rw [ha] at ha'
    contradiction
  refine ⟨hq, fun p hmem => hsends p (h.blocked p t hmem).1, ?_, hsends, ?_⟩
  . unfold MqState.pending
    split
    . next hstate => exact absurd hstate hs
    . rfl
  . unfold MqState.inHand
    split
    . next ha' => simp [ha] at ha'
    . next hstate => exact absurd hstate hs
    . rfl

end

theorem MqInv.not_queued_of_state (h : MqInv start s flight)
    (hs : (s.threads t).ithState ≠ .rcvInProgress) (q : QueueId) : t ∉ (s.queues q).imqThreads :=
  fun hmem => hs (h.waits q t hmem).2

theorem MqInv.pick (h : MqInv start s noFlight) {kmsg : Msg}
    (ha : (s.threads t).activity = .receiving q maxSize timeOut)
    (hs : (s.threads t).ithState = .success) (hk : (s.threads t).ithKmsg = some kmsg)
    : MqInv start ((s.record (.picked kmsg (s.threads t).ithSeqno t)).setThread t
        { s.threads t with activity := .finishing kmsg (s.threads t).ithSeqno }) noFlight := by
  have hother : ∀ t', t' ≠ t → update s.threads t
      { s.threads t with activity := .finishing kmsg (s.threads t).ithSeqno } t' = s.threads t' :=
    fun t' hne => update_of_ne hne _ _
  refine h.shrink (fun _ => .refl _) (fun _ => .refl _) (fun _ => rfl) (fun _ hp => hp) (fun _ _ _ _ => rfl)
    ?_ ?_ ?_ ?_ ?_
  . intro q' t' ht'
    apply hother
    rintro rfl
    rw [(h.waits q' t' ht').2] at hs
    contradiction
  . intro p t' ht'
    apply hother
    rintro rfl
    rw [(h.blocked p t' ht').2] at hs
    contradiction
  . intro p hp
    have hf := h.fifo p hp
    simpa [accepted, received, queuedIn, List.filterMap_cons, MsgEvent.acceptedFor, MsgEvent.receivedFor] using hf
  . intro p hp
    have hseq := h.seqno p hp
    simpa [received, List.filterMap_cons, MsgEvent.receivedFor] using hseq
  . intro t'
    have hold := h.picked t'
    have hgiven : ((s.record (.picked kmsg (s.threads t).ithSeqno t)).setThread t
        { s.threads t with activity := .finishing kmsg (s.threads t).ithSeqno }).receivedBy t' =
        s.receivedBy t' := by
      simp [receivedBy, MsgEvent.receivedBy]
    rw [hgiven, hold]
    by_cases heq : t' = t
    . subst heq
      simp [pickedBy, MsgEvent.pickedBy, MqState.pending, ha, hs, hk]
    . have hpend : ((s.record (.picked kmsg (s.threads t).ithSeqno t)).setThread t
          { s.threads t with activity := .finishing kmsg (s.threads t).ithSeqno }).pending t' =
          s.pending t' := by
        unfold MqState.pending
        rw [setThread_threads, record_threads, hother t' heq]
      rw [hpend]
      simp [pickedBy, MsgEvent.pickedBy, Ne.symm heq]

theorem receiveResume_spec (h : MqInv start s noFlight)
    (hs : receiveResume t reason s = some s') : Settles start s s' := by
  unfold receiveResume at hs
  cases ha : (s.threads t).activity with
  | returned | sending | finishing => simp [ha] at hs
  | receiving q maxSize timeOut =>
    have hnot : ∀ p, t ∉ s.woken p := by
      rintro p ⟨⟨kmsg, always, timeOut', ha', -⟩, -⟩
      rw [ha] at ha'
      contradiction
    simp only [ha] at hs
    cases hstate : (s.threads t).ithState with
    | success =>
      simp only [hstate] at hs
      cases hk : (s.threads t).ithKmsg with
      | none => simp [hk] at hs
      | some kmsg =>
        simp only [hk] at hs
        obtain rfl := some.inj hs
        have hpick := h.pick ha hstate hk
        simp only [hstate, hk] at hpick
        refine ⟨hpick, fun hc => ?_, fun hw => hw.idleStep hnot ?_ fun p => SameSenders.refl _⟩
        . refine (hc.recordOther ?_ ?_).setThread ?_
          . exact fun _ => rfl
          . exact fun _ => rfl
          . simp [MqState.inHand, ha, hstate, hk]
        . exact OwnStep.of_eq fun _ hne => update_of_ne hne _ _
    | rcvTooLarge | rcvPortDied | rcvPortChanged =>
      simp only [hstate] at hs
      obtain rfl := some.inj hs
      have hi : Idle s t := Idle.of_receiving h ha (by simp [hstate]) (h.not_queued_of_state (by simp [hstate]))
      exact ⟨h.leaveIdle hi _, fun hc => hc.leave hi.inHand _,
        fun hw => hw.idleStep hi.not_woken (OwnStep.leave s t _) fun p => SameSenders.refl _⟩
    | rcvInProgress =>
      simp only [hstate] at hs
      have h1 := h.setThreads (q := q) (List.erase_sublist (a := t))
      have hi : Idle (s.setQueue q
          { s.queues q with imqThreads := (s.queues q).imqThreads.erase t }) t := by
        apply Idle.of_receiving h1 ha
        . rw [setQueue_threads, hstate]
          simp
        . intro q' hmem
          by_cases heq : q' = q
          . subst heq
            rw [setQueue_queues, update_self] at hmem
            exact (h.nodup q').not_mem_erase hmem
          . rw [setQueue_queues, update_of_ne heq] at hmem
            obtain ⟨⟨_, _, ha'⟩, -⟩ := h.waits q' t hmem
            rw [ha] at ha'
            cases ha'
            exact heq rfl
      have hw1 : NoLostWakeup s → NoLostWakeup (s.setQueue q
          { s.queues q with imqThreads := (s.queues q).imqThreads.erase t }) := fun hw =>
        hw.congr (fun p => SameSenders.refl _) fun p => rfl
      cases reason with
      | interrupted =>
        obtain rfl := some.inj hs
        exact ⟨h1.leaveIdle hi _, fun hc => (hc.setQueue q _).leave hi.inHand _, fun hw =>
          (hw1 hw).idleStep hi.not_woken (OwnStep.leave _ t _) fun p => SameSenders.refl _⟩
      | timedOut =>
        obtain ⟨htime, hs⟩ := assert_bind_eq_some.1 hs
        obtain rfl := some.inj hs
        obtain ⟨h2, hc2, hw2⟩ := receivePass_spec h1 hi q maxSize (some 0)
        exact ⟨h2, fun hc => hc2 (hc.setQueue q _), fun hw => hw2 (hw1 hw)⟩
    | sendInProgress => simp [hstate] at hs

end Receive

end Ipc
