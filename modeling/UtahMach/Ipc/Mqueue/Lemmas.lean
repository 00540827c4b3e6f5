import UtahMach.Ipc.Mqueue.Impl

/-!
This module contains the invariant of message queues.
-/

namespace Ipc

open Function (update update_of_ne update_self)

namespace MsgEvent

def acceptedFor (p : Nat) : MsgEvent → Option Msg
  | .accepted kmsg => if kmsg.msghRemotePort = p then some kmsg else none
  | _ => none

def receivedFor (p : Nat) : MsgEvent → Option (Msg × Nat)
  | .received kmsg seqno _ => if kmsg.msghRemotePort = p then some (kmsg, seqno) else none
  | _ => none

def receivedBy (t : Nat) : MsgEvent → Option (Msg × Nat)
  | .received kmsg seqno t' => if t' = t then some (kmsg, seqno) else none
  | _ => none

def pickedBy (t : Nat) : MsgEvent → Option (Msg × Nat)
  | .picked kmsg seqno t' => if t' = t then some (kmsg, seqno) else none
  | _ => none

end MsgEvent

namespace MqState

def accepted (s : MqState) (p : Nat) : List Msg := s.log.filterMap (MsgEvent.acceptedFor p)

def received (s : MqState) (p : Nat) : List (Msg × Nat) := s.log.filterMap (MsgEvent.receivedFor p)

def receivedBy (s : MqState) (t : Nat) : List (Msg × Nat) := s.log.filterMap (MsgEvent.receivedBy t)

def pickedBy (s : MqState) (t : Nat) : List (Msg × Nat) := s.log.filterMap (MsgEvent.pickedBy t)

def queuedIn (s : MqState) (q : QueueId) (p : Nat) : List Msg := (s.queues q).imqMessages.filter (·.msghRemotePort = p)

def Waits (s : MqState) (t : Nat) (q : QueueId) : Prop :=
  (∃ maxSize timeOut, (s.threads t).activity = .receiving q maxSize timeOut) ∧
    (s.threads t).ithState = .rcvInProgress

def Sends (s : MqState) (t p : Nat) : Prop :=
  ∃ kmsg always timeOut, (s.threads t).activity = .sending kmsg always timeOut ∧
    kmsg.msghRemotePort = p

def Receives (s : MqState) (t : Nat) : Prop :=
  ∃ q maxSize timeOut, (s.threads t).activity = .receiving q maxSize timeOut

def pending (s : MqState) (t : Nat) : List (Msg × Nat) :=
  match (s.threads t).activity, (s.threads t).ithState with
  | .receiving .., .success => (s.threads t).ithKmsg.toList.map fun kmsg => (kmsg, (s.threads t).ithSeqno)
  | _, _ => []

def inHand (s : MqState) (t : Nat) : Option Msg :=
  match (s.threads t).activity, (s.threads t).ithState with
  | .finishing kmsg _, _ => some kmsg
  | .receiving .., .success => (s.threads t).ithKmsg
  | _, _ => none

def holders (s : MqState) (p : Nat) : Set Nat := { t | ∃ kmsg ∈ s.inHand t, kmsg.msghRemotePort = p }

def seqnos (start n : Nat) : List Nat := (List.range n).map fun i => (start + i) % 2 ^ 32

end MqState

open MqState

theorem Sends.not_receives {s : MqState} {t p : Nat} (h : s.Sends t p) : ¬ s.Receives t := by
  rintro ⟨q, maxSize, timeOut, ha⟩
  obtain ⟨kmsg, always, timeOut', ha', -⟩ := h
  rw [ha] at ha'
  contradiction

structure MqInv (start : Nat → Nat) (s : MqState) (flight : Nat → List Msg) : Prop where
  excl : ∀ q, (s.queues q).imqMessages = [] ∨ (s.queues q).imqThreads = []
  waits : ∀ q t, t ∈ (s.queues q).imqThreads → s.Waits t q
  nodup : ∀ q, (s.queues q).imqThreads.Nodup
  blocked : ∀ p t, t ∈ (s.ports p).ipBlocked → s.Sends t p ∧ (s.threads t).ithState = .sendInProgress
  blocked_nodup : ∀ p, (s.ports p).ipBlocked.Nodup
  home : ∀ q p, (s.ports p).ipActive = true → s.queuedIn q p ≠ [] → q = s.home p
  own : ∀ p, ∀ m ∈ (s.queues (.port p)).imqMessages, m.msghRemotePort = p
  fifo : ∀ p, (s.ports p).ipActive = true →
    s.accepted p = (s.received p).map Prod.fst ++ (s.queuedIn (s.home p) p ++ flight p)
  seqno : ∀ p, (s.ports p).ipActive = true →
    (s.received p).map Prod.snd = seqnos (start p) (s.received p).length ∧
      (s.ports p).ipSeqno = (start p + (s.received p).length) % 2 ^ 32
  picked : ∀ t, s.receivedBy t = s.pickedBy t ++ s.pending t

-- a message is counted until its receiver has finished with it
def MsgsCounted (s : MqState) : Prop :=
  ∀ p, (s.ports p).ipActive = true →
    ((s.ports p).ipMsgcount + (s.received p).length : ℕ∞) = (s.accepted p).length + (s.holders p).encard

namespace MsgsCounted

variable {s s' : MqState} (h : MsgsCounted s)
  (hports : ∀ p, (s'.ports p).ipActive = true →
    (s.ports p).ipActive = true ∧ (s'.ports p).ipMsgcount = (s.ports p).ipMsgcount)
  (haccepted : ∀ p, s'.accepted p = s.accepted p)
include h hports haccepted

theorem congr (hreceived : ∀ p, s'.received p = s.received p) (hhand : ∀ t, s'.inHand t = s.inHand t)
    : MsgsCounted s' := by
  intro p hactive
  obtain ⟨hactive, hcount⟩ := hports p hactive
  have hholders : s'.holders p = s.holders p := by
    unfold holders
    simp only [hhand]
  rw [hcount, haccepted, hreceived, hholders]
  exact h p hactive

-- a thread gets a message
theorem take (t : Nat) (kmsg : Msg) (hreceived : ∀ p, ∃ seqno, s'.received p = s.received p ++
      if kmsg.msghRemotePort = p then [(kmsg, seqno)] else [])
    (hnone : s.inHand t = none) (hsome : s'.inHand t = some kmsg)
    (hother : ∀ t', t' ≠ t → s'.inHand t' = s.inHand t') : MsgsCounted s' := by
  intro p hactive
  obtain ⟨hactive, hcount⟩ := hports p hactive
  obtain ⟨seqno, hreceived⟩ := hreceived p
  have hold := h p hactive
  have hmem : ∀ t', t' ∈ s'.holders p ↔ t' = t ∧ kmsg.msghRemotePort = p ∨ t' ∈ s.holders p := by
    intro t'
    unfold holders
    by_cases heq : t' = t
    . subst heq
      simp [hnone, hsome]
    . simp [hother t' heq, heq]
  rw [hcount, haccepted, hreceived]
  by_cases hp : kmsg.msghRemotePort = p
  . have hholders : s'.holders p = insert t (s.holders p) := by
      ext t'
      rw [hmem, Set.mem_insert_iff]
      simp [hp]
    have hnot : t ∉ s.holders p := by
      rintro ⟨kmsg', hk, -⟩
      rw [hnone] at hk
      contradiction
    rw [hholders, Set.encard_insert_of_notMem hnot, if_pos hp, List.length_append, List.length_singleton, Nat.cast_add,
      Nat.cast_one, ← add_assoc, hold, add_assoc]
  . have hholders : s'.holders p = s.holders p := by
      ext t'
      rw [hmem]
      simp [hp]
    rw [hholders, if_neg hp, List.append_nil]
    exact hold

end MsgsCounted

theorem MqState.inHand_eq {s s' : MqState} {t : Nat} (h : s'.threads t = s.threads t) : s'.inHand t = s.inHand t := by
  unfold inHand
  rw [h]

theorem MqState.Waits.inHand {s : MqState} {t : Nat} (h : s.Waits t q) : s.inHand t = none := by
  obtain ⟨⟨maxSize, timeOut, ha⟩, hs⟩ := h
  simp [MqState.inHand, ha, hs]

section Updates

variable (s : MqState)

@[simp]
theorem home_setQueue (q : QueueId) (mqueue : Mqueue) (p : Nat) : (s.setQueue q mqueue).home p = s.home p := rfl

@[simp]
theorem home_setThread (t : Nat) (th : Thread) (p : Nat) : (s.setThread t th).home p = s.home p := rfl

@[simp]
theorem home_record (ev : MsgEvent) (p : Nat) : (s.record ev).home p = s.home p := rfl

end Updates

namespace MqInv

variable {start : Nat → Nat} {s : MqState} {flight : Nat → List Msg} {q : QueueId} {t : Nat}

theorem not_blocked_of_waits (h : MqInv start s flight) (hw : s.Waits t q) (p : Nat) : t ∉ (s.ports p).ipBlocked := by
  intro hmem
  have hs := (h.blocked p t hmem).2
  rw [hw.2] at hs
  contradiction

theorem eq_of_waits (hw : s.Waits t q) (hw' : s.Waits t q') : q = q' := by
  obtain ⟨⟨_, _, ha⟩, -⟩ := hw
  obtain ⟨⟨_, _, ha'⟩, -⟩ := hw'
  rw [ha] at ha'
  cases ha'
  rfl

-- a step that leaves the threads alone that wait, and adds no thread or message to a queue
theorem shrink (h : MqInv start s flight) (hthreads : ∀ q, (s'.queues q).imqThreads.Sublist (s.queues q).imqThreads)
    (hmsgs : ∀ q, (s'.queues q).imqMessages.Sublist (s.queues q).imqMessages)
    (hblocked : ∀ p, (s'.ports p).ipBlocked = (s.ports p).ipBlocked)
    (hactive : ∀ p, (s'.ports p).ipActive = true → (s.ports p).ipActive = true)
    (hhome : ∀ q p, (s'.ports p).ipActive = true → s'.queuedIn q p ≠ [] → s'.home p = s.home p)
    (hwaits : ∀ q, ∀ t ∈ (s.queues q).imqThreads, s'.threads t = s.threads t)
    (hsends : ∀ p, ∀ t ∈ (s.ports p).ipBlocked, s'.threads t = s.threads t)
    (hfifo : ∀ p, (s'.ports p).ipActive = true →
      s'.accepted p = (s'.received p).map Prod.fst ++ (s'.queuedIn (s'.home p) p ++ flight' p))
    (hseqno : ∀ p, (s'.ports p).ipActive = true →
      (s'.received p).map Prod.snd = seqnos (start p) (s'.received p).length ∧
        (s'.ports p).ipSeqno = (start p + (s'.received p).length) % 2 ^ 32)
    (hpicked : ∀ t, s'.receivedBy t = s'.pickedBy t ++ s'.pending t) : MqInv start s' flight' := by
  refine ⟨?_, ?_, fun q => (h.nodup q).sublist (hthreads q), ?_, fun p => hblocked p ▸ h.blocked_nodup p, ?_,
    fun p m hm => h.own p m ((hmsgs _).subset hm), hfifo, hseqno, hpicked⟩
  . intro q
    refine (h.excl q).imp (fun hnil => ?_) fun hnil => ?_
    . exact List.eq_nil_of_sublist_nil (hnil ▸ hmsgs q)
    . exact List.eq_nil_of_sublist_nil (hnil ▸ hthreads q)
  . intro q t ht
    have ht := (hthreads q).subset ht
    unfold Waits
    rw [hwaits q t ht]
    exact h.waits q t ht
  . intro p t ht
    rw [hblocked] at ht
    unfold Sends
    rw [hsends p t ht]
    exact h.blocked p t ht
  . intro q p hp hne
    rw [hhome q p hp hne]
    apply h.home q p (hactive p hp)
    intro hnil
    exact hne (List.eq_nil_of_sublist_nil (hnil ▸ (hmsgs q).filter _))

theorem setThread (h : MqInv start s flight)
    (hq : ∀ q, t ∉ (s.queues q).imqThreads) (hb : ∀ p, t ∉ (s.ports p).ipBlocked)
    (hp : (s.setThread t th).pending t = s.pending t) : MqInv start (s.setThread t th) flight := by
  have hother : ∀ t', t' ≠ t → (s.setThread t th).threads t' = s.threads t' := fun t' hne => update_of_ne hne _ _
  refine h.shrink (fun _ => .refl _) (fun _ => .refl _) (fun _ => rfl) (fun _ hp => hp) (fun _ _ _ _ => rfl)
    (fun q t' ht' => hother t' fun heq => hq q (heq ▸ ht')) (fun p t' ht' => hother t' fun heq => hb p (heq ▸ ht'))
    h.fifo h.seqno ?_
  intro t'
  have hp' : (s.setThread t th).pending t' = s.pending t' := by
    by_cases heq : t' = t
    . rw [heq, hp]
    . unfold pending
      rw [hother t' heq]
  rw [hp']
  exact h.picked t'

-- fewer threads wait at a queue
theorem setThreads (h : MqInv start s flight) (hts : ts.Sublist (s.queues q).imqThreads)
    : MqInv start (s.setQueue q { s.queues q with imqThreads := ts }) flight := by
  have hmsgs : ∀ q', (update s.queues q
      { s.queues q with imqThreads := ts } q').imqMessages = (s.queues q').imqMessages :=
    update_part Mqueue.imqMessages (by rfl)
  refine h.shrink ?_ ?_ (fun _ => rfl) (fun _ hp => hp) (fun _ _ _ _ => rfl) (fun _ _ _ => rfl) (fun _ _ _ => rfl) ?_
    h.seqno h.picked
  . intro q'
    rw [setQueue_queues]
    by_cases heq : q' = q
    . rw [heq, update_self]
      exact hts
    . simp only [update_of_ne heq, List.Sublist.refl]
  . intro q'
    simp only [setQueue_queues, hmsgs, List.Sublist.refl]
  . intro p hp
    rw [queuedIn, setQueue_queues, hmsgs]
    exact h.fifo p hp

theorem dequeue (h : MqInv start s flight) (hq : (s.queues q).imqThreads = t :: ts)
    : MqInv start (s.setQueue q { s.queues q with imqThreads := ts }) flight ∧
      (∀ q', t ∉ ((s.setQueue q { s.queues q with imqThreads := ts }).queues q').imqThreads) := by
  have hnodup := h.nodup q
  rw [hq, List.nodup_cons] at hnodup
  have h' := h.setThreads (hq ▸ List.sublist_cons_self t ts)
  refine ⟨h', ?_⟩
  intro q' ht
  have hw := h.waits q t (by rw [hq]; exact List.mem_cons_self)
  have heq := eq_of_waits (h'.waits q' t ht) hw
  subst heq
  rw [setQueue_queues, update_self] at ht
  exact hnodup.1 ht

end MqInv

end Ipc
