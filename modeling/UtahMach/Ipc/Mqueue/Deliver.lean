import UtahMach.Ipc.Mqueue.Lemmas

/-!
This module contains how messages get to the queue of their port or to a receiver that waits there.
-/

namespace Ipc

open MqState
open Function (update update_comm update_of_ne update_self)

theorem MqState.Waits.receives {s : MqState} {t : Nat} (h : s.Waits t q) : s.Receives t := by
  obtain ⟨⟨maxSize, timeOut, ha⟩, -⟩ := h
  exact ⟨q, maxSize, timeOut, ha⟩

structure Delivery (s s' : MqState) : Prop where
  ports : ∀ p, s'.ports p = { s.ports p with ipSeqno := (s'.ports p).ipSeqno }
  sets : s'.ipsActive = s.ipsActive
  activity : ∀ t, (s'.threads t).activity = (s.threads t).activity
  others : ∀ t, ¬ s.Receives t → s'.threads t = s.threads t
  counted : MsgsCounted s → MsgsCounted s'

namespace Delivery

variable {s s' s'' : MqState}

theorem refl (s : MqState) : Delivery s s := ⟨fun _ => rfl, rfl, fun _ => rfl, fun _ _ => rfl, id⟩

theorem receives (h : Delivery s s') (t : Nat) : s'.Receives t ↔ s.Receives t := by
  unfold Receives
  rw [h.activity]

theorem trans (h : Delivery s s') (h' : Delivery s' s'') : Delivery s s'' := by
  refine ⟨?_, h'.sets.trans h.sets, fun t => (h'.activity t).trans (h.activity t), ?_, h'.counted ∘ h.counted⟩
  . intro p
    rw [h'.ports p, h.ports p]
  . intro t ht
    rw [h'.others t (by rw [h.receives]; exact ht), h.others t ht]

theorem home (h : Delivery s s') (p : Nat) : s'.home p = s.home p := by
  unfold MqState.home
  rw [h.ports p]

theorem of_setThread (q : QueueId) (mqueue : Mqueue) {t : Nat} {th : Thread} (hw : s.Waits t q')
    (ha : th.activity = (s.threads t).activity) (hs : th.ithState ≠ .success)
    : Delivery s ((s.setQueue q mqueue).setThread t th) := by
  refine ⟨fun _ => rfl, rfl, ?_, ?_, fun hc => ?_⟩
  . intro t'
    rw [setThread_threads]
    by_cases heq : t' = t
    . subst heq
      rw [update_self]
      exact ha
    . rw [update_of_ne heq]
      rfl
  . intro t' ht'
    apply update_of_ne
    rintro rfl
    exact ht' hw.receives
  . refine hc.congr (fun _ hp => ⟨hp, rfl⟩) (fun _ => rfl) (fun _ => rfl) fun t' => ?_
    by_cases heq : t' = t
    . subst heq
      rw [hw.inHand]
      obtain ⟨⟨maxSize, timeOut, ha'⟩, -⟩ := hw
      cases hth : th.ithState <;> simp_all [inHand]
    . exact inHand_eq (update_of_ne heq _ _)

end Delivery

variable {start : Nat → Nat} {s : MqState} {flight : Nat → List Msg} {kmsg : Msg} {p : Nat}
  {rest : List Msg}

theorem seqnos_succ (start n : Nat) : seqnos start (n + 1) = seqnos start n ++ [(start + n) % 2 ^ 32] := by
  simp [seqnos, List.range_succ]

theorem MqInv.seqno_received (h : MqInv start s flight) {s' : MqState} (hp : (s.ports p).ipActive = true)
    (hrec : s'.received p = s.received p ++ if kmsg.msghRemotePort = p then [(kmsg, (s.ports p).ipSeqno)] else [])
    (hself : (s'.ports p).ipSeqno =
      if kmsg.msghRemotePort = p then ((s.ports p).ipSeqno + 1) % 2 ^ 32 else (s.ports p).ipSeqno)
    : (s'.received p).map Prod.snd = seqnos (start p) (s'.received p).length ∧
        (s'.ports p).ipSeqno = (start p + (s'.received p).length) % 2 ^ 32 := by
  obtain ⟨hseq, hnext⟩ := h.seqno p hp
  rw [hrec, hself]
  by_cases heq : kmsg.msghRemotePort = p
  . rw [if_pos heq, if_pos heq, List.map_append, hseq, List.length_append, hnext, List.map_singleton,
      List.length_singleton, seqnos_succ]
    exact ⟨rfl, by omega⟩
  . rw [if_neg heq, if_neg heq, List.append_nil]
    exact ⟨hseq, hnext⟩

variable {q q' : QueueId} {t : Nat}

theorem MqInv.wakeReceiver (h : MqInv start s flight) (hq : (s.queues q).imqThreads = t :: ts) (th : Thread)
    (ha : th.activity = (s.threads t).activity) (hs : th.ithState ≠ .success)
    : MqInv start ((s.setQueue q { s.queues q with imqThreads := ts }).setThread t th) flight := by
  have hw := h.waits q t (by rw [hq]; exact List.mem_cons_self)
  obtain ⟨h', hnot⟩ := h.dequeue hq
  refine h'.setThread hnot (h.not_blocked_of_waits hw) ?_
  obtain ⟨⟨maxSize, timeOut, ha'⟩, hs'⟩ := hw
  have hnew : ((s.setQueue q { s.queues q with imqThreads := ts }).setThread t th).pending t = [] := by
    unfold pending
    cases hth : th.ithState <;> simp_all
  rw [hnew]
  simp [pending, ha', hs']

theorem ports_handOver (s : MqState) (kmsg : Msg) (t p : Nat) : (Ipc.handOver s kmsg t).ports p =
    { s.ports p with ipSeqno := ((Ipc.handOver s kmsg t).ports p).ipSeqno } := by
  by_cases heq : p = kmsg.msghRemotePort
  . subst heq
    simp [Ipc.handOver]
  . simp [Ipc.handOver, update_of_ne heq]

section

variable (h : MqInv start s (update flight p (kmsg :: rest))) (hk : kmsg.msghRemotePort = p)
include h hk

theorem MqInv.handOver (hr : s.Receives t) (hpend : s.pending t = [])
    (hnot : ∀ q, t ∉ (s.queues q).imqThreads) (hnb : ∀ p', t ∉ (s.ports p').ipBlocked)
    (hm : s.queuedIn (s.home p) p = []) : MqInv start (Ipc.handOver s kmsg t) (update flight p rest) := by
  have hother : ∀ t', t' ≠ t → (Ipc.handOver s kmsg t).threads t' = s.threads t' := fun t' hne => update_of_ne hne _ _
  have hport := ports_handOver s kmsg t
  have hactive : ∀ p', ((Ipc.handOver s kmsg t).ports p').ipActive = (s.ports p').ipActive := fun p' => by rw [hport p']
  have hblocked : ∀ p', ((Ipc.handOver s kmsg t).ports p').ipBlocked = (s.ports p').ipBlocked :=
    fun p' => by rw [hport p']
  have hhome : ∀ p', (Ipc.handOver s kmsg t).home p' = s.home p' := by
    intro p'
    unfold MqState.home
    rw [hport p']
  have hqueued : ∀ q p', (Ipc.handOver s kmsg t).queuedIn q p' = s.queuedIn q p' := fun _ _ => rfl
  have hacc : ∀ p', (Ipc.handOver s kmsg t).accepted p' = s.accepted p' := by
    intro p'
    simp [Ipc.handOver, accepted, MsgEvent.acceptedFor]
  have hrec : ∀ p', (Ipc.handOver s kmsg t).received p' = s.received p' ++
      if kmsg.msghRemotePort = p' then [(kmsg, (s.ports p').ipSeqno)] else [] := by
    intro p'
    by_cases heq : kmsg.msghRemotePort = p'
    . subst heq
      simp [Ipc.handOver, received, MsgEvent.receivedFor]
    . simp [Ipc.handOver, received, MsgEvent.receivedFor, heq]
  refine h.shrink (fun _ => .refl _) (fun _ => .refl _) hblocked (fun p' => hactive p' ▸ id) (fun _ p' _ _ => hhome p')
    (fun q t' ht' => hother t' fun heq => hnot q (heq ▸ ht')) (fun p' t' ht' => hother t' fun heq => hnb p' (heq ▸ ht'))
    ?_ ?_ ?_
  . intro p' hp'
    rw [hactive] at hp'
    have hf := h.fifo p' hp'
    rw [hacc, hrec, hqueued, hhome, hf]
    by_cases heq : p' = p
    . subst heq
      simp [hk, hm]
    . have hne : kmsg.msghRemotePort ≠ p' := fun hc => heq (hc ▸ hk)
      simp [heq, hne]
  . intro p' hp'
    rw [hactive] at hp'
    apply h.seqno_received hp' (hrec p')
    by_cases heq : kmsg.msghRemotePort = p'
    . subst heq
      simp [Ipc.handOver]
    . simp [Ipc.handOver, update_of_ne (Ne.symm heq), heq]
  . intro t'
    have hpick : (Ipc.handOver s kmsg t).pickedBy t' = s.pickedBy t' := by
      simp [Ipc.handOver, pickedBy, MsgEvent.pickedBy]
    have hold := h.picked t'
    rw [hpick]
    by_cases heq : t' = t
    . subst heq
      obtain ⟨q, maxSize, timeOut, ha⟩ := hr
      rw [hpend, List.append_nil] at hold
      have hgiven : (Ipc.handOver s kmsg t').receivedBy t' =
          s.receivedBy t' ++ [(kmsg, (s.ports kmsg.msghRemotePort).ipSeqno)] := by
        simp [Ipc.handOver, receivedBy, MsgEvent.receivedBy]
      have hpend' : (Ipc.handOver s kmsg t').pending t' =
          [(kmsg, (s.ports kmsg.msghRemotePort).ipSeqno)] := by
        simp [Ipc.handOver, pending, ha]
      rw [hgiven, hpend', hold]
    . have hgiven : (Ipc.handOver s kmsg t).receivedBy t' = s.receivedBy t' := by
        simp [Ipc.handOver, receivedBy, MsgEvent.receivedBy, Ne.symm heq]
      have hpend' : (Ipc.handOver s kmsg t).pending t' = s.pending t' := by
        unfold pending
        rw [hother t' heq]
      rw [hgiven, hpend', hold]

theorem MqInv.enqueue (hq : (s.queues (s.home p)).imqThreads = []) : MqInv start (s.setQueue (s.home p)
        { s.queues (s.home p) with imqMessages := (s.queues (s.home p)).imqMessages ++ [kmsg] })
        (update flight p rest) := by
  generalize hs' : s.setQueue (s.home p)
    { s.queues (s.home p) with imqMessages := (s.queues (s.home p)).imqMessages ++ [kmsg] } = s'
  have hthreads : ∀ q, (s'.queues q).imqThreads = (s.queues q).imqThreads := by
    intro q
    rw [← hs', setQueue_queues]
    exact update_part Mqueue.imqThreads (by rfl) q
  have hqueued : ∀ q p', s'.queuedIn q p' = s.queuedIn q p' ++
      if q = s.home p ∧ p' = p then [kmsg] else [] := by
    intro q p'
    unfold queuedIn
    rw [← hs', setQueue_queues]
    by_cases heq : q = s.home p
    . subst heq
      by_cases heq' : p' = p
      . simp [List.filter_append, hk, heq']
      . have hne : kmsg.msghRemotePort ≠ p' := fun hc => heq' (hc ▸ hk)
        simp [List.filter_append, hne, heq']
    . simp [heq]
  subst hs'
  refine ⟨?_, ?_, ?_, h.blocked, h.blocked_nodup, ?_, ?_, ?_, h.seqno, h.picked⟩
  . intro q
    rw [hthreads]
    by_cases heq : q = s.home p
    . exact Or.inr (heq ▸ hq)
    . rw [setQueue_queues, update_of_ne heq]
      exact h.excl q
  . intro q t ht
    rw [hthreads] at ht
    exact h.waits q t ht
  . intro q
    rw [hthreads]
    exact h.nodup q
  . intro q p' hp' hne
    rw [hqueued] at hne
    by_cases heq : q = s.home p ∧ p' = p
    . rw [heq.1, heq.2]
      rfl
    . rw [if_neg heq, List.append_nil] at hne
      exact h.home q p' hp' hne
  . intro p' m hm
    rw [setQueue_queues] at hm
    by_cases heq : QueueId.port p' = s.home p
    . rw [heq, update_self, List.mem_append, List.mem_singleton] at hm
      rcases hm with hm | rfl
      . exact h.own p' m (heq ▸ hm)
      . have hp' : p' = p := by
          unfold MqState.home at heq
          split at heq <;> simp_all
        rw [hk, hp']
    . rw [update_of_ne heq] at hm
      exact h.own p' m hm
  . intro p' hp'
    have hf := h.fifo p' hp'
    rw [hqueued]
    by_cases heq : p' = p
    . subst heq
      rw [update_self] at hf ⊢
      rw [if_pos ⟨rfl, rfl⟩, List.append_assoc, List.singleton_append]
      exact hf
    . rw [update_of_ne heq] at hf ⊢
      rw [if_neg (fun hc => heq hc.2), List.append_nil]
      exact hf

end

theorem Delivery.setQueue (s : MqState) (q : QueueId) (mqueue : Mqueue) : Delivery s (s.setQueue q mqueue) :=
  ⟨fun _ => rfl, rfl, fun _ => rfl, fun _ _ => rfl,
    fun hc => hc.congr (fun _ hp => ⟨hp, rfl⟩) (fun _ => rfl) (fun _ => rfl) fun _ => rfl⟩

theorem Delivery.handOver (hw : s.Waits t q') : Delivery s (Ipc.handOver (s.setQueue q mqueue) kmsg t) := by
  refine ⟨ports_handOver _ kmsg t, rfl, ?_, ?_, fun hc => hc.take ?_ ?_ t kmsg ?_ hw.inHand ?_ ?_⟩
  . intro t'
    by_cases heq : t' = t
    . subst heq
      simp [Ipc.handOver]
    . simp [Ipc.handOver, update_of_ne heq]
  . intro t' ht'
    have hne : t' ≠ t := by
      rintro rfl
      exact ht' hw.receives
    simp [Ipc.handOver, update_of_ne hne]
  . intro p hp
    rw [ports_handOver] at hp ⊢
    exact ⟨hp, rfl⟩
  . intro p
    simp [Ipc.handOver, accepted, MsgEvent.acceptedFor]
  . intro p
    refine ⟨(s.ports kmsg.msghRemotePort).ipSeqno, ?_⟩
    by_cases hp : kmsg.msghRemotePort = p <;>
      simp [Ipc.handOver, received, MsgEvent.receivedFor, hp]
  . obtain ⟨⟨maxSize, timeOut, ha⟩, -⟩ := hw
    simp [Ipc.handOver, inHand, ha]
  . exact fun t' hne => inHand_eq (update_of_ne hne _ _)

theorem queuedIn_of_nil (hm : (s.queues q).imqMessages = []) (p' : Nat) : s.queuedIn q p' = [] := by
  simp [queuedIn, hm]

theorem offer_cons (hm : (s.queues q).imqMessages = []) (t : Nat) (ts : List Nat) : offer q kmsg (t :: ts) s =
        if kmsg.msghSize ≤ (s.threads t).ithMsize then
          some (Ipc.handOver (s.setQueue q { s.queues q with imqThreads := ts }) kmsg t)
        else
          offer q kmsg ts
            ((s.setQueue q { s.queues q with imqThreads := ts }).refuse t kmsg.msghSize) := by
  rw [offer, assert_of_true hm]
  rfl

theorem offer_spec (hk : kmsg.msghRemotePort = p) (ts : List Nat) (s : MqState)
    (h : MqInv start s (update flight p (kmsg :: rest))) (hts : (s.queues (s.home p)).imqThreads = ts)
    : ∃ s', offer (s.home p) kmsg ts s = some s' ∧ MqInv start s' (update flight p rest) ∧
        Delivery s s' ∧ ∀ q, q ≠ s.home p → s'.queues q = s.queues q := by
  induction ts generalizing s with
  | nil =>
    refine ⟨_, rfl, h.enqueue hk hts, .setQueue .., ?_⟩
    intro q hq
    exact update_of_ne hq _ _
  | cons t ts ih =>
    have hw := h.waits (s.home p) t (by rw [hts]; exact List.mem_cons_self)
    have hm : (s.queues (s.home p)).imqMessages = [] := by
      refine (h.excl (s.home p)).resolve_right ?_
      rw [hts]
      exact List.cons_ne_nil t ts
    rw [offer_cons hm]
    split
    . refine ⟨_, rfl, ?_, .handOver hw, ?_⟩
      . obtain ⟨h', hnot⟩ := h.dequeue hts
        refine h'.handOver hk ?_ ?_ hnot (h.not_blocked_of_waits hw) ?_
        . exact hw.receives
        . obtain ⟨⟨maxSize, timeOut, ha⟩, hs⟩ := hw
          simp [pending, ha, hs]
        . apply queuedIn_of_nil
          simp [hm]
      . intro q hq
        exact update_of_ne hq _ _
    . have h' := h.wakeReceiver hts
        { s.threads t with ithState := .rcvTooLarge, ithMsize := kmsg.msghSize } rfl (by simp)
      have hd : Delivery s
          ((s.setQueue (s.home p) { s.queues (s.home p) with imqThreads := ts }).refuse t
            kmsg.msghSize) := Delivery.of_setThread _ _ hw rfl (by simp)
      obtain ⟨s', hs', hinv, hd', hq'⟩ := ih _ h' (by simp)
      refine ⟨s', hs', hinv, hd.trans hd', ?_⟩
      intro q hq
      rw [hq' q hq]
      exact update_of_ne hq _ _

theorem deliver_spec (hk : kmsg.msghRemotePort = p) (h : MqInv start s (update flight p (kmsg :: rest)))
    : ∃ s', deliver s (s.home p) kmsg = some s' ∧ MqInv start s' (update flight p rest) ∧
        Delivery s s' ∧ ∀ q, q ≠ s.home p → s'.queues q = s.queues q :=
  offer_spec hk _ s h rfl

def deliverAll (dest : QueueId) : List Msg → MqState → Option MqState
  | [], s => some s
  | kmsg :: rest, s => (deliver s dest kmsg).bind (deliverAll dest rest)

theorem deliverAll_spec (msgs : List Msg) (hk : ∀ m ∈ msgs, m.msghRemotePort = p) (s : MqState)
    (h : MqInv start s (update flight p msgs))
    : ∃ s', deliverAll (s.home p) msgs s = some s' ∧ MqInv start s' (update flight p []) ∧
        Delivery s s' ∧ ∀ q, q ≠ s.home p → s'.queues q = s.queues q := by
  induction msgs generalizing s with
  | nil => exact ⟨s, rfl, h, .refl s, fun _ _ => rfl⟩
  | cons m msgs ih =>
    obtain ⟨s', hs', h', hd, hq⟩ := deliver_spec (hk m List.mem_cons_self) h
    obtain ⟨s'', hs'', h'', hd', hq'⟩ := ih (fun m' hm' => hk m' (List.mem_cons_of_mem _ hm')) s' h'
    rw [hd.home] at hs'' hq'
    refine ⟨s'', ?_, h'', hd.trans hd', fun q hne => (hq' q hne).trans (hq q hne)⟩
    rw [deliverAll, hs', Option.bind_some, hs'']

theorem offer_setQueue (hne : q' ≠ q) (kmsg : Msg) (mqueue : Mqueue) (ts : List Nat) (s : MqState)
    : offer q kmsg ts (s.setQueue q' mqueue) = (offer q kmsg ts s).map fun s => s.setQueue q' mqueue := by
  have hcomm : ∀ (s : MqState) (x : Mqueue),
      (s.setQueue q' mqueue).setQueue q x = (s.setQueue q x).setQueue q' mqueue := by
    intro s x
    simp only [MqState.setQueue, update_comm hne]
  have hself : ∀ s : MqState, (s.setQueue q' mqueue).queues q = s.queues q := by
    intro s
    rw [setQueue_queues, update_of_ne hne.symm]
  induction ts generalizing s with
  | nil => simp only [offer, hself, hcomm, Option.map_some]
  | cons t ts ih =>
    by_cases hm : (s.queues q).imqMessages = []
    . rw [offer_cons hm, offer_cons (by rw [hself]; exact hm), hself, hcomm]
      by_cases hle : kmsg.msghSize ≤ (s.threads t).ithMsize
      . rw [if_pos hle, if_pos (by exact hle)]
        rfl
      . rw [if_neg hle, if_neg (by exact hle)]
        exact ih ((s.setQueue q { s.queues q with imqThreads := ts }).refuse t kmsg.msghSize)
    . simp [offer, assert, hself, hm]

theorem deliver_setQueue (hne : q' ≠ q) (mqueue : Mqueue)
    : deliver (s.setQueue q' mqueue) q kmsg = (deliver s q kmsg).map fun s => s.setQueue q' mqueue := by
  unfold deliver
  rw [setQueue_queues, update_of_ne hne.symm, offer_setQueue hne]

theorem setQueue_self (s : MqState) (q : QueueId) : s.setQueue q (s.queues q) = s := by
  simp [MqState.setQueue]

theorem setQueue_setQueue (s : MqState) (q : QueueId) (x y : Mqueue)
    : (s.setQueue q x).setQueue q y = s.setQueue q y := by
  simp [MqState.setQueue]

theorem offer_queues (hne : q' ≠ q) (ts : List Nat) {s s' : MqState}
    (h : offer q kmsg ts s = some s') : s'.queues q' = s.queues q' := by
  have hset := offer_setQueue hne kmsg (s.queues q') ts s
  rw [setQueue_self, h, Option.map_some] at hset
  have heq := Option.some.inj hset
  rw [heq, setQueue_queues, update_self]

theorem moveMessages_eq {dest source : QueueId} (hne : source ≠ dest) {port : Nat}
    (msgs kept : List Msg) (s : MqState) (hs : (s.queues source).imqMessages = kept ++ msgs)
    (hkept : ∀ m ∈ kept, m.msghRemotePort ≠ port) : moveMessages dest source port msgs s =
        deliverAll dest (msgs.filter (·.msghRemotePort = port)) (s.setQueue source { s.queues source with
            imqMessages := kept ++ msgs.filter (·.msghRemotePort ≠ port) }) := by
  induction msgs generalizing s kept with
  | nil =>
    simp only [moveMessages, List.filter_nil, deliverAll, ← hs]
    rw [setQueue_self]
  | cons m msgs ih =>
    unfold moveMessages
    split
    . next hm =>
      have herase : (kept ++ m :: msgs).erase m = kept ++ msgs := by
        have hnot : m ∉ kept := fun hmem => hkept m hmem hm
        rw [List.erase_append_right _ hnot, List.erase_cons_head]
      have hfilter : (m :: msgs).filter (·.msghRemotePort = port) =
          m :: msgs.filter (·.msghRemotePort = port) := by simp [hm]
      have hfilter' : (m :: msgs).filter (·.msghRemotePort ≠ port) =
          msgs.filter (·.msghRemotePort ≠ port) := by simp [hm]
      rw [hfilter, hfilter', deliverAll]
      simp only [hs, herase]
      generalize hs1 : s.setQueue source { s.queues source with imqMessages := kept ++ msgs } = s1
      have hq1 : s1.queues source = { s.queues source with imqMessages := kept ++ msgs } := by
        rw [← hs1, setQueue_queues, update_self]
      have hback : s.setQueue source { s.queues source with
            imqMessages := kept ++ msgs.filter (·.msghRemotePort ≠ port) } =
          s1.setQueue source { s.queues source with
            imqMessages := kept ++ msgs.filter (·.msghRemotePort ≠ port) } := by
        rw [← hs1, setQueue_setQueue]
      rw [hback, deliver_setQueue hne]
      cases hd : deliver s1 dest m with
      | none => rfl
      | some s2 =>
        have hq2 : s2.queues source = { s.queues source with imqMessages := kept ++ msgs } := by
          rw [← hq1]
          exact offer_queues hne _ hd
        show moveMessages dest source port msgs s2 = _
        rw [ih kept s2 (by rw [hq2]) hkept, hq2]
        rfl
    . next hm =>
      have hfilter : (m :: msgs).filter (·.msghRemotePort = port) =
          msgs.filter (·.msghRemotePort = port) := by simp [hm]
      have hfilter' : (m :: msgs).filter (·.msghRemotePort ≠ port) =
          m :: msgs.filter (·.msghRemotePort ≠ port) := by simp [hm]
      have hkept' : ∀ m' ∈ kept ++ [m], m'.msghRemotePort ≠ port := by
        intro m' hm'
        rcases List.mem_append.mp hm' with hmem | hmem
        . exact hkept m' hmem
        . rw [List.mem_singleton.mp hmem]
          exact hm
      rw [hfilter, hfilter', ih (kept ++ [m]) s (by rw [hs]; simp) hkept', List.append_assoc, List.singleton_append]

end Ipc
