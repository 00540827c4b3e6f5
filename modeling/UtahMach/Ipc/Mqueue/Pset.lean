import UtahMach.Ipc.Mqueue.Deliver

/-!
This module contains what happens to messages when ports enter and leave port sets.
-/

namespace Ipc

open Function

open MqState

structure RcvFrame (s s' : MqState) : Prop where
  ports : ∀ p, s'.ports p =
    { s.ports p with ipPset := (s'.ports p).ipPset, ipSeqno := (s'.ports p).ipSeqno }
  activity : ∀ t, (s'.threads t).activity = (s.threads t).activity
  others : ∀ t, ¬ s.Receives t → s'.threads t = s.threads t
  counted : MsgsCounted s → MsgsCounted s'

namespace RcvFrame

variable {s s' s'' : MqState}

theorem refl (s : MqState) : RcvFrame s s := ⟨fun _ => rfl, fun _ => rfl, fun _ _ => rfl, id⟩

theorem receives (h : RcvFrame s s') (t : Nat) : s'.Receives t ↔ s.Receives t := by
  unfold Receives
  rw [h.activity]

theorem trans (h : RcvFrame s s') (h' : RcvFrame s' s'') : RcvFrame s s'' := by
  refine ⟨?_, fun t => (h'.activity t).trans (h.activity t), ?_, h'.counted ∘ h.counted⟩
  . intro p
    rw [h'.ports p, h.ports p]
  . intro t ht
    rw [h'.others t (by rw [h.receives]; exact ht), h.others t ht]

theorem of_delivery (h : Delivery s s') : RcvFrame s s' := by
  refine ⟨?_, h.activity, h.others, h.counted⟩
  intro p
  rw [h.ports p]

theorem setPset (s : MqState) (port : Nat) (pset : Option Nat) (q : QueueId) (mqueue : Mqueue)
    : RcvFrame s ((s.setPort port { s.ports port with ipPset := pset }).setQueue q mqueue) := by
  have hports : ∀ p, ((s.setPort port { s.ports port with ipPset := pset }).setQueue q mqueue).ports p =
      { s.ports p with
        ipPset := (((s.setPort port { s.ports port with ipPset := pset }).setQueue q mqueue).ports p).ipPset } := by
    intro p
    by_cases heq : p = port
    . subst heq
      simp
    . simp [update_of_ne heq]
  refine ⟨fun p => ?_, fun _ => rfl, fun _ _ => rfl, fun hc => ?_⟩
  . rw [hports p]
  . refine hc.congr (fun p hp => ?_) (fun _ => rfl) (fun _ => rfl) fun _ => rfl
    rw [hports p] at hp ⊢
    exact ⟨hp, rfl⟩

theorem ipActive (h : RcvFrame s s') (p : Nat) : (s'.ports p).ipActive = (s.ports p).ipActive := by
  rw [h.ports p]

end RcvFrame

def noFlight : Nat → List Msg := fun _ => []

theorem update_noFlight (p : Nat) : update noFlight p [] = noFlight := update_eq_self p noFlight

variable {start : Nat → Nat} {s : MqState} {port : Nat}

theorem filter_filter_ne (msgs : List Msg) {p port : Nat} (hne : p ≠ port)
    : (msgs.filter (·.msghRemotePort ≠ port)).filter (·.msghRemotePort = p) =
        msgs.filter (·.msghRemotePort = p) := by
  rw [List.filter_filter]
  apply List.filter_congr
  intro m _
  by_cases hm : m.msghRemotePort = p
  . simp [hm, hne]
  . simp [hm]

theorem MqInv.detach (h : MqInv start s noFlight) (hactive : (s.ports port).ipActive = true) {pset : Option Nat}
    (hs' : s' = (s.setPort port { s.ports port with ipPset := pset }).setQueue (s.home port)
      { s.queues (s.home port) with
        imqMessages := (s.queues (s.home port)).imqMessages.filter (·.msghRemotePort ≠ port) })
    : MqInv start s' (update noFlight port (s.queuedIn (s.home port) port)) := by
  have hport : ∀ p, s'.ports p = if p = port then { s.ports port with ipPset := pset }
      else s.ports p := by
    intro p
    rw [hs']
    by_cases heq : p = port
    . subst heq
      simp
    . simp [heq]
  have hactive' : ∀ p, (s'.ports p).ipActive = (s.ports p).ipActive := by
    intro p
    rw [hport]
    by_cases heq : p = port
    . simp [heq]
    . simp [heq]
  have hblocked : ∀ p, (s'.ports p).ipBlocked = (s.ports p).ipBlocked := by
    intro p
    rw [hport]
    by_cases heq : p = port
    . simp [heq]
    . simp [heq]
  have hthreads : ∀ q, (s'.queues q).imqThreads = (s.queues q).imqThreads := by
    intro q
    rw [hs', setQueue_queues]
    exact update_part Mqueue.imqThreads (by rfl) q
  have hqueued_port : ∀ q, s'.queuedIn q port = [] := by
    intro q
    unfold queuedIn
    rw [hs', setQueue_queues]
    by_cases heq : q = s.home port
    . subst heq
      simp [List.filter_filter]
    . rw [update_of_ne heq]
      by_contra hne
      exact heq (h.home q port hactive hne)
  have hqueued : ∀ q p, p ≠ port → s'.queuedIn q p = s.queuedIn q p := by
    intro q p hne
    unfold queuedIn
    rw [hs', setQueue_queues]
    by_cases heq : q = s.home port
    . subst heq
      rw [update_self]
      exact filter_filter_ne _ hne
    . rw [update_of_ne heq]
      rfl
  have hhome : ∀ p, p ≠ port → s'.home p = s.home p := by
    intro p hne
    unfold MqState.home
    rw [hport, if_neg hne]
  have hsub : ∀ q, (s'.queues q).imqMessages.Sublist (s.queues q).imqMessages := by
    intro q
    rw [hs', setQueue_queues]
    by_cases heq : q = s.home port
    . rw [heq, update_self]
      exact List.filter_sublist
    . rw [update_of_ne heq]
      exact .refl _
  have hlog : s'.log = s.log := by
    rw [hs']
    rfl
  have hth : s'.threads = s.threads := by
    rw [hs']
    rfl
  refine h.shrink (fun q => hthreads q ▸ .refl _) hsub hblocked (fun p => hactive' p ▸ id) ?_ (fun _ _ _ => by rw [hth])
    (fun _ _ _ => by rw [hth]) ?_ ?_ ?_
  . intro q p _ hne
    apply hhome
    rintro rfl
    exact hne (hqueued_port q)
  . intro p hp
    rw [hactive'] at hp
    have hf := h.fifo p hp
    have hacc : s'.accepted p = s.accepted p := by rw [accepted, hlog, accepted]
    have hrec : s'.received p = s.received p := by rw [received, hlog, received]
    rw [hacc, hrec, hf]
    by_cases heq : p = port
    . subst heq
      rw [hqueued_port, update_self]
      simp [noFlight]
    . rw [hqueued _ p heq, hhome p heq, update_of_ne heq]
  . intro p hp
    rw [hactive'] at hp
    have hrec : s'.received p = s.received p := by rw [received, hlog, received]
    have hseq : (s'.ports p).ipSeqno = (s.ports p).ipSeqno := by
      rw [hport]
      by_cases heq : p = port
      . simp [heq]
      . simp [heq]
    rw [hrec, hseq]
    exact h.seqno p hp
  . intro t
    rw [receivedBy, pickedBy, pending, hlog, hth]
    exact h.picked t

theorem ipcMqueueMove_spec (h : MqInv start s noFlight) (hactive : (s.ports port).ipActive = true) {pset : Option Nat}
    (hs1 : s1 = s.setPort port { s.ports port with ipPset := pset }) (hne : s.home port ≠ s1.home port)
    : ∃ s', ipcMqueueMove (s1.home port) (s.home port) port s1 = some s' ∧
        MqInv start s' noFlight ∧ RcvFrame s s' ∧ s'.ipsActive = s.ipsActive ∧
        (s'.ports port).ipPset = pset ∧
        (s'.queues (s.home port)).imqMessages =
          (s.queues (s.home port)).imqMessages.filter (·.msghRemotePort ≠ port) := by
  generalize hs2 : (s.setPort port { s.ports port with ipPset := pset }).setQueue (s.home port)
      { s.queues (s.home port) with
        imqMessages := (s.queues (s.home port)).imqMessages.filter (·.msghRemotePort ≠ port) } = s2
  have hinv := h.detach hactive hs2.symm
  have hhome : s2.home port = s1.home port := by
    rw [← hs2, hs1]
    rfl
  have hmem : ∀ m ∈ s.queuedIn (s.home port) port, m.msghRemotePort = port := by
    intro m hm
    simpa using (List.mem_filter.mp hm).2
  obtain ⟨s', hs', hinv', hd, hq⟩ := deliverAll_spec _ hmem s2 hinv
  rw [hhome] at hs' hq
  have hframe : RcvFrame s s2 := hs2 ▸ .setPset ..
  have hpset : (s2.ports port).ipPset = pset := by
    rw [← hs2]
    simp
  refine ⟨s', ?_, ?_, hframe.trans (.of_delivery hd), ?_, ?_, ?_⟩
  . unfold ipcMqueueMove
    have hq1 : s1.queues = s.queues := by
      rw [hs1]
      rfl
    rw [moveMessages_eq hne _ [] s1 rfl (by simp), hq1, ← hs']
    congr 1
    rw [← hs2, hs1]
    rfl
  . rwa [update_noFlight] at hinv'
  . rw [hd.sets, ← hs2]
    rfl
  . rw [hd.ports port, hpset]
  . rw [hq _ hne, ← hs2, setQueue_queues, update_self]

theorem MqInv.wakeReceivers (q : QueueId) (hmr : mr ≠ .success) (ts : List Nat)
    (s : MqState) (h : MqInv start s noFlight) (hts : (s.queues q).imqThreads = ts)
    : MqInv start (wakeReceivers q mr ts s) noFlight ∧ Delivery s (wakeReceivers q mr ts s) := by
  induction ts generalizing s with
  | nil => exact ⟨h, .refl s⟩
  | cons t ts ih =>
    have hw := h.waits q t (by rw [hts]; exact List.mem_cons_self)
    have h' := h.wakeReceiver hts { s.threads t with ithState := mr } rfl hmr
    have hd : Delivery s ((s.setQueue q { s.queues q with imqThreads := ts }).wake t mr) :=
      Delivery.of_setThread _ _ hw rfl hmr
    obtain ⟨hinv, hd'⟩ := ih _ h' (by simp)
    exact ⟨hinv, hd.trans hd'⟩

section

variable (h : MqInv start s noFlight)
include h

theorem MqInv.changed (q : QueueId) (mr : IthState) (hmr : mr ≠ .success)
    : MqInv start (ipcMqueueChanged q mr s) noFlight ∧ Delivery s (ipcMqueueChanged q mr s) :=
  h.wakeReceivers q hmr _ s rfl

theorem MqInv.filter_own (port : Nat) : (s.queues (.port port)).imqMessages.filter (·.msghRemotePort ≠ port) = [] := by
  rw [List.filter_eq_nil_iff]
  intro m hm
  simp [h.own port m hm]

theorem ipcPsetAdd_spec (pset : Nat) (hset : s.ipsActive pset = true)
    (hactive : (s.ports port).ipActive = true) (hpset : (s.ports port).ipPset = none)
    : ∃ s', ipcPsetAdd pset port s = some s' ∧ MqInv start s' noFlight ∧ RcvFrame s s' := by
  generalize hs1 : s.setPort port { s.ports port with ipPset := some pset } = s1
  have hhome : s.home port = .port port := by simp [MqState.home, hpset]
  have hhome1 : s1.home port = .pset pset := by simp [← hs1, MqState.home]
  obtain ⟨s2, hs2, h2, hf, -, -, hmsgs⟩ := ipcMqueueMove_spec h hactive hs1.symm
    (by rw [hhome, hhome1]; exact QueueId.noConfusion)
  rw [hhome, h.filter_own] at hmsgs
  rw [hhome, hhome1] at hs2
  obtain ⟨h3, hd⟩ := h2.changed (.port port) .rcvPortChanged (by simp)
  refine ⟨_, ?_, h3, hf.trans (.of_delivery hd)⟩
  subst hs1
  simp only [ipcPsetAdd, assert_of_true hset, assert_of_true hactive, assert_of_true hpset,
    Option.bind_eq_bind, Option.bind_some, hs2, assert_of_true hmsgs, Option.pure_def]

theorem ipcPsetRemove_spec (pset : Nat)
    (hactive : (s.ports port).ipActive = true) (hpset : (s.ports port).ipPset = some pset)
    : ∃ s', ipcPsetRemove pset port s = some s' ∧ MqInv start s' noFlight ∧ RcvFrame s s' ∧
        s'.ipsActive = s.ipsActive ∧ (s'.ports port).ipPset = none := by
  generalize hs1 : s.setPort port { s.ports port with ipPset := none } = s1
  have hhome : s.home port = .pset pset := by simp [MqState.home, hpset]
  have hhome1 : s1.home port = .port port := by simp [← hs1, MqState.home]
  obtain ⟨s2, hs2, h2, hf, hsets, hnone, -⟩ := ipcMqueueMove_spec h hactive hs1.symm
    (by rw [hhome, hhome1]; exact QueueId.noConfusion)
  rw [hhome, hhome1] at hs2
  refine ⟨s2, ?_, h2, hf, hsets, hnone⟩
  subst hs1
  simp only [ipcPsetRemove, assert_of_true hactive, assert_of_true hpset, Option.bind_eq_bind, Option.bind_some, hs2]

theorem ipcPsetDestroy_spec (pset : Nat) (hset : s.ipsActive pset = true)
    : ∃ s', ipcPsetDestroy pset s = some s' ∧ MqInv start s' noFlight ∧ RcvFrame s s' := by
  generalize hs1 : { s with ipsActive := update s.ipsActive pset false } = s1
  have h1 : MqInv start s1 noFlight := by
    rw [← hs1]
    exact { h with }
  have hf : RcvFrame s s1 := by
    rw [← hs1]
    exact ⟨fun _ => rfl, fun _ => rfl, fun _ _ => rfl,
      fun hc => hc.congr (fun _ hp => ⟨hp, rfl⟩) (fun _ => rfl) (fun _ => rfl) fun _ => rfl⟩
  obtain ⟨h2, hd⟩ := h1.changed (.pset pset) .rcvPortDied (by simp)
  refine ⟨_, ?_, h2, hf.trans (.of_delivery hd)⟩
  unfold ipcPsetDestroy
  simp only [hset, assert_of_true, Option.bind_eq_bind, Option.bind_some, hs1, Option.pure_def]

theorem ipcPsetMove_spec (nset : Option Nat)
    (hactive : (s.ports port).ipActive = true) (hset : ∀ pset ∈ nset, s.ipsActive pset = true)
    : ∃ kr s', ipcPsetMove port nset s = some (kr, s') ∧ MqInv start s' noFlight ∧ RcvFrame s s' := by
  cases hpset : (s.ports port).ipPset with
  | none =>
    cases nset with
    | none =>
      refine ⟨.notInSet, s, ?_, h, .refl s⟩
      simp [ipcPsetMove, hactive, hpset]
    | some nset =>
      obtain ⟨s', hs', h', hf⟩ := ipcPsetAdd_spec h nset (hset nset rfl) hactive hpset
      refine ⟨.success, s', ?_, h', hf⟩
      simp [ipcPsetMove, hactive, hpset, hs']
  | some oset =>
    obtain ⟨s', hs', h', hf, hsets, hnone⟩ := ipcPsetRemove_spec h oset hactive hpset
    cases nset with
    | none =>
      refine ⟨if s.ipsActive oset then .success else .notInSet, s', ?_, h', hf⟩
      simp only [ipcPsetMove, assert_of_true hactive, hpset, Option.bind_eq_bind, Option.bind_some,
        hs', Option.pure_def]
    | some nset =>
      have hn := hset nset rfl
      by_cases heq : oset = nset
      . refine ⟨.success, s, ?_, h, .refl s⟩
        simp [ipcPsetMove, hactive, hpset, heq]
      . obtain ⟨s'', hs'', h'', hf'⟩ := ipcPsetAdd_spec h' nset (by rw [hsets]; exact hn)
          (by rw [hf.ipActive]; exact hactive) hnone
        refine ⟨.success, s'', ?_, h'', hf.trans hf'⟩
        simp [ipcPsetMove, hactive, hpset, heq, hn, hs', hs'']

end

end Ipc
