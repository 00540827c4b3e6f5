import UtahMach.Ipc.Mqueue.Receive

/-!
This module contains the functions that wake senders up.
-/

namespace Ipc

open MqState (wake)

open MqState
open Function (update update_eq_self update_of_ne update_self)

variable {start : Nat → Nat} {s : MqState} {p sender : Nat}

theorem Sends.unique {t p p' : Nat} (h : s.Sends t p) (h' : s.Sends t p') : p = p' := by
  obtain ⟨kmsg, always, timeOut, ha, hp⟩ := h
  obtain ⟨kmsg', always', timeOut', ha', hp'⟩ := h'
  rw [ha] at ha'
  cases ha'
  exact hp.symm.trans hp'

theorem MqInv.not_woken (h : MqInv start s noFlight) (hmem : sender ∈ (s.ports p).ipBlocked) : sender ∉ s.woken p := by
  rintro ⟨-, hstate⟩
  rw [(h.blocked p sender hmem).2] at hstate
  contradiction

theorem MqInv.first_blocked (h : MqInv start s noFlight) (hb : (s.ports p).ipBlocked = sender :: senders)
    : sender ∈ (s.ports p).ipBlocked ∧ s.Sends sender p := by
  have hmem : sender ∈ (s.ports p).ipBlocked := hb ▸ List.mem_cons_self
  exact ⟨hmem, (h.blocked p sender hmem).1⟩

theorem MqInv.wakeSender (h : MqInv start s noFlight) (hb : (s.ports p).ipBlocked = sender :: senders) (port : MqPort)
    (ha : port.ipActive = (s.ports p).ipActive) (hset : port.ipPset = (s.ports p).ipPset)
    (hseq : port.ipSeqno = (s.ports p).ipSeqno) (hb' : port.ipBlocked = senders)
    : MqInv start ((s.setPort p port).wake sender .success) noFlight := by
  have hnodup := h.blocked_nodup p
  rw [hb, List.nodup_cons] at hnodup
  obtain ⟨hmem, hsends⟩ := h.first_blocked hb
  have h1 : MqInv start (s.setPort p port) noFlight := by
    refine h.setPort p port ha hset hseq (fun t ht => h.blocked p t ?_) ?_
    . rw [hb]
      exact List.mem_cons_of_mem _ (hb' ▸ ht)
    . rw [hb']
      exact hnodup.2
  apply h1.setFree (Sends.not_receives hsends)
  . intro p' ht
    by_cases heq : p' = p
    . subst heq
      rw [setPort_ports, update_self, hb'] at ht
      exact hnodup.1 ht
    . exact heq (Sends.unique (h1.blocked p' sender ht).1 hsends)
  . rintro ⟨q, maxSize, timeOut, hact⟩
    rw [setThread_threads, update_self] at hact
    exact Sends.not_receives hsends ⟨q, maxSize, timeOut, hact⟩

theorem wake_sends (port : MqPort) (state : IthState) (t p' : Nat)
    : ((s.setPort p port).wake sender state).Sends t p' ↔ s.Sends t p' := by
  unfold Sends wake
  by_cases heq : t = sender
  . subst heq
    simp
  . simp [update_of_ne heq]

theorem wake_receives (port : MqPort) (state : IthState) (t : Nat)
    : ((s.setPort p port).wake sender state).Receives t ↔ s.Receives t := by
  unfold Receives wake
  by_cases heq : t = sender
  . subst heq
    simp
  . simp [update_of_ne heq]

theorem woken_wake (port : MqPort) (hs : s.Sends sender p)
    : ((s.setPort p port).wake sender .success).woken p = insert sender (s.woken p) := by
  ext t
  unfold MqState.woken
  rw [Set.mem_insert_iff, Set.mem_ofPred_eq, Set.mem_ofPred_eq, wake_sends]
  by_cases heq : t = sender
  . subst heq
    simp [wake, hs]
  . simp [wake, heq]

theorem woken_wake_of_ne (port : MqPort) (hs : s.Sends sender p) (hne : p' ≠ p)
    : ((s.setPort p port).wake sender .success).woken p' = s.woken p' := by
  ext t
  unfold MqState.woken
  rw [Set.mem_ofPred_eq, Set.mem_ofPred_eq, wake_sends]
  by_cases heq : t = sender
  . subst heq
    have hnot : ¬ s.Sends t p' := fun hs' => hne (Sends.unique hs' hs)
    simp [hnot]
  . simp [wake, update_of_ne heq]

structure WokeSenders (start : Nat → Nat) (p : Nat) (rest : List Nat) (n : Nat) (s s' : MqState)
    : Prop where
  inv : MqInv start s' noFlight
  ports : s'.ports = update s.ports p { s.ports p with ipBlocked := rest }
  woken : (s'.woken p).encard = (s.woken p).encard + n
  others : ∀ p', p' ≠ p → s'.woken p' = s.woken p'
  counted : MsgsCounted s → MsgsCounted s'

theorem inHand_wake (port : MqPort) (hs : s.Sends sender p) (t : Nat)
    : ((s.setPort p port).wake sender .success).inHand t = s.inHand t := by
  by_cases heq : t = sender
  . subst heq
    obtain ⟨kmsg, always, timeOut, ha, -⟩ := hs
    simp [inHand, wake, ha]
  . exact inHand_eq (update_of_ne heq _ _)

theorem wakeSenders_spec (senders rest : List Nat) (s : MqState) (h : MqInv start s noFlight)
    (hb : (s.ports p).ipBlocked = senders ++ rest)
    : WokeSenders start p rest senders.length s (wakeSenders p senders s) := by
  induction senders generalizing s with
  | nil =>
    refine ⟨h, ?_, by simp [wakeSenders], fun _ _ => rfl, id⟩
    rw [List.nil_append] at hb
    rw [← hb]
    exact (update_eq_self p s.ports).symm
  | cons sender senders ih =>
    obtain ⟨hmem, hsends⟩ := h.first_blocked hb
    have htail : (s.ports p).ipBlocked.tail = senders ++ rest := by rw [hb, List.cons_append, List.tail_cons]
    have h1 := h.wakeSender hb { s.ports p with ipBlocked := (s.ports p).ipBlocked.tail }
      rfl rfl rfl htail
    have hports : ((s.setPort p
        { s.ports p with ipBlocked := (s.ports p).ipBlocked.tail }).wake sender .success).ports p =
        { s.ports p with ipBlocked := (s.ports p).ipBlocked.tail } := by
      simp [wake]
    obtain ⟨hinv, hp, hw, ho, hcounted⟩ := ih _ h1 (by rw [hports]; exact htail)
    refine ⟨hinv, ?_, ?_, fun p' hne => ?_, fun hc => hcounted ?_⟩
    . unfold wakeSenders
      rw [hp, hports]
      simp [wake]
    . unfold wakeSenders
      rw [hw, woken_wake _ hsends, Set.encard_insert_of_notMem (h.not_woken hmem), List.length_cons, Nat.cast_add,
        Nat.cast_one, add_assoc, add_comm (1 : ℕ∞)]
    . unfold wakeSenders
      rw [ho p' hne, woken_wake_of_ne _ hsends hne]
    . have hc1 := hc.setPort p { s.ports p with ipBlocked := (s.ports p).ipBlocked.tail } id rfl
      exact hc1.setThread (inHand_wake _ hsends sender)

theorem counted_ports {port : MqPort} (hcount : 0 < (s.ports p).ipMsgcount)
    (ha : port.ipActive = (s.ports p).ipActive) (hm : port.ipMsgcount = (s.ports p).ipMsgcount - 1)
    (p' : Nat) (hactive : (update s.ports p port p').ipActive = true) : (s.ports p').ipActive = true ∧
      (s.ports p').ipMsgcount = (update s.ports p port p').ipMsgcount + if p = p' then 1 else 0 := by
  by_cases heq : p' = p
  . subst heq
    rw [update_self] at hactive ⊢
    rw [if_pos rfl, hm]
    exact ⟨ha ▸ hactive, by omega⟩
  . rw [update_of_ne heq] at hactive ⊢
    rw [if_neg (Ne.symm heq)]
    exact ⟨hactive, rfl⟩

/-- A receiver that has finished with its message is no longer counted. -/
theorem MsgsCounted.finish {t : Nat} {kmsg : Msg} (h : MsgsCounted s) (hin : s.inHand t = some kmsg)
    (hports : ∀ p, (s'.ports p).ipActive = true → (s.ports p).ipActive = true ∧
      (s.ports p).ipMsgcount = (s'.ports p).ipMsgcount + if kmsg.msghRemotePort = p then 1 else 0)
    (hlog : s'.log = s.log) (hnone : s'.inHand t = none) (hother : ∀ t', t' ≠ t → s'.inHand t' = s.inHand t')
    : MsgsCounted s' := by
  intro p hactive
  obtain ⟨hactive, hcount⟩ := hports p hactive
  have hold := h p hactive
  have hholders : s'.holders p = s.holders p \ {t} := by
    ext t'
    unfold holders
    by_cases heq : t' = t
    . subst heq
      simp [hnone]
    . simp [hother t' heq, heq]
  have hreceived : s'.received p = s.received p := by rw [received, hlog, received]
  have haccepted : s'.accepted p = s.accepted p := by rw [accepted, hlog, accepted]
  rw [hholders, hreceived, haccepted]
  rw [hcount] at hold
  by_cases hp : kmsg.msghRemotePort = p
  . have hmem : t ∈ s.holders p := ⟨kmsg, hin, hp⟩
    rw [if_pos hp, ← Set.encard_sdiff_singleton_add_one hmem, Nat.cast_add, Nat.cast_one, add_right_comm,
      ← add_assoc] at hold
    exact ENat.add_left_injective_of_ne_top ENat.one_ne_top hold
  . have hmem : t ∉ s.holders p := by
      rintro ⟨kmsg', hk, hp'⟩
      rw [hin] at hk
      cases hk
      exact hp hp'
    rw [if_neg hp, Nat.add_zero] at hold
    rw [Set.sdiff_singleton_eq_self hmem]
    exact hold

section

variable (h : MqInv start s noFlight)
include h

theorem finish_spec (hb : blocked = (s.ports p).ipBlocked)
    (hfull : blocked ≠ [] → (s.ports p).ipQlimit ≤ (s.ports p).ipMsgcount - 1)
    (hs' : s' = s.setPort p { s.ports p with ipMsgcount := (s.ports p).ipMsgcount - 1, ipBlocked := blocked })
    : MqInv start s' noFlight ∧ (NoLostWakeup s → NoLostWakeup s') := by
  subst hb hs'
  refine ⟨h.setPort p _ rfl rfl rfl (h.blocked p) (h.blocked_nodup p), fun hw p' hactive hne => ?_⟩
  by_cases heq : p' = p
  . subst heq
    rw [setPort_ports, update_self] at hne ⊢
    have hle : ((s.ports p').ipQlimit : ℕ∞) ≤ ((s.ports p').ipMsgcount - 1 : ℕ) := by
      exact_mod_cast hfull hne
    exact hle.trans le_self_add
  . rw [setPort_ports, update_of_ne heq] at hactive hne ⊢
    exact hw p' hactive hne

theorem finishWake_spec (hcount : 0 < (s.ports p).ipMsgcount) (hb : (s.ports p).ipBlocked = sender :: senders)
    (hs' : s' = (s.setPort p
      { s.ports p with ipMsgcount := (s.ports p).ipMsgcount - 1, ipBlocked := senders }).wake sender .success)
    : MqInv start s' noFlight ∧ (NoLostWakeup s → NoLostWakeup s') := by
  subst hs'
  obtain ⟨hmem, hsends⟩ := h.first_blocked hb
  refine ⟨h.wakeSender hb _ rfl rfl rfl rfl, fun hw p' hactive hne => ?_⟩
  have hports : ((s.setPort p
      { s.ports p with
        ipMsgcount := (s.ports p).ipMsgcount - 1
        ipBlocked := senders }).wake sender .success).ports = update s.ports p
      { s.ports p with ipMsgcount := (s.ports p).ipMsgcount - 1, ipBlocked := senders } := rfl
  rw [hports] at hactive hne ⊢
  by_cases heq : p' = p
  . subst heq
    rw [update_self] at hactive hne ⊢
    rw [woken_wake _ hsends, Set.encard_insert_of_notMem (h.not_woken hmem)]
    have hold := hw p' hactive (by rw [hb]; exact List.cons_ne_nil _ _)
    have hone : ((s.ports p').ipMsgcount : ℕ∞) = ((s.ports p').ipMsgcount - 1 : ℕ) + 1 := by
      exact_mod_cast (Nat.succ_pred_eq_of_pos hcount).symm
    rw [hone, add_assoc, add_comm (1 : ℕ∞)] at hold
    exact hold
  . rw [update_of_ne heq] at hactive hne ⊢
    rw [woken_wake_of_ne _ hsends heq]
    exact hw p' hactive hne

theorem leaveFree_spec {t : Nat} (hr : ¬ s.Receives t) (hs : ∀ p, ¬ s.Sends t p) (mr : MsgReturn)
    : MqInv start (s.leave t mr) noFlight ∧ (NoLostWakeup s → NoLostWakeup (s.leave t mr)) :=
  ⟨h.leave mr hr fun p hmem => hs p (h.blocked p t hmem).1, fun hw =>
    hw.idleStep (fun p hm => hs p hm.1) (OwnStep.leave s t mr) fun _ => SameSenders.refl _⟩

theorem receiveFinish_spec {t : Nat} (hs : receiveFinish t s = some s')
    : Settles start s s' := by
  unfold receiveFinish at hs
  cases ha : (s.threads t).activity with
  | returned | sending | receiving => simp [ha] at hs
  | finishing kmsg seqno =>
    have hreceives : ¬ s.Receives t := by
      rintro ⟨q, maxSize, timeOut, ha'⟩
      rw [ha] at ha'
      contradiction
    have hsends : ∀ p, ¬ s.Sends t p := by
      rintro p ⟨kmsg', always, timeOut, ha', -⟩
      rw [ha] at ha'
      contradiction
    have hhand : s.inHand t = some kmsg := by simp [inHand, ha]
    have hleft : ∀ s1 : MqState, (s1.leave t (.received kmsg seqno)).inHand t = none := fun s1 => by
      simp [inHand, MqState.leave]
    have hothers : ∀ s1 : MqState, ∀ t', t' ≠ t → (s1.leave t (.received kmsg seqno)).inHand t' = s1.inHand t' :=
      fun s1 t' hne => inHand_eq (update_of_ne hne _ _)
    simp only [ha] at hs
    by_cases hactive : (s.ports kmsg.msghRemotePort).ipActive = true
    . simp only [if_pos hactive] at hs
      obtain ⟨hcount, hs⟩ := assert_bind_eq_some.1 hs
      cases hb : (s.ports kmsg.msghRemotePort).ipBlocked with
      | nil =>
        simp only [hb] at hs
        obtain rfl := Option.some.inj hs
        obtain ⟨h1, hw1⟩ := finish_spec h hb.symm (fun hne => absurd rfl hne) rfl
        obtain ⟨h2, hw2⟩ := leaveFree_spec h1 hreceives hsends (.received kmsg seqno)
        exact ⟨h2, fun hc => hc.finish hhand (counted_ports hcount rfl rfl) rfl (hleft _) (hothers _), hw2 ∘ hw1⟩
      | cons sender senders =>
        simp only [hb] at hs
        by_cases hroom : (s.ports kmsg.msghRemotePort).ipMsgcount - 1 < (s.ports kmsg.msghRemotePort).ipQlimit
        . simp only [if_pos hroom] at hs
          obtain rfl := Option.some.inj hs
          obtain ⟨h1, hw1⟩ := finishWake_spec h hcount hb rfl
          obtain ⟨h2, hw2⟩ := leaveFree_spec h1 (by rw [wake_receives]; exact hreceives)
            (fun p => by rw [wake_sends]; exact hsends p) (.received kmsg seqno)
          refine ⟨h2, fun hc => hc.finish hhand (counted_ports hcount rfl rfl) rfl (hleft _)
            fun t' hne => ?_, hw2 ∘ hw1⟩
          rw [hothers _ t' hne]
          exact inHand_wake _ (h.first_blocked hb).2 t'
        . simp only [if_neg hroom] at hs
          obtain rfl := Option.some.inj hs
          obtain ⟨h1, hw1⟩ := finish_spec h hb.symm (fun _ => not_lt.mp hroom) rfl
          obtain ⟨h2, hw2⟩ := leaveFree_spec h1 hreceives hsends (.received kmsg seqno)
          exact ⟨h2, fun hc => hc.finish hhand (counted_ports hcount rfl rfl) rfl (hleft _) (hothers _), hw2 ∘ hw1⟩
    . simp only [if_neg hactive] at hs
      obtain rfl := Option.some.inj hs
      obtain ⟨h1, hw1⟩ := leaveFree_spec h hreceives hsends (.received kmsg seqno)
      refine ⟨h1, fun hc => hc.finish hhand (fun p hp => ⟨hp, ?_⟩) rfl (hleft _) (hothers _), hw1⟩
      rw [if_neg]
      . rfl
      . rintro rfl
        exact hactive hp

theorem MsgsCounted.msgcount (hc : MsgsCounted s) (hactive : (s.ports p).ipActive = true)
    : ((s.ports p).ipMsgcount : ℕ∞) = (s.queuedIn (s.home p) p).length + (s.holders p).encard := by
  have hold := hc p hactive
  rw [h.fifo p hactive, noFlight, List.append_nil, List.length_append, List.length_map, Nat.cast_add, add_assoc,
    add_comm] at hold
  exact ENat.add_right_injective_of_ne_top (ENat.coe_ne_top _) hold

theorem receiveFinish_eq_some (hc : MsgsCounted s) {t : Nat} (ha : (s.threads t).activity = .finishing kmsg seqno)
    : ∃ s', receiveFinish t s = some s' := by
  unfold receiveFinish
  simp only [ha]
  by_cases hactive : (s.ports kmsg.msghRemotePort).ipActive = true
  . have hholds : t ∈ s.holders kmsg.msghRemotePort := ⟨kmsg, by simp [inHand, ha], rfl⟩
    have hcount : 0 < (s.ports kmsg.msghRemotePort).ipMsgcount := by
      have hone : (1 : ℕ∞) ≤ (s.ports kmsg.msghRemotePort).ipMsgcount := by
        rw [MsgsCounted.msgcount h hc hactive]
        exact (Set.one_le_encard_iff_nonempty.mpr ⟨t, hholds⟩).trans le_add_self
      exact_mod_cast hone
    simp only [if_pos hactive, assert, if_pos hcount]
    cases (s.ports kmsg.msghRemotePort).ipBlocked with
    | nil => exact ⟨_, rfl⟩
    | cons sender senders =>
      by_cases hroom : (s.ports kmsg.msghRemotePort).ipMsgcount - 1 < (s.ports kmsg.msghRemotePort).ipQlimit
      . exact ⟨_, if_pos hroom⟩
      . exact ⟨_, if_neg hroom⟩
  . exact ⟨_, if_neg hactive⟩

theorem ipcPortSetQlimit_spec (hs : ipcPortSetQlimit p qlimit s = some s')
    : Settles start s s' := by
  unfold ipcPortSetQlimit at hs
  obtain ⟨hactive, hs⟩ := assert_bind_eq_some.1 hs
  obtain rfl := Option.some.inj hs
  have hwoke := wakeSenders_spec ((s.ports p).ipBlocked.take (qlimit - (s.ports p).ipQlimit))
    ((s.ports p).ipBlocked.drop (qlimit - (s.ports p).ipQlimit)) s h (List.take_append_drop _ _).symm
  generalize wakeSenders p ((s.ports p).ipBlocked.take (qlimit - (s.ports p).ipQlimit)) s = s1 at hwoke
  have hport : s1.ports p =
      { s.ports p with
        ipBlocked := (s.ports p).ipBlocked.drop (qlimit - (s.ports p).ipQlimit) } := by
    rw [hwoke.ports, update_self]
  refine ⟨hwoke.inv.setPort p _ rfl rfl rfl (hwoke.inv.blocked p) (hwoke.inv.blocked_nodup p),
    fun hc => (hwoke.counted hc).setPort p _ id rfl, ?_⟩
  intro hw p' hactive' hne
  by_cases heq : p' = p
  . subst heq
    have hwoken : (s1.setPort p' { s1.ports p' with ipQlimit := qlimit }).woken p' = s1.woken p' := rfl
    rw [hwoken, hwoke.woken]
    rw [setPort_ports, update_self, hport] at hne ⊢
    have hlen : qlimit - (s.ports p').ipQlimit < (s.ports p').ipBlocked.length := by
      by_contra hle
      exact hne (List.drop_eq_nil_of_le (not_lt.mp hle))
    have hold : ((s.ports p').ipQlimit : ℕ∞) ≤
        (s.ports p').ipMsgcount + (s.woken p').encard := by
      refine hw p' hactive fun hnil => ?_
      rw [hnil, List.drop_nil] at hne
      exact hne rfl
    rw [List.length_take, min_eq_left hlen.le]
    calc (qlimit : ℕ∞)
      _ ≤ ((s.ports p').ipQlimit + (qlimit - (s.ports p').ipQlimit) : ℕ) := by
        exact_mod_cast le_add_tsub
      _ = (s.ports p').ipQlimit + (qlimit - (s.ports p').ipQlimit : ℕ) := by push_cast; rfl
      _ ≤ ((s.ports p').ipMsgcount + (s.woken p').encard) +
          (qlimit - (s.ports p').ipQlimit : ℕ) := add_le_add_left hold _
      _ = _ := add_assoc _ _ _
  . have hsame : s1.ports p' = s.ports p' := by rw [hwoke.ports, update_of_ne heq]
    have hwoken : (s1.setPort p { s1.ports p with ipQlimit := qlimit }).woken p' = s.woken p' := hwoke.others p' heq
    rw [hwoken]
    rw [setPort_ports, update_of_ne heq, hsame] at hactive' hne ⊢
    exact hw p' hactive' hne

end

variable {destroyed : List Msg}

theorem destroyed_filterMap {f : MsgEvent → Option α} (hf : ∀ m, f (.destroyed m) = none)
    (log : List MsgEvent) (msgs : List Msg) : (log ++ msgs.map MsgEvent.destroyed).filterMap f = log.filterMap f := by
  rw [List.filterMap_append, List.filterMap_map]
  have hnone : f ∘ MsgEvent.destroyed = fun _ => none := funext hf
  rw [hnone, List.filterMap_none, List.append_nil]

theorem MqInv.destroy (h : MqInv start s noFlight) (hb : (s.ports p).ipBlocked = [])
    (hports : s'.ports = update s.ports p { s.ports p with ipActive := false, kernel := false, ipSeqno := 0 })
    (hqueues : s'.queues = update s.queues (.port p)
      { s.queues (.port p) with imqMessages := [] })
    (hthreads : s'.threads = s.threads) (hlog : s'.log = s.log ++ destroyed.map .destroyed)
    : MqInv start s' noFlight := by
  have hne : ∀ p', (s'.ports p').ipActive = true → p' ≠ p := by
    rintro p' hactive rfl
    simp [hports] at hactive
  have hother : ∀ p', p' ≠ p → s'.ports p' = s.ports p' := by
    intro p' hne
    rw [hports, update_of_ne hne]
  have hqt : ∀ q, (s'.queues q).imqThreads = (s.queues q).imqThreads := by
    rw [hqueues]
    exact update_part Mqueue.imqThreads (by rfl)
  have hsub : ∀ q, (s'.queues q).imqMessages.Sublist (s.queues q).imqMessages := by
    intro q
    by_cases heq : q = .port p
    . rw [hqueues, heq, update_self]
      exact List.nil_sublist _
    . rw [hqueues, update_of_ne heq]
  have hhome : ∀ p', p' ≠ p → s'.home p' = s.home p' := by
    intro p' hne
    unfold MqState.home
    rw [hother p' hne]
  have hnot : ∀ p', p' ≠ p → s.home p' ≠ .port p := by
    intro p' hne hc
    unfold MqState.home at hc
    split at hc
    . cases hc
      exact hne rfl
    . cases hc
  have hqueued : ∀ p', p' ≠ p → s'.queuedIn (s.home p') p' = s.queuedIn (s.home p') p' := by
    intro p' hne
    unfold queuedIn
    rw [hqueues, update_of_ne (hnot p' hne)]
  have hacc : ∀ p', s'.accepted p' = s.accepted p' := fun p' => by
    rw [accepted, hlog, destroyed_filterMap fun _ => rfl, accepted]
  have hrec : ∀ p', s'.received p' = s.received p' := fun p' => by
    rw [received, hlog, destroyed_filterMap fun _ => rfl, received]
  have hblocked : ∀ p', (s'.ports p').ipBlocked = (s.ports p').ipBlocked := by
    rw [hports]
    exact update_part MqPort.ipBlocked (by rfl)
  refine h.shrink (fun q => hqt q ▸ .refl _) hsub hblocked ?_ (fun _ p' hp' _ => hhome p' (hne p' hp'))
    (fun _ _ _ => by rw [hthreads]) (fun _ _ _ => by rw [hthreads]) ?_ ?_ ?_
  . intro p' hactive
    rwa [hother p' (hne p' hactive)] at hactive
  . intro p' hactive
    have hp' := hne p' hactive
    rw [hother p' hp'] at hactive
    rw [hacc, hrec, hhome p' hp', hqueued p' hp']
    exact h.fifo p' hactive
  . intro p' hactive
    have hp' := hne p' hactive
    rw [hother p' hp'] at hactive ⊢
    rw [hrec]
    exact h.seqno p' hactive
  . intro t
    have hgiven : s'.receivedBy t = s.receivedBy t := by
      rw [receivedBy, hlog, destroyed_filterMap fun _ => rfl, receivedBy]
    have hpick : s'.pickedBy t = s.pickedBy t := by
      rw [pickedBy, hlog, destroyed_filterMap fun _ => rfl, pickedBy]
    have hpend : s'.pending t = s.pending t := by
      unfold MqState.pending
      rw [hthreads]
    rw [hgiven, hpick, hpend]
    exact h.picked t

theorem MsgsCounted.destroy (h : MsgsCounted s)
    (hports : ∀ p', (s'.ports p').ipActive = true → s'.ports p' = s.ports p')
    (hthreads : s'.threads = s.threads) (hlog : s'.log = s.log ++ destroyed.map .destroyed) : MsgsCounted s' := by
  refine h.congr (fun p' hp' => ?_) (fun p' => ?_) (fun p' => ?_) fun t => inHand_eq (congrFun hthreads t)
  . have heq := hports p' hp'
    rw [heq] at hp' ⊢
    exact ⟨hp', rfl⟩
  . rw [accepted, hlog, destroyed_filterMap fun _ => rfl, accepted]
  . rw [received, hlog, destroyed_filterMap fun _ => rfl, received]

theorem clearReceiver_spec (h : MqInv start s noFlight) (hactive : (s.ports p).ipActive = true)
    : ∃ s', clearReceiver p s = some s' ∧ MqInv start s' noFlight ∧ RcvFrame s s' := by
  unfold clearReceiver
  cases hpset : (s.ports p).ipPset with
  | none =>
    obtain ⟨h', hd⟩ := h.changed (.port p) .rcvPortDied (by simp)
    exact ⟨_, rfl, h', RcvFrame.of_delivery hd⟩
  | some pset =>
    obtain ⟨s', heq, h', hf, -⟩ := ipcPsetRemove_spec h pset hactive hpset
    exact ⟨s', heq, h', hf⟩

theorem portDestroy_spec (h : MqInv start s noFlight) (hs : portDestroy p s = some s')
    : Settles start s s' := by
  unfold portDestroy at hs
  obtain ⟨hactive, hs⟩ := assert_bind_eq_some.1 hs
  obtain ⟨s1, heq, h1, hf⟩ := clearReceiver_spec h hactive
  simp only [heq] at hs
  obtain rfl := Option.some.inj hs
  have hwoke := wakeSenders_spec (s1.ports p).ipBlocked [] s1 h1 (List.append_nil _).symm
  generalize wakeSenders p (s1.ports p).ipBlocked s1 = s2 at hwoke
  have hport : (s2.ports p).ipBlocked = [] := by
    rw [hwoke.ports, update_self]
  refine ⟨hwoke.inv.destroy hport rfl rfl rfl rfl, fun hc => ?_, fun hw p' hactive' hne => ?_⟩
  . refine (hwoke.counted (hf.counted hc)).destroy (fun p' hp' => update_of_ne ?_ _ _) rfl rfl
    rintro rfl
    simp at hp'
  have hp' : p' ≠ p := by
    rintro rfl
    simp at hactive'
  have hsame : s2.ports p' = s1.ports p' := by rw [hwoke.ports, update_of_ne hp']
  rw [setQueue_ports, setPort_ports, update_of_ne hp', hsame] at hactive' hne ⊢
  have hw1 := hw.frame hf p' hactive' hne
  rw [← hwoke.others p' hp'] at hw1
  exact hw1

end Ipc
