import UtahMach.Ipc.Kmsg.Clean

/-!
This module contains what `ipc_kmsg_copyin_body` acquires, item by item.
-/

namespace Ipc

open Function

open KmsgM

section Log

def copiedIn (log : List KmsgEvent) : List (Nat × Nat) :=
  log.filterMap fun
    | .copyin object name =>
      if ioValid object then (ipcObjectCopyinType name).map (object, ·) else none
    | _ => none

def destroyed (log : List KmsgEvent) : List (Nat × Nat) :=
  log.filterMap fun
    | .destroy object name => some (object, name)
    | _ => none

def acquired (log : List KmsgEvent) : List Memo :=
  log.filterMap fun
    | .kalloc addr => some (.kernel addr)
    | .mapCopyin c => some (.copy c)
    | _ => none

def freed (log : List KmsgEvent) : List Memo :=
  log.filterMap fun
    | .kfree addr => some (.kernel addr)
    | .mapDiscard c => some (.copy c)
    | _ => none

def visits (w : Walker) (log : List KmsgEvent) : List Visit :=
  log.filterMap fun
    | .visit w' v => if w' = w then some v else none
    | _ => none

variable (log log' : List KmsgEvent)

@[simp]
theorem copiedIn_append : copiedIn (log ++ log') = copiedIn log ++ copiedIn log' := List.filterMap_append ..

@[simp]
theorem destroyed_append : destroyed (log ++ log') = destroyed log ++ destroyed log' := List.filterMap_append ..

@[simp]
theorem acquired_append : acquired (log ++ log') = acquired log ++ acquired log' := List.filterMap_append ..

@[simp]
theorem freed_append : freed (log ++ log') = freed log ++ freed log' := List.filterMap_append ..

@[simp]
theorem visits_append (w : Walker) : visits w (log ++ log') = visits w log ++ visits w log' := List.filterMap_append ..

structure OnlyCopyin (evs : List KmsgEvent) : Prop where
  destroyed : destroyed evs = []
  acquired : acquired evs = []
  freed : freed evs = []
  visits : ∀ w, visits w evs = []

theorem OnlyCopyin.nil : OnlyCopyin [] := ⟨rfl, rfl, rfl, fun _ => rfl⟩

theorem OnlyCopyin.cons (h : OnlyCopyin evs) (object name : Nat) : OnlyCopyin (.copyin object name :: evs) :=
  { h with }

end Log

variable {s : KmsgState} {objects : Objects}

@[simp]
theorem slot?_calls (s : KmsgState) (calls : Nat) (log : List KmsgEvent) (circular : Bool) (objects : Objects) (i : Nat)
    : ({ s with calls := calls, log := log, circular := circular } : KmsgState).slot? objects i =
        s.slot? objects i := by
  cases objects <;> rfl

structure CopiedSlots (newname : Nat) (objects : Objects) (n k i : Nat) (s s' : KmsgState)
    (r : Option Nat) (objs : List Nat) : Prop where
  frame : SlotFrame objects n s s'
  before : ∀ j, j < i → s'.slot? objects j = s.slot? objects j
  calls : s.calls ≤ s'.calls
  stop : ∀ j, r = some j → i ≤ j ∧ j < i + k
  length : objs.length = k
  slots : ∀ j, j < k → s'.slot? objects (i + j) = objs[j]?
  log : ∃ evs, s'.log = s.log ++ evs ∧ OnlyCopyin evs ∧
    copiedIn evs = ((objs.take (r.getD (i + k) - i)).filter ioValid).map (·, newname)

theorem ioValid_of_machPortValid (w : Nat) : ioValid w = machPortValid w := rfl

theorem CopiedSlots.cons {newname n k i w : Nat} (h : CopiedSlots newname objects n k (i + 1) s1 s' r objs)
    (hframe : SlotFrame objects n s s1)
    (hbefore : ∀ j, j < i → s1.slot? objects j = s.slot? objects j)
    (hw : s1.slot? objects i = some w) (hcalls : s.calls ≤ s1.calls)
    (hlog : ∃ evs, s1.log = s.log ++ evs ∧ OnlyCopyin evs ∧ copiedIn evs = ([w].filter ioValid).map (·, newname))
    : CopiedSlots newname objects n (k + 1) i s s' r (w :: objs) where
  frame := hframe.trans h.frame
  before := by
    intro j hj
    rw [h.before j (by omega)]
    exact hbefore j hj
  calls := Nat.le_trans hcalls h.calls
  stop := by
    intro j hj
    have := h.stop j hj
    omega
  length := by rw [List.length_cons, h.length]
  slots := by
    intro j hj
    cases j with
    | zero =>
      rw [Nat.add_zero, h.before i (by omega)]
      exact hw
    | succ j =>
      have heq : i + (j + 1) = i + 1 + j := by omega
      rw [heq, h.slots j (by omega), List.getElem?_cons_succ]
  log := by
    obtain ⟨evs, hevs, honly, hcopied⟩ := hlog
    obtain ⟨evs', hevs', honly', hcopied'⟩ := h.log
    refine ⟨evs ++ evs', by rw [hevs', hevs, List.append_assoc], ?_, ?_⟩
    . constructor
      . rw [destroyed_append, honly.destroyed, honly'.destroyed]
        rfl
      . rw [acquired_append, honly.acquired, honly'.acquired]
        rfl
      . rw [freed_append, honly.freed, honly'.freed]
        rfl
      . intro w'
        rw [visits_append, honly.visits, honly'.visits]
        rfl
    . have hstop : r.getD (i + (k + 1)) - i = (r.getD (i + 1 + k) - (i + 1)) + 1 := by
        cases hr : r with
        | none =>
          simp only [Option.getD_none]
          omega
        | some j =>
          have := h.stop j hr
          simp only [Option.getD_some]
          omega
      rw [copiedIn_append, hcopied, hcopied', hstop, List.take_succ_cons, ← List.map_append, ← List.filter_append]
      rfl

theorem run_checkCircularity (env : Env) (newname : Nat) (s : KmsgState)
    : ∃ calls circular, (checkCircularity env newname).run s =
        .ok ((), { s with calls := calls, circular := circular }) ∧ s.calls ≤ calls := by
  unfold checkCircularity
  split
  . rw [run_call]
    split
    . exact ⟨s.calls + 1, true, rfl, Nat.le_succ _⟩
    . exact ⟨s.calls + 1, s.circular, rfl, Nat.le_succ _⟩
  . exact ⟨s.calls, s.circular, rfl, Nat.le_refl _⟩

theorem run_copyinSlots_taken (env : Env) {objects : Objects} {i w object : Nat} (name newname k n : Nat)
    (hw : s.slot? objects i = some w) (hvalid : machPortValid w = true) (hobj : env.objectCopyin s.calls = some object)
    : ∃ s2, (copyinSlots env name newname objects (k + 1) i).run s =
          (copyinSlots env name newname objects k (i + 1)).run (s2.setSlot objects i object) ∧
        (∀ j, s2.slot? objects j = s.slot? objects j) ∧ SlotFrame objects n s s2 ∧ s.calls ≤ s2.calls ∧
        s2.log = s.log ++ [.copyin object name] := by
  rw [copyinSlots, run_readSlot hw, if_pos hvalid, run_call, hobj]
  rw [run_emit _]
  generalize hs1 : ({ s with calls := s.calls + 1, log := s.log ++ [.copyin object name] } : KmsgState) = s1
  obtain ⟨calls, circular, hcirc, hcalls⟩ := run_checkCircularity env newname s1
  rw [run_bind_ok hcirc]
  subst hs1
  have hslot := slot?_calls s calls (s.log ++ [.copyin object name]) circular objects
  refine ⟨_, run_bind_ok (run_writeSlot ((hslot i).trans hw) object), hslot, ?_, ?_, rfl⟩
  . exact ⟨rfl, fun _ _ => rfl, fun _ _ => rfl, fun _ => rfl⟩
  . exact Nat.le_trans (Nat.le_succ _) hcalls

theorem run_copyinSlots (env : Env) (objects : Objects) {name newname : Nat}
    (hname : ipcObjectCopyinType name = some newname) (n k i : Nat) (hn : i + k ≤ n)
    (hin : ∀ j, i ≤ j → j < i + k → (s.slot? objects j).isSome)
    : ∃ r s' objs, (copyinSlots env name newname objects k i).run s = .ok (r, s') ∧
        CopiedSlots newname objects n k i s s' r objs ∧ ((∀ c, (env.objectCopyin c).isSome) → r = none) := by
  induction k generalizing s i with
  | zero =>
    refine ⟨none, s, [], rfl, ⟨.refl _ _ _, fun _ _ => rfl, Nat.le_refl _, by simp, rfl, by simp, [],
      ?_, .nil, ?_⟩, fun _ => rfl⟩
    . rw [List.append_nil]
    . simp [copiedIn]
  | succ k ih =>
    obtain ⟨w, hw⟩ := Option.isSome_iff_exists.mp (hin i (by omega) (by omega))
    cases hvalid : machPortValid w with
    | false =>
      rw [copyinSlots, run_readSlot hw, hvalid]
      obtain ⟨r, s', objs, hrun, hcopied, hsuccess⟩ := ih (i + 1) (by omega)
        (fun j hj hj' => hin j (by omega) (by omega))
      refine ⟨r, s', w :: objs, hrun, hcopied.cons (.refl _ _ _) (fun _ _ => rfl) hw (Nat.le_refl _) ?_, hsuccess⟩
      refine ⟨[], by rw [List.append_nil], .nil, ?_⟩
      rw [← ioValid_of_machPortValid] at hvalid
      simp [hvalid, copiedIn]
    | true =>
      cases hobj : env.objectCopyin s.calls with
      | none =>
        -- The element is refused, and all elements stay as they are.
        rw [copyinSlots, run_readSlot hw, if_pos hvalid, run_call, hobj]
        refine ⟨some i, { s with calls := s.calls + 1 },
          (List.range' i (k + 1)).map (fun j => (s.slot? objects j).getD 0), rfl, ?_, ?_⟩
        rotate_left
        . intro hsome
          have := hsome s.calls
          simp [hobj] at this
        refine ⟨⟨rfl, fun _ _ => rfl, fun _ _ => rfl, fun _ => rfl⟩, ?_, Nat.le_succ _, ?_, by simp, ?_,
          [], ?_, .nil, ?_⟩
        . intro j _
          exact slot?_calls s _ s.log s.circular objects j
        . intro j hj
          cases hj
          omega
        . intro j hj
          obtain ⟨v, hv⟩ := Option.isSome_iff_exists.mp (hin (i + j) (by omega) (by omega))
          have hstay := slot?_calls s (s.calls + 1) s.log s.circular objects (i + j)
          rw [hstay, hv, List.getElem?_map, List.getElem?_range' (by omega)]
          simp [hv]
        . rw [List.append_nil]
        . simp [copiedIn]
      | some object =>
        obtain ⟨s2, hstep, hslot2, hframe, hcalls, hlog⟩ :=
          run_copyinSlots_taken env name newname k n hw hvalid hobj
        rw [hstep]
        have hw2 : s2.slot? objects i = some w := by rw [hslot2, hw]
        have hself := slot?_setSlot_self (v := object) hw2
        have hother : ∀ j, j ≠ i → (s2.setSlot objects i object).slot? objects j =
            s.slot? objects j := by
          intro j hj
          rw [slot?_setSlot_of_ne hj, hslot2]
        obtain ⟨r, s', objs, hrun, hcopied, hsuccess⟩ := ih (i + 1) (by omega)
          (s := s2.setSlot objects i object) (by
            intro j hj hj'
            rw [hother j (by omega)]
            exact hin j (by omega) (by omega))
        refine ⟨r, s', object :: objs, hrun, hcopied.cons ?_ ?_ hself ?_ ?_, hsuccess⟩
        . exact hframe.trans (.setSlot (by omega))
        . intro j hj
          exact hother j (by omega)
        . cases objects <;> exact hcalls
        . refine ⟨[.copyin object name], ?_, OnlyCopyin.nil.cons _ _, ?_⟩
          . rw [← hlog]
            cases objects <;> rfl
          . cases hv : ioValid object <;> simp [copiedIn, hv, hname]

structure Env.Succeeds (env : Env) : Prop where
  kalloc : ∀ c, env.kalloc c = c + 1
  copyinmap : ∀ c, (env.copyinmap c).isSome
  vmDeallocate : ∀ c, env.vmDeallocate c = true
  vmMapCopyin : ∀ c, (env.vmMapCopyin c).isSome
  objectCopyin : ∀ c, (env.objectCopyin c).isSome

def KmsgState.Below (s : KmsgState) : Prop := ∀ a, s.heap a ≠ none → a ≤ s.calls

structure CopiedMemory (type : MsgType) (s s' : KmsgState) (r : Option Nat) : Prop where
  body : s'.body = s.body
  calls : s.calls ≤ s'.calls
  log : ∃ evs, s'.log = s.log ++ evs ∧ copiedIn evs = [] ∧ destroyed evs = [] ∧
    (∀ w, visits w evs = []) ∧
    match r with
    | none => s'.heap = s.heap ∧ acquired evs = freed evs
    | some data => freed evs = [] ∧
      if type.length = 0 then data = 0 ∧ s'.heap = s.heap ∧ acquired evs = []
      else if type.isPort then
        data ≠ 0 ∧ s.heap data = none ∧ acquired evs = [.kernel data] ∧
          ∃ word, s'.heap = Function.update s.heap data (some ⟨type.length / 4, word⟩)
      else s'.heap = s.heap ∧ acquired evs = [.copy data]

section Memory

variable {type : MsgType} {s : KmsgState} {data calls : Nat} {word : Nat → Nat}

def KmsgState.holding (s : KmsgState) (data words : Nat) (word : Nat → Nat) (calls : Nat) : KmsgState :=
  {
    s with
    calls := calls
    heap := update s.heap data (some ⟨words, word⟩)
    log := s.log ++ [.kalloc data]
  }

theorem run_kalloc (env : Env) (words : Nat) (s : KmsgState)
    : (kalloc env words).run s =
        if env.kalloc s.calls = 0 ∨ (s.heap (env.kalloc s.calls)).isSome then .ok (0, { s with calls := s.calls + 1 })
        else .ok (env.kalloc s.calls, s.holding (env.kalloc s.calls) words (fun _ => 0) (s.calls + 1)) := by
  rw [kalloc, run_call, run_get]
  dsimp only
  split
  . rfl
  . rfl

theorem KmsgState.run_kfree_holding (hnone : s.heap data = none)
    : (kfree data words).run (s.holding data words word calls) =
        .ok ((), { s with calls := calls, log := s.log ++ [.kalloc data, .kfree data] }) := by
  have hback : update s.heap data none = s.heap := update_eq_self_iff.mpr hnone.symm
  rw [run_kfree (b := ⟨words, word⟩) (update_self ..) rfl]
  simp only [holding, update_idem, hback, List.append_assoc, List.cons_append, List.nil_append]

theorem run_call_holding {f : Nat → KmsgM α}
    : (call >>= f).run (s.holding data words word calls) = (f calls).run (s.holding data words word (calls + 1)) := rfl

theorem run_store_holding {f : Unit → KmsgM α}
    : (modify (fun s => { s with heap := update s.heap data (some ⟨words, word'⟩) }) >>= f).run
        (s.holding data words word calls) = (f ()).run (s.holding data words word' calls) := by
  apply run_bind_ok
  rw [run_modify]
  simp only [KmsgState.holding, update_idem]

theorem KmsgState.Below.holding {env : Env} (hb : s.Below) (henv : env.Succeeds) (hle : s.calls < calls)
    : (s.holding (env.kalloc s.calls) words word calls).Below := by
  intro a ha
  show a ≤ calls
  rw [henv.kalloc] at ha
  by_cases heq : a = s.calls + 1
  . omega
  . simp only [KmsgState.holding, update_of_ne heq] at ha
    have := hb a ha
    omega

theorem CopiedMemory.holding (hlen : type.length ≠ 0) (hport : type.isPort = true) (hne : data ≠ 0)
    (hnone : s.heap data = none) (hle : s.calls ≤ calls)
    : CopiedMemory type s (s.holding data (type.length / 4) word calls) (some data) := by
  refine ⟨rfl, hle, [.kalloc data], rfl, rfl, rfl, fun _ => rfl, rfl, ?_⟩
  rw [if_neg hlen, hport]
  exact ⟨hne, hnone, rfl, word, rfl⟩

theorem CopiedMemory.freed (hle : s.calls ≤ calls) : CopiedMemory type s
    { s with calls := calls, log := s.log ++ [.kalloc data, .kfree data] } none :=
  ⟨rfl, hle, [.kalloc data, .kfree data], rfl, rfl, rfl, fun _ => rfl, rfl, rfl⟩

theorem CopiedMemory.called : CopiedMemory type s { s with calls := s.calls + 1 } none :=
  ⟨rfl, Nat.le_succ _, [], (List.append_nil _).symm, rfl, rfl, fun _ => rfl, rfl, rfl⟩

theorem run_copyinMemory (env : Env) (type : MsgType) (s : KmsgState)
    : ∃ r s', (copyinMemory env type).run s = .ok (r, s') ∧ CopiedMemory type s s' r ∧
        (env.Succeeds → s.Below → r ≠ none ∧ s'.Below) := by
  unfold copyinMemory
  by_cases hlen : type.length = 0
  . rw [if_pos hlen]
    refine ⟨some 0, s, rfl, ⟨rfl, Nat.le_refl _, [], by rw [List.append_nil], rfl, rfl, fun _ => rfl,
      rfl, ?_⟩, fun _ hb => ⟨by simp, hb⟩⟩
    rw [if_pos hlen]
    exact ⟨rfl, rfl, rfl⟩
  rw [if_neg hlen]
  cases hport : type.isPort with
  | false =>
    simp only [Bool.false_eq_true, if_false]
    rw [run_call]
    cases hcopy : env.vmMapCopyin s.calls with
    | none =>
      refine ⟨none, { s with calls := s.calls + 1 }, rfl, .called, ?_⟩
      intro henv _
      have := henv.vmMapCopyin s.calls
      simp [hcopy] at this
    | some c =>
      refine ⟨some c, { s with calls := s.calls + 1, log := s.log ++ [.mapCopyin c] }, rfl, ⟨rfl,
        Nat.le_succ _, [.mapCopyin c], rfl, rfl, rfl, fun _ => rfl, rfl, ?_⟩, ?_⟩
      . rw [if_neg hlen, hport]
        exact ⟨rfl, rfl⟩
      . intro _ hb
        exact ⟨by simp, fun a ha => Nat.le_succ_of_le (hb a ha)⟩
  | true =>
    simp only [if_true]
    have hkalloc := run_kalloc env (type.length / 4) s
    split at hkalloc
    . next hfail =>
      rw [run_bind_ok hkalloc, if_pos rfl]
      refine ⟨none, { s with calls := s.calls + 1 }, rfl, .called, ?_⟩
      intro henv hb
      rw [henv.kalloc] at hfail
      rcases hfail with hzero | hsome
      . omega
      . have := hb (s.calls + 1) (by simpa [Option.isSome_iff_ne_none] using hsome)
        omega
    . next hfail =>
      simp only [not_or, Option.not_isSome_iff_eq_none] at hfail
      obtain ⟨hne, hnone⟩ := hfail
      rw [run_bind_ok hkalloc, if_neg hne, run_call_holding]
      cases hcopy : env.copyinmap (s.calls + 1) with
      | none =>
        rw [run_bind_ok (KmsgState.run_kfree_holding hnone)]
        refine ⟨none, _, rfl, .freed (by omega), ?_⟩
        intro henv _
        have := henv.copyinmap (s.calls + 1)
        simp [hcopy] at this
      | some word =>
        rw [run_store_holding]
        cases hdealloc : type.deallocate with
        | false =>
          refine ⟨_, _, rfl, .holding hlen hport hne hnone (by omega), ?_⟩
          exact fun henv hb => ⟨by simp, hb.holding henv (by omega)⟩
        | true =>
          simp only [if_true]
          rw [run_call_holding]
          split
          . refine ⟨_, _, rfl, .holding hlen hport hne hnone (by omega), ?_⟩
            exact fun henv hb => ⟨by simp, hb.holding henv (by omega)⟩
          . next hno =>
            rw [run_bind_ok (KmsgState.run_kfree_holding hnone)]
            refine ⟨none, _, rfl, .freed (by omega), ?_⟩
            exact fun henv _ => absurd (henv.vmDeallocate _) hno

end Memory

end Ipc
