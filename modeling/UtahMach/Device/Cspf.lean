import UtahMach.Data.Loop

/-!
This module contains the packet filters that work on a stack: their parser and their run on a packet.
-/

namespace Device

open Function (update update_self update_of_ne)

abbrev FilterT := BitVec 16

def netMaxFilter : Nat := 128

def netHdwHdrMax : Nat := 64

namespace Cspf

def netFilterStackDepth : Nat := 32

def netfArg (word : FilterT) : Nat := (word &&& 0x3ff#16).toNat

def netfOp (word : FilterT) : Nat := ((word >>> 10) &&& 0x3f#16).toNat

inductive Argument where
  | nopush
  | pushlit
  | pushzero
  | pushind
  | pushhdrind
  | pushword (n : Nat)
  | pushhdr (n : Nat)
  | pushstk (n : Nat)
deriving DecidableEq, Repr

def argument (arg : Nat) : Argument :=
  match arg with
  | 0 => .nopush
  | 1 => .pushlit
  | 2 => .pushzero
  | 14 => .pushind
  | 15 => .pushhdrind
  | _ =>
    if 992 ≤ arg then .pushstk (arg - 992)
    else if 960 ≤ arg then .pushhdr (arg - 960)
    else .pushword ((arg + 2 ^ 32 - 16) % 2 ^ 32)

inductive Operator where
  | nop
  | binary (f : BitVec 32 → BitVec 32 → BitVec 32)
  | conditional (equal result : Bool)

def truth (b : Bool) : BitVec 32 := if b then 1 else 0

def operator : Nat → Option Operator
  | 0 => some .nop
  | 1 => some (.binary fun v arg => truth (v == arg))
  | 2 => some (.binary fun v arg => truth (v.ult arg))
  | 3 => some (.binary fun v arg => truth (v.ule arg))
  | 4 => some (.binary fun v arg => truth (arg.ult v))
  | 5 => some (.binary fun v arg => truth (arg.ule v))
  | 6 => some (.binary fun v arg => v &&& arg)
  | 7 => some (.binary fun v arg => v ||| arg)
  | 8 => some (.binary fun v arg => v ^^^ arg)
  | 9 => some (.conditional true true)
  | 10 => some (.conditional false false)
  | 11 => some (.conditional true false)
  | 12 => some (.conditional false true)
  | 13 => some (.binary fun v arg => truth (v != arg))
  | 14 => some (.binary fun v arg => v <<< (arg.toNat % 32))
  | 15 => some (.binary fun v arg => v.sshiftRight (arg.toNat % 32))
  | 16 => some (.binary fun v arg => v + arg)
  | 17 => some (.binary fun v arg => v - arg)
  | _ => none

def parseArgument (sp : Nat) : Argument → Option Nat
  | .nopush | .pushind | .pushhdrind => some sp
  | .pushzero | .pushlit | .pushword _ => some (sp - 1)
  | .pushstk n => if n + sp > netFilterStackDepth then none else some (sp - 1)
  | .pushhdr n => if n ≥ netHdwHdrMax / 2 then none else some (sp - 1)

def parseOperator (op sp : Nat) : Option Nat :=
  if sp < 2 then none
  else if op = 0 then some sp
  else if sp > netMaxFilter - 2 then none
  else if (operator op).isSome then some (sp + 1)
  else none

def parseFrom : Nat → List FilterT → Bool
  | _, [] => true
  | sp, word :: filter =>
    match (parseArgument sp (argument (netfArg word))).bind (parseOperator (netfOp word)) with
    | none => false
    | some sp =>
      match argument (netfArg word), filter with
      | .pushlit, [] => false
      | .pushlit, _ :: filter => parseFrom sp filter
      | _, filter => parseFrom sp filter

def parseNetFilter (filter : List FilterT) : Bool := parseFrom netFilterStackDepth filter

inductive Fault where
  | stack
  | unwritten
  | literal
  | packet
  | header
deriving DecidableEq, Repr

structure Packet where
  data : Nat → FilterT
  dataCount : Nat
  header : Nat → FilterT

def Packet.dataWord (p : Packet) (i : Nat) : Except Fault (BitVec 32) :=
  if 2 * i + 2 ≤ p.dataCount then .ok ((p.data i).setWidth 32) else .error .packet

def Packet.headerWord (p : Packet) (i : Nat) : Except Fault (BitVec 32) :=
  if 2 * i + 2 ≤ netHdwHdrMax then .ok ((p.header i).setWidth 32) else .error .header

structure State where
  stack : Nat → Option (BitVec 32)
  sp : Nat
  fp : List FilterT

def State.load (s : State) (i : Nat) : Except Fault (BitVec 32) :=
  if i ≤ netFilterStackDepth then
    match s.stack i with
    | none => .error .unwritten
    | some v => .ok v
  else .error .stack

def State.store (s : State) (i : Nat) (v : BitVec 32) : Except Fault State :=
  if i ≤ netFilterStackDepth then .ok { s with stack := update s.stack i (some v) } else .error .stack

def State.pop (s : State) : Except Fault (BitVec 32 × State) := do
  let v ← s.load s.sp
  .ok (v, { s with sp := s.sp + 1 })

def State.push (s : State) (v : BitVec 32) : Except Fault State :=
  if s.sp = 0 then .error .stack else { s with sp := s.sp - 1 }.store (s.sp - 1) v

def State.fetch (s : State) (p : Packet) : Argument → Except Fault (Option (BitVec 32 × State))
  | .nopush => do
    let (v, s) ← s.pop
    .ok (some (v, s))
  | .pushzero => .ok (some (0, s))
  | .pushlit =>
    match s.fp with
    | [] => .error .literal
    | word :: fp => .ok (some (word.setWidth 32, { s with fp := fp }))
  | .pushind => do
    let (i, s) ← s.pop
    if i.toNat ≥ p.dataCount / 2 then .ok none
    else
      let v ← p.dataWord i.toNat
      .ok (some (v, s))
  | .pushhdrind => do
    let (i, s) ← s.pop
    if i.toNat ≥ netHdwHdrMax / 2 then .ok none
    else
      let v ← p.headerWord i.toNat
      .ok (some (v, s))
  | .pushstk n => do
    let v ← s.load (s.sp + n)
    .ok (some (v, s))
  | .pushhdr n => do
    let v ← p.headerWord n
    .ok (some (v, s))
  | .pushword n =>
    if n ≥ p.dataCount / 2 then .ok none
    else do
      let v ← p.dataWord n
      .ok (some (v, s))

def State.operate (s : State) (op : Nat) (arg : BitVec 32) : Except Fault (State ⊕ Bool) :=
  match operator op with
  | none => .ok (.inl s)
  | some .nop => do
    let s ← s.push arg
    .ok (.inl s)
  | some (.binary f) => do
    let v ← s.load s.sp
    let s ← s.store s.sp (f v arg)
    .ok (.inl s)
  | some (.conditional equal result) => do
    let (v, s) ← s.pop
    if (v == arg) = equal then .ok (.inr result) else .ok (.inl s)

def body (p : Packet) : Loop.Body State Bool Fault := fun s =>
  match s.fp with
  | [] => do
    let v ← s.load s.sp
    .ok (.inr (v != 0))
  | word :: fp => do
    match ← { s with fp := fp }.fetch p (argument (netfArg word)) with
    | none => .ok (.inr false)
    | some (arg, s) => s.operate (netfOp word) arg

def start (filter : List FilterT) : State :=
  ⟨update (fun _ => none) netFilterStackDepth (some 1), netFilterStackDepth, filter⟩

def netDoFilter (p : Packet) (filter : List FilterT) : Except Fault (Option Bool) :=
  Loop.run (body p) (filter.length + 1) (start filter)

def Argument.pops : Argument → Nat
  | .nopush | .pushind | .pushhdrind => 1
  | _ => 0

def Argument.Finds (a : Argument) (sp : Nat) : Prop :=
  match a with
  | .nopush | .pushind | .pushhdrind => sp ≤ netFilterStackDepth
  | .pushstk n => sp + n ≤ netFilterStackDepth
  | _ => True

instance decidableArgumentFinds (sp : Nat) : (a : Argument) → Decidable (a.Finds sp)
  | .nopush | .pushind | .pushhdrind => inferInstanceAs (Decidable (sp ≤ netFilterStackDepth))
  | .pushstk n => inferInstanceAs (Decidable (sp + n ≤ netFilterStackDepth))
  | .pushlit | .pushzero | .pushword _ | .pushhdr _ => .isTrue trivial

def State.missing (s : State) (p : Packet) : Argument → Bool
  | .pushind => (s.stack s.sp).any fun i => decide (i.toNat ≥ p.dataCount / 2)
  | .pushhdrind => (s.stack s.sp).any fun i => decide (i.toNat ≥ netHdwHdrMax / 2)
  | .pushword n => decide (n ≥ p.dataCount / 2)
  | _ => false

def State.Finds (p : Packet) (s : State) : Prop :=
  match s.fp with
  | [] => s.sp ≤ netFilterStackDepth
  | word :: _ =>
    let a := argument (netfArg word)
    a.Finds s.sp ∧ (s.missing p a = false → netfOp word ≠ 0 → s.sp + a.pops ≤ netFilterStackDepth)

instance decidableFinds (p : Packet) : (s : State) → Decidable (s.Finds p)
  | ⟨_, sp, []⟩ => inferInstanceAs (Decidable (sp ≤ netFilterStackDepth))
  | ⟨stack, sp, word :: fp⟩ =>
    inferInstanceAs (Decidable ((argument (netfArg word)).Finds sp ∧
      (State.missing ⟨stack, sp, word :: fp⟩ p (argument (netfArg word)) = false →
        netfOp word ≠ 0 → sp + (argument (netfArg word)).pops ≤ netFilterStackDepth)))

def Argument.behind : Argument → List FilterT → List FilterT
  | .pushlit, fp => fp.tail
  | _, fp => fp

variable {p : Packet} {a : Argument} {word : FilterT} {fp filter : List FilterT} {s : State} {op sp sp' sp'' i : Nat}

theorem parseFrom_cons (h : parseFrom sp (word :: fp) = true)
    : ∃ sp' sp'', parseArgument sp (argument (netfArg word)) = some sp' ∧
        parseOperator (netfOp word) sp' = some sp'' ∧ (argument (netfArg word) = .pushlit → fp ≠ []) ∧
        parseFrom sp'' ((argument (netfArg word)).behind fp) = true := by
  rw [parseFrom] at h
  split at h
  . contradiction
  . next sp'' hparse =>
    obtain ⟨sp', harg, hop⟩ := Option.bind_eq_some_iff.1 hparse
    refine ⟨sp', sp'', harg, hop, ?_⟩
    cases ha : argument (netfArg word) with
    | pushlit =>
      rw [ha] at h
      cases fp with
      | nil => contradiction
      | cons l fp => exact ⟨fun _ => List.cons_ne_nil _ _, h⟩
    | _ =>
      rw [ha] at h
      exact ⟨nofun, h⟩

theorem parseArgument_eq (h : parseArgument sp a = some sp') (hsp : 2 ≤ sp') : sp' + 1 = sp + a.pops := by
  unfold parseArgument at h
  split at h
  all_goals
    try rw [Option.ite_none_left_eq_some] at h
    grind [Argument.pops]

theorem parseOperator_eq (h : parseOperator op sp = some sp')
    : 2 ≤ sp ∧ (op = 0 ∧ sp' = sp ∨ op ≠ 0 ∧ sp' = sp + 1 ∧ (operator op).isSome) := by
  unfold parseOperator at h
  grind

theorem operator_eq_nop_iff : operator op = some .nop ↔ op = 0 := by
  constructor
  . unfold operator
    split
    . exact fun _ => rfl
    all_goals exact nofun
  . rintro rfl
    rfl

theorem behind_length (a : Argument) (fp : List FilterT) : (a.behind fp).length ≤ fp.length := by
  unfold Argument.behind
  split
  . rw [List.length_tail]
    exact Nat.sub_le _ _
  . exact Nat.le_refl _

theorem load_error (s : State) (hi : netFilterStackDepth < i) : s.load i = .error .stack := if_neg (Nat.not_le.2 hi)

theorem pop_error (hi : netFilterStackDepth < s.sp) : s.pop = .error .stack := by
  rw [State.pop, load_error s hi]
  rfl

theorem dataWord_eq (hi : ¬ i ≥ p.dataCount / 2) : p.dataWord i = .ok ((p.data i).setWidth 32) := if_pos (by omega)

theorem headerWord_eq (hi : ¬ i ≥ netHdwHdrMax / 2) : p.headerWord i = .ok ((p.header i).setWidth 32) :=
  if_pos (by omega)

theorem guarded {missing : Prop} [Decidable missing] {x : Except Fault (BitVec 32)} (hx : ¬ missing → x = .ok v)
    : let y := if missing then .ok none else do let v ← x; .ok (some (v, s))
      decide missing = true ∧ y = .ok none ∨ decide missing = false ∧ ∃ arg, y = .ok (some (arg, s)) := by
  by_cases hi : missing
  . exact Or.inl ⟨decide_eq_true hi, if_pos hi⟩
  . refine Or.inr ⟨decide_eq_false hi, v, ?_⟩
    rw [if_neg hi, hx hi]
    rfl

def State.Written (s : State) : Prop := ∀ i, s.sp ≤ i → i ≤ netFilterStackDepth → ∃ v, s.stack i = some v

namespace State.Written

variable (h : s.Written)
include h

theorem load (hle : s.sp ≤ i) (hi : i ≤ netFilterStackDepth) : ∃ v, s.stack i = some v ∧ s.load i = .ok v := by
  obtain ⟨v, hv⟩ := h i hle hi
  refine ⟨v, hv, ?_⟩
  rw [State.load, if_pos hi, hv]

theorem pop (hi : s.sp ≤ netFilterStackDepth)
    : ∃ v, s.stack s.sp = some v ∧ s.pop = .ok (v, { s with sp := s.sp + 1 }) := by
  obtain ⟨v, hv, hload⟩ := h.load (Nat.le_refl _) hi
  refine ⟨v, hv, ?_⟩
  rw [State.pop, hload]
  rfl

theorem fetch (harg : parseArgument sp a = some sp') (hlit : a = .pushlit → s.fp ≠ []) (hfinds : a.Finds s.sp)
    : s.missing p a = true ∧ s.fetch p a = .ok none ∨ s.missing p a = false ∧
        ∃ arg, s.fetch p a = .ok (some (arg, ⟨s.stack, s.sp + a.pops, a.behind s.fp⟩)) := by
  cases a with
  | nopush =>
    obtain ⟨v, -, hv⟩ := h.pop hfinds
    refine Or.inr ⟨rfl, v, ?_⟩
    rw [State.fetch, hv]
    rfl
  | pushzero => exact Or.inr ⟨rfl, 0, rfl⟩
  | pushlit =>
    refine Or.inr ⟨rfl, ?_⟩
    rw [State.fetch]
    split
    . next heq => exact absurd heq (hlit rfl)
    . next l fp heq =>
      rw [heq]
      exact ⟨l.setWidth 32, rfl⟩
  | pushind =>
    obtain ⟨v, htop, hv⟩ := h.pop hfinds
    rw [State.fetch, State.missing, hv, htop, Option.any_some]
    exact guarded dataWord_eq
  | pushhdrind =>
    obtain ⟨v, htop, hv⟩ := h.pop hfinds
    rw [State.fetch, State.missing, hv, htop, Option.any_some]
    exact guarded headerWord_eq
  | pushword n => exact guarded dataWord_eq
  | pushhdr n =>
    rw [parseArgument, Option.ite_none_left_eq_some] at harg
    refine Or.inr ⟨rfl, (p.header n).setWidth 32, ?_⟩
    rw [State.fetch, headerWord_eq harg.1]
    rfl
  | pushstk n =>
    obtain ⟨v, -, hv⟩ := h.load (Nat.le_add_right s.sp n) hfinds
    refine Or.inr ⟨rfl, v, ?_⟩
    rw [State.fetch, hv]
    rfl

theorem store (hi : i ≤ netFilterStackDepth) (hsp : s.sp ≤ i + 1) (v : BitVec 32)
    : ∃ s', { s with sp := i }.store i v = .ok s' ∧ s'.sp = i ∧ s'.fp = s.fp ∧ s'.Written := by
  refine ⟨⟨update s.stack i (some v), i, s.fp⟩, if_pos hi, rfl, rfl, ?_⟩
  intro j hj hjd
  by_cases heq : j = i
  . refine ⟨v, ?_⟩
    subst heq
    exact update_self _ _ _
  . obtain ⟨w, hw⟩ := h j (by dsimp only at hj; omega) hjd
    exact ⟨w, (update_of_ne heq _ _).trans hw⟩

theorem operate (hop : parseOperator op sp = some sp') (hsp : sp + 1 ≤ s.sp) (htop : s.sp ≤ netFilterStackDepth + 1)
    (hfinds : op ≠ 0 → s.sp ≤ netFilterStackDepth) (arg : BitVec 32)
    : (∃ s', s.operate op arg = .ok (.inl s') ∧ sp' ≤ s'.sp ∧ s'.sp ≤ netFilterStackDepth + 1 ∧ s'.fp = s.fp ∧
        s'.Written) ∨ ∃ r, s.operate op arg = .ok (.inr r) := by
  obtain ⟨-, ⟨rfl, rfl⟩ | ⟨hne, rfl, hsome⟩⟩ := parseOperator_eq hop
  . obtain ⟨s', hstore, hs', hfp, hw⟩ := h.store (i := s.sp - 1) (by omega) (by omega) arg
    refine Or.inl ⟨s', ?_, by omega, by omega, hfp, hw⟩
    rw [State.operate, operator, State.push, if_neg (by omega), hstore]
    rfl
  . have hi := hfinds hne
    rw [State.operate]
    split
    . next heq =>
      rw [heq] at hsome
      contradiction
    . next heq => exact absurd (operator_eq_nop_iff.1 heq) hne
    . next f _ =>
      obtain ⟨v, -, hv⟩ := h.load (Nat.le_refl _) hi
      obtain ⟨s', hstore, hs', hfp, hw⟩ := h.store hi (by omega) (f v arg)
      refine Or.inl ⟨s', ?_, by omega, by omega, hfp, hw⟩
      rw [hv]
      show (s.store s.sp (f v arg) >>= _) = _
      rw [hstore]
      rfl
    . next equal result _ =>
      obtain ⟨v, -, hv⟩ := h.pop hi
      rw [hv]
      by_cases heq : (v == arg) = equal
      . exact Or.inr ⟨result, if_pos heq⟩
      . refine Or.inl ⟨{ s with sp := s.sp + 1 }, if_neg heq, by dsimp only; omega, by dsimp only; omega, rfl, ?_⟩
        intro j hj
        exact h j (Nat.le_of_succ_le hj)

end State.Written

theorem Argument.Finds.pops_le (h : a.Finds sp) (hsp : sp ≤ netFilterStackDepth + 1)
    : sp + a.pops ≤ netFilterStackDepth + 1 := by
  cases a with
  | nopush | pushind | pushhdrind => exact Nat.succ_le_succ h
  | _ => exact hsp

theorem fetch_error (h : ¬ a.Finds s.sp) : s.fetch p a = .error .stack := by
  cases a with
  | nopush | pushind | pushhdrind =>
    rw [State.fetch, pop_error (Nat.not_le.1 h)]
    rfl
  | pushstk n =>
    rw [State.fetch, load_error s (Nat.not_le.1 h)]
    rfl
  | _ => exact absurd trivial h

theorem operate_error (hop : parseOperator op sp = some sp') (hne : op ≠ 0) (hi : netFilterStackDepth < s.sp)
    (arg : BitVec 32) : s.operate op arg = .error .stack := by
  obtain ⟨-, ⟨heq, -⟩ | ⟨-, -, hsome⟩⟩ := parseOperator_eq hop
  . exact absurd heq hne
  . rw [State.operate]
    split
    . next heq =>
      rw [heq] at hsome
      contradiction
    . next heq => exact absurd (operator_eq_nop_iff.1 heq) hne
    . rw [load_error s hi]
      rfl
    . rw [pop_error hi]
      rfl

structure Holds (s : State) : Prop where
  accepted : ∃ sp, sp ≤ s.sp ∧ parseFrom sp s.fp = true
  top : s.sp ≤ netFilterStackDepth + 1
  written : s.Written

namespace Holds

variable (h : Holds s)
include h

theorem advances (hfinds : s.Finds p) : Loop.Advances (body p) Holds (·.fp.length) (fun _ => True) s := by
  obtain ⟨⟨sp, hle, haccepted⟩, htop, hw⟩ := h
  obtain ⟨stack, top, fp⟩ := s
  cases fp with
  | nil =>
    obtain ⟨v, -, hv⟩ := hw.load (Nat.le_refl _) hfinds
    refine Or.inr ⟨v != 0, ?_, trivial⟩
    dsimp only [body]
    rw [hv]
    rfl
  | cons word fp =>
    obtain ⟨sp', sp'', harg, hop, hlit, hrest⟩ := parseFrom_cons haccepted
    have hsp := parseArgument_eq harg (parseOperator_eq hop).1
    have hw' : State.Written ⟨stack, top, fp⟩ := hw
    obtain ⟨ha, hneed⟩ := hfinds
    obtain ⟨hmissing, hfetch⟩ | ⟨hmissing, arg, hfetch⟩ := hw'.fetch (p := p) harg hlit ha
    . refine Or.inr ⟨false, ?_, trivial⟩
      dsimp only [body]
      rw [hfetch]
      rfl
    . have hw1 : State.Written ⟨stack, top + (argument (netfArg word)).pops, (argument (netfArg word)).behind fp⟩ :=
        fun i hi => hw i (Nat.le_of_add_right_le hi)
      obtain ⟨s', heq, hle1, htop1, hfp, hw2⟩ | ⟨r, heq⟩ :=
        hw1.operate hop (by dsimp only at *; omega) (ha.pops_le htop) (hneed hmissing) arg
      . refine Or.inl ⟨s', ?_, ⟨⟨sp'', hle1, hfp ▸ hrest⟩, htop1, hw2⟩, ?_⟩
        . dsimp only [body]
          rw [hfetch]
          exact heq
        . dsimp only
          rw [hfp]
          exact Nat.lt_succ_of_le (behind_length _ _)
      . refine Or.inr ⟨r, ?_, trivial⟩
        dsimp only [body]
        rw [hfetch]
        exact heq

theorem faults (hfinds : ¬ s.Finds p) : ∃ e, body p s = .error e := by
  obtain ⟨⟨sp, -, haccepted⟩, -, hw⟩ := h
  obtain ⟨stack, top, fp⟩ := s
  refine ⟨.stack, ?_⟩
  cases fp with
  | nil =>
    dsimp only [body]
    rw [load_error _ (Nat.not_le.1 hfinds)]
    rfl
  | cons word fp =>
    obtain ⟨sp', sp'', harg, hop, hlit, -⟩ := parseFrom_cons haccepted
    have hw' : State.Written ⟨stack, top, fp⟩ := hw
    dsimp only [body]
    by_cases ha : (argument (netfArg word)).Finds top
    . obtain ⟨hmissing, -⟩ | ⟨-, arg, hfetch⟩ := hw'.fetch (p := p) harg hlit ha
      . refine absurd ⟨ha, fun hnot => ?_⟩ hfinds
        exact absurd (hmissing.symm.trans hnot) Bool.noConfusion
      . rw [hfetch]
        have hlt : netfOp word ≠ 0 ∧ netFilterStackDepth < top + (argument (netfArg word)).pops := by
          apply Classical.byContradiction
          intro hnot
          refine hfinds ⟨ha, fun _ hne => ?_⟩
          exact Nat.not_lt.1 fun hlt => hnot ⟨hne, hlt⟩
        exact operate_error hop hlt.1 hlt.2 arg
    . rw [fetch_error ha]
      rfl

end Holds

theorem start_holds (h : parseNetFilter filter = true) : Holds (start filter) := by
  refine ⟨⟨netFilterStackDepth, Nat.le_refl _, h⟩, Nat.le_succ _, ?_⟩
  intro i hi hle
  cases Nat.le_antisymm hi hle
  exact ⟨1, rfl⟩

theorem netDoFilter_inside_iff (p : Packet) (filter : List FilterT) (h : parseNetFilter filter = true)
    : (∃ r, netDoFilter p filter = .ok (some r)) ↔
        ∀ s ∈ Loop.states (body p) (filter.length + 1) (start filter), s.Finds p :=
  Loop.run_returns_iff (fun _ hs => hs.faults) (fun _ hfinds hs => hs.advances hfinds) (start_holds h)
    (Nat.lt_succ_self _)

def ipPacket : Packet := ⟨fun i => if i = 6 then 0x0800 else 0, 28, fun _ => 0⟩

def ipOnly : List FilterT := [0x0016, 0x0401, 0x0800, 0x1800]

theorem netDoFilter_inside_ipOnly : ∃ r, netDoFilter ipPacket ipOnly = .ok (some r) :=
  (netDoFilter_inside_iff ipPacket ipOnly (by decide)).2 (by decide)

theorem netDoFilter_nopush : parseNetFilter [0x1800#16] = true ∧ ∀ p, netDoFilter p [0x1800#16] = .error .stack :=
  ⟨by decide, fun _ => rfl⟩

end Cspf

end Device
