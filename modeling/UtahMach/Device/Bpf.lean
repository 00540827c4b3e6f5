import UtahMach.Device.Cspf

/-!
This module contains the Berkeley packet filters: their check and their run on a packet.
-/

namespace Device

def netRcvMax : Nat := 4095

namespace Bpf

open Function (update)

abbrev Word := BitVec 32

structure Insn where
  code : Nat
  jt : Nat
  jf : Nat
  k : Word
deriving DecidableEq, Repr

structure Program where
  insns : List Insn
  bytes : Nat
  length_eq : insns.length = bytes / 8

def bpfMemwords : Nat := 16

def bpfDlbase : Word := 1#32 <<< 30

def nNetHashKeys : Nat := 4

def netHashSize : Nat := 256

def bpfClass (code : Nat) : Nat := code &&& 7

def bpfOp (code : Nat) : Nat := code &&& 0xf0

inductive Fault where
  | program
  | scratch
  | packet
  | header
  | division
deriving DecidableEq, Repr

def usesMem (code : Nat) : Bool := bpfClass code == 2 || (bpfClass code == 0 && code &&& 0xe0 == 0x60)

def insnOk (len i : Nat) (p : Insn) : Bool :=
  (bpfClass p.code != 5 ||
    if bpfOp p.code = 0 then (BitVec.ofNat 32 (i + 1) + p.k).slt (BitVec.ofNat 32 len)
    else i + 1 + p.jt < len && i + 1 + p.jf < len) &&
  (!usesMem p.code || (p.k.toInt < bpfMemwords && 0 ≤ p.k.toInt)) &&
  (p.code != 0x34 || p.k != 0)

def validateFrom (len : Nat) : Nat → Nat → Bool → List Insn → Option Bool
  | _, _, matched, [] => some matched
  | i, keys + 1, matched, p :: rest =>
    if p.code = 0x17 then validateFrom len (i + 1) keys matched rest else none
  | i, 0, matched, p :: rest =>
    if insnOk len i p = false then none
    else if p.code = 0x1e then
      if matched = true ∨ p.jt = 0 ∨ p.jt > nNetHashKeys ∨ i + p.jt + 1 > len then none
      else validateFrom len (i + 1) p.jt true rest
    else validateFrom len (i + 1) 0 matched rest

def bpfValidate (f : Program) : Except Fault Nat :=
  match validateFrom f.insns.length 1 0 false f.insns.tail with
  | none => .ok 0
  | some matched =>
    match f.insns.getLast? with
    | none => .error .program
    | some p => .ok (if bpfClass p.code = 6 then if matched then 2 else 1 else 0)

inductive Size where
  | w
  | h
  | b
deriving DecidableEq, Repr

namespace Size

def bytes : Size → Nat
  | .w => 4
  | .h => 2
  | .b => 1

def extract (b : Nat → BitVec 8) (k : Nat) : Size → Word
  | .w => b k ++ b (k + 1) ++ b (k + 2) ++ b (k + 3)
  | .h => (b k ++ b (k + 1)).setWidth 32
  | .b => (b k).signExtend 32

def inside (size : Size) (k : Word) (max : Nat) : Bool :=
  match size with
  | .b => k.toNat < max
  | _ => (k.toNat + size.bytes) % 2 ^ 32 ≤ max

def read (size : Size) (b : Nat → BitVec 8) (max : Nat) (fault : Fault) (k : Word) : Except Fault Word :=
  if k.toNat + size.bytes ≤ max then .ok (size.extract b k.toNat) else .error fault

def wraps (size : Size) (k : Word) : Bool := size != .b && 2 ^ 32 ≤ k.toNat + size.bytes

end Size

inductive Op where
  | ret (a : Bool)
  | retMatch
  | abs (size : Size)
  | ind (size : Size)
  | msh
  | len (x : Bool)
  | imm (x : Bool)
  | mem (x : Bool)
  | st (x : Bool)
  | ja
  | jump (test : Word → Word → Bool) (x : Bool)
  | alu (f : Word → Word → Word) (x : Bool)
  | div (x : Bool)
  | neg
  | tax
  | txa

def decode : Nat → Option Op
  | 0x06 => some (.ret false)
  | 0x16 => some (.ret true)
  | 0x1e => some .retMatch
  | 0x20 => some (.abs .w)
  | 0x28 => some (.abs .h)
  | 0x30 => some (.abs .b)
  | 0x80 => some (.len false)
  | 0x81 => some (.len true)
  | 0x40 => some (.ind .w)
  | 0x48 => some (.ind .h)
  | 0x50 => some (.ind .b)
  | 0xb1 => some .msh
  | 0x00 => some (.imm false)
  | 0x01 => some (.imm true)
  | 0x60 => some (.mem false)
  | 0x61 => some (.mem true)
  | 0x02 => some (.st false)
  | 0x03 => some (.st true)
  | 0x05 => some .ja
  | 0x25 => some (.jump (fun a k => k.ult a) false)
  | 0x35 => some (.jump (fun a k => k.ule a) false)
  | 0x15 => some (.jump (fun a k => a == k) false)
  | 0x45 => some (.jump (fun a k => a &&& k != 0) false)
  | 0x2d => some (.jump (fun a x => x.ult a) true)
  | 0x3d => some (.jump (fun a x => x.ule a) true)
  | 0x1d => some (.jump (fun a x => a == x) true)
  | 0x4d => some (.jump (fun a x => a &&& x != 0) true)
  | 0x0c => some (.alu (· + ·) true)
  | 0x1c => some (.alu (· - ·) true)
  | 0x2c => some (.alu (· * ·) true)
  | 0x3c => some (.div true)
  | 0x5c => some (.alu (· &&& ·) true)
  | 0x4c => some (.alu (· ||| ·) true)
  | 0x6c => some (.alu (fun a x => a <<< (x.toNat % 32)) true)
  | 0x7c => some (.alu (fun a x => a >>> (x.toNat % 32)) true)
  | 0x04 => some (.alu (· + ·) false)
  | 0x14 => some (.alu (· - ·) false)
  | 0x24 => some (.alu (· * ·) false)
  | 0x34 => some (.div false)
  | 0x54 => some (.alu (· &&& ·) false)
  | 0x44 => some (.alu (· ||| ·) false)
  | 0x64 => some (.alu (fun a k => a <<< (k.toNat % 32)) false)
  | 0x74 => some (.alu (fun a k => a >>> (k.toNat % 32)) false)
  | 0x84 => some .neg
  | 0x07 => some .tax
  | 0x87 => some .txa
  | _ => none

structure NetHashEntry where
  keys : Nat → Word

structure Input where
  rcvPort : Option Nat
  nKeys : Nat
  table : Nat → List NetHashEntry
  packet : Nat → BitVec 8
  wirelen : Word
  header : Nat → BitVec 8

abbrev Outcome := Word × Option NetHashEntry

def bpfHash (n : Nat) (keys : Nat → Word) : Nat :=
  ((List.range n).foldl (fun hval i => hval + keys i) 0#32).toNat % netHashSize

def Input.bpfMatch (u : Input) (nKeys : Nat) (keys : Nat → Word) : Except Fault (Option NetHashEntry) :=
  if nKeys ≠ u.nKeys then .ok none
  else if nKeys > bpfMemwords then .error .scratch
  else .ok ((u.table (bpfHash nKeys keys)).find? fun entp => (List.range nKeys).all fun i => keys i == entp.keys i)

def Input.cut (u : Input) (k : Word) : Word := if k.toNat ≤ u.wirelen.toNat then k else u.wirelen

structure State where
  pc : Nat
  a : Word
  x : Word
  mem : Nat → Word

namespace State

def next (s : State) : Except Fault (State ⊕ Outcome) := .ok (.inl { s with pc := s.pc + 1 })

def reject : Except Fault (State ⊕ Outcome) := .ok (.inr (0, none))

def put (s : State) (x : Bool) (v : Word) : State := { s with a := if x then s.a else v, x := if x then v else s.x }

def source (s : State) (p : Insn) (x : Bool) : Word := if x then s.x else p.k

def step (len : Nat) (u : Input) (s : State) (p : Insn) : Op → Except Fault (State ⊕ Outcome)
  | .ret a => .ok (.inr (if u.rcvPort = none then 0 else u.cut (if a then s.a else p.k), none))
  | .retMatch => do
    match ← u.bpfMatch p.jt s.mem with
    | none => reject
    | some entp => .ok (.inr (u.cut p.k, some entp))
  | .abs size =>
    if size.inside p.k netRcvMax then do
      let v ← size.read u.packet netRcvMax .packet p.k
      (s.put false v).next
    else if size.inside (p.k - bpfDlbase) netHdwHdrMax then do
      let v ← size.read u.header netHdwHdrMax .header (p.k - bpfDlbase)
      (s.put false v).next
    else reject
  | .ind size =>
    if size.inside (s.x + p.k) netRcvMax then do
      let v ← size.read u.packet netRcvMax .packet (s.x + p.k)
      (s.put false v).next
    else reject
  | .msh =>
    if Size.b.inside p.k netRcvMax then do
      let v ← Size.b.read u.packet netRcvMax .packet p.k
      (s.put true ((v &&& 0xf) <<< 2)).next
    else reject
  | .len x => (s.put x u.wirelen).next
  | .imm x => (s.put x p.k).next
  | .mem x => if p.k.toNat < bpfMemwords then (s.put x (s.mem p.k.toNat)).next else .error .scratch
  | .st x =>
    if p.k.toNat < bpfMemwords then { s with mem := update s.mem p.k.toNat (if x then s.x else s.a) }.next
    else .error .scratch
  | .ja =>
    let target : Int := s.pc + 1 + p.k.toInt
    if 0 ≤ target ∧ target ≤ len then .ok (.inl { s with pc := target.toNat }) else .error .program
  | .jump test x => .ok (.inl { s with pc := s.pc + (if test s.a (s.source p x) then p.jt else p.jf) + 1 })
  | .alu f x => (s.put false (f s.a (s.source p x))).next
  | .div x =>
    if s.source p x = 0 then if x then reject else .error .division
    else (s.put false (s.a / s.source p x)).next
  | .neg => (s.put false (-s.a)).next
  | .tax => (s.put true s.a).next
  | .txa => (s.put false s.x).next

end State

def body (f : Program) (u : Input) : Loop.Body State Outcome Fault := fun s =>
  if f.bytes ≤ 8 * s.pc then State.reject
  else
    match f.insns[s.pc]? with
    | none => .error .program
    | some p =>
      match decode p.code with
      | none => State.reject
      | some op => s.step f.insns.length u p op

def bpfDoFilter (f : Program) (u : Input) (a x : Word) (mem : Nat → Word) : Except Fault (Option Outcome) :=
  Loop.run (body f u) f.insns.length ⟨1, a, x, mem⟩

def State.MeetsOp (len : Nat) (s : State) (p : Insn) : Op → Prop
  | .ja => 0 ≤ p.k.toInt ∧ s.pc + 1 + p.k.toInt < len
  | .mem true | .st true => p.k.toNat < bpfMemwords
  | .abs size => size.wraps p.k = false ∧ size.wraps (p.k - bpfDlbase) = false
  | .ind size => size.wraps (s.x + p.k) = false
  | _ => True

def State.Meets (f : Program) (s : State) : Prop :=
  ∀ p ∈ f.insns[s.pc]?, ∀ op ∈ decode p.code, s.MeetsOp f.insns.length p op

variable {f : Program} {u : Input} {s : State} {p : Insn} {op : Op} {rest : List Insn} {len i keys r code max : Nat}
  {matched matched' : Bool} {size : Size} {k : Word} {b : Nat → BitVec 8} {fault : Fault}

theorem read_eq (h : size.inside k max = true) (hwraps : size.wraps k = false)
    : size.read b max fault k = .ok (size.extract b k.toNat) := by
  apply if_pos
  cases size with
  | b => exact of_decide_eq_true h
  | w | h =>
    have hk := of_decide_eq_true h
    have hlt := of_decide_eq_false hwraps
    omega

theorem cut_le (k : Word) : (u.cut k).toNat ≤ u.wirelen.toNat := by
  unfold Input.cut
  split
  . assumption
  . exact Nat.le_refl _

theorem bpfMatch_eq (h : keys ≤ nNetHashKeys) (mem : Nat → Word) : ∃ entp, u.bpfMatch keys mem = .ok entp := by
  unfold Input.bpfMatch
  split
  . exact ⟨_, rfl⟩
  . exact ⟨_, if_neg (Nat.not_lt.2 (Nat.le_trans h (by decide)))⟩

def Op.coded (code : Nat) : Op → Bool
  | .ret _ => true
  | .retMatch => code == 0x1e
  | .mem false | .st false => bpfClass code != 6 && usesMem code
  | .jump _ _ => bpfClass code == 5 && bpfOp code != 0
  | .div false => bpfClass code != 6 && code == 0x34
  | _ => bpfClass code != 6

theorem decode_coded (h : decode code = some op) : op.coded code = true := by
  unfold decode at h
  split at h
  case h_47 => contradiction
  all_goals
    cases h
    rfl

structure Checked (len i : Nat) (p : Insn) : Prop where
  jump : bpfClass p.code = 5 → bpfOp p.code ≠ 0 → i + 1 + p.jt < len ∧ i + 1 + p.jf < len
  mem : usesMem p.code = true → p.k.toNat < bpfMemwords
  div : p.code = 0x34 → p.k ≠ 0
  keys : p.code = 0x1e → p.jt ≤ nNetHashKeys

theorem insnOk_checked (h : insnOk len i p = true) (hkeys : p.code = 0x1e → p.jt ≤ nNetHashKeys) : Checked len i p := by
  simp only [insnOk, Bool.and_eq_true, Bool.or_eq_true, bne_iff_ne, Bool.not_eq_true'] at h
  obtain ⟨⟨hjump, hmem⟩, hdiv⟩ := h
  refine ⟨fun hclass hop => ?_, fun huses => ?_, fun hcode => ?_, hkeys⟩
  . have hin := hjump.resolve_left (absurd hclass)
    rw [if_neg hop, Bool.and_eq_true, decide_eq_true_iff, decide_eq_true_iff] at hin
    exact hin
  . rw [huses] at hmem
    have hk := hmem.resolve_left nofun
    rw [decide_eq_true_iff, decide_eq_true_iff, BitVec.toInt_eq_toNat_cond] at hk
    split at hk
    . omega
    . omega
  . exact hdiv.resolve_left (absurd hcode)

theorem validateFrom_cons (h : validateFrom len i keys matched (p :: rest) = some matched')
    : (p.code = 0x17 ∨ Checked len i p) ∧
      ∃ keys matched, validateFrom len (i + 1) keys matched rest = some matched' := by
  cases keys with
  | zero =>
    rw [validateFrom] at h
    split at h
    . contradiction
    . next hok =>
      have hchecked := insnOk_checked (eq_true_of_ne_false hok)
      split at h
      . split at h
        . contradiction
        . exact ⟨Or.inr (hchecked fun _ => by omega), _, _, h⟩
      . next hcode => exact ⟨Or.inr (hchecked fun heq => absurd heq hcode), _, _, h⟩
  | succ keys =>
    rw [validateFrom] at h
    split at h
    . next hcode => exact ⟨Or.inl hcode, _, _, h⟩
    . contradiction

theorem validateFrom_checked {j : Nat} (h : validateFrom len i keys matched rest = some matched')
    (hp : rest[j]? = some p) : p.code = 0x17 ∨ Checked len (i + j) p := by
  induction rest generalizing i keys matched j with
  | nil => contradiction
  | cons q rest ih =>
    obtain ⟨hq, keys, matched, h⟩ := validateFrom_cons h
    cases j with
    | zero => exact Option.some.inj hp ▸ hq
    | succ j =>
      rw [← Nat.add_assoc, Nat.add_right_comm]
      exact ih h hp

def Good (len : Nat) (u : Input) (s : State) : Except Fault (State ⊕ Outcome) → Prop
  | .ok (.inl s') => s.pc < s'.pc ∧ s'.pc < len
  | .ok (.inr v) => v.1.toNat ≤ u.wirelen.toNat
  | .error _ => False

theorem step_good (hlast : bpfClass p.code ≠ 6 → s.pc + 1 < len) (hp : Checked len s.pc p)
    (hop : decode p.code = some op) (hmeets : s.MeetsOp len p op) : Good len u s (s.step len u p op) := by
  have hcoded := decode_coded hop
  have hnext (hclass : bpfClass p.code != 6) : s.pc < s.pc + 1 ∧ s.pc + 1 < len :=
    ⟨Nat.lt_succ_self _, hlast (bne_iff_ne.1 hclass)⟩
  cases op with
  | ret a =>
    show (ite _ _ _ : Word).toNat ≤ _
    split
    . exact Nat.zero_le _
    . exact cut_le _
  | retMatch =>
    obtain ⟨entp, hentp⟩ := bpfMatch_eq (u := u) (hp.keys (eq_of_beq hcoded)) s.mem
    rw [State.step, hentp]
    cases entp with
    | none => exact Nat.zero_le _
    | some entp => exact cut_le _
  | abs size =>
    rw [State.step]
    split
    . next hin =>
      rw [read_eq hin hmeets.1]
      exact hnext hcoded
    . split
      . next hin =>
        rw [read_eq hin hmeets.2]
        exact hnext hcoded
      . exact Nat.zero_le _
  | ind size =>
    rw [State.step]
    split
    . next hin =>
      rw [read_eq hin hmeets]
      exact hnext hcoded
    . exact Nat.zero_le _
  | msh =>
    rw [State.step]
    split
    . next hin =>
      rw [read_eq hin rfl]
      exact hnext hcoded
    . exact Nat.zero_le _
  | len x | imm x | alu g x | neg | tax | txa => exact hnext hcoded
  | mem x | st x =>
    rw [State.step]
    cases x with
    | false =>
      rw [Op.coded, Bool.and_eq_true] at hcoded
      rw [if_pos (hp.mem hcoded.2)]
      exact hnext hcoded.1
    | true =>
      rw [State.MeetsOp] at hmeets
      rw [if_pos hmeets]
      exact hnext hcoded
  | ja =>
    obtain ⟨hpos, hlt⟩ := hmeets
    rw [State.step, if_pos (by omega)]
    exact ⟨by dsimp only; omega, by dsimp only; omega⟩
  | jump test x =>
    rw [Op.coded, Bool.and_eq_true] at hcoded
    have hin := hp.jump (eq_of_beq hcoded.1) (bne_iff_ne.1 hcoded.2)
    show _ < _ + (ite _ _ _) + 1 ∧ _ + (ite _ _ _) + 1 < _
    split <;> omega
  | div x =>
    rw [State.step]
    cases x with
    | false =>
      rw [Op.coded, Bool.and_eq_true] at hcoded
      have hne : s.source p false ≠ 0 := hp.div (eq_of_beq hcoded.2)
      rw [if_neg hne]
      exact hnext hcoded.1
    | true =>
      split
      . exact Nat.zero_le _
      . exact hnext hcoded

theorem bpfValidate_spec (h : bpfValidate f = .ok r) (hr : r ≠ 0)
    : (∃ matched, validateFrom f.insns.length 1 0 false f.insns.tail = some matched) ∧
        ∀ p ∈ f.insns.getLast?, bpfClass p.code = 6 := by
  unfold bpfValidate at h
  split at h
  . exact absurd (Except.ok.inj h).symm hr
  . next matched hmatched =>
    refine ⟨⟨matched, hmatched⟩, fun p hp => ?_⟩
    rw [Option.mem_def.1 hp] at h
    apply Classical.byContradiction
    intro hclass
    exact hr ((Except.ok.inj h).symm.trans (if_neg hclass))

theorem body_good (hvalid : bpfValidate f = .ok r) (hr : r ≠ 0) (hmeets : s.Meets f) (hpos : 0 < s.pc)
    (hlt : s.pc < f.insns.length) : Good f.insns.length u s (body f u s) := by
  obtain ⟨⟨matched, hmatched⟩, hclass⟩ := bpfValidate_spec hvalid hr
  obtain ⟨p, hp⟩ : ∃ p, f.insns[s.pc]? = some p := ⟨_, List.getElem?_eq_getElem hlt⟩
  have hbytes : ¬ f.bytes ≤ 8 * s.pc := by
    have := f.length_eq
    omega
  rw [body, if_neg hbytes, hp]
  dsimp only
  split
  . exact Nat.zero_le _
  . next op hop =>
    have htail : f.insns.tail[s.pc - 1]? = some p := by rw [List.getElem?_tail, Nat.sub_add_cancel hpos, hp]
    have hchecked := validateFrom_checked hmatched htail
    rw [Nat.add_sub_cancel' hpos] at hchecked
    have hkey : p.code ≠ 0x17 := by
      intro hkey
      rw [hkey] at hop
      contradiction
    refine step_good (fun hne => ?_) (hchecked.resolve_left hkey) hop (hmeets p hp op hop)
    apply Classical.byContradiction
    intro hnot
    refine hne (hclass p ?_)
    rw [List.getLast?_eq_getElem?, show f.insns.length - 1 = s.pc by omega]
    exact hp

theorem Good.advances (hgood : Good f.insns.length u s (body f u s)) (hlt : s.pc < f.insns.length)
    : Loop.Advances (body f u) (fun s => 0 < s.pc ∧ s.pc < f.insns.length) (fun s => f.insns.length - s.pc)
      (fun v => v.1.toNat ≤ u.wirelen.toNat) s := by
  match hbody : body f u s with
  | .ok (.inl s') =>
    rw [hbody] at hgood
    exact Or.inl ⟨s', hbody, ⟨Nat.zero_lt_of_lt hgood.1, hgood.2⟩, Nat.sub_lt_sub_left hlt hgood.1⟩
  | .ok (.inr v) =>
    rw [hbody] at hgood
    exact Or.inr ⟨v, hbody, hgood⟩
  | .error e =>
    rw [hbody] at hgood
    contradiction

theorem bpfValidate_inside_iff : (∃ r, bpfValidate f = .ok r) ↔ f.insns ≠ [] := by
  obtain ⟨insns, bytes, -⟩ := f
  constructor
  . rintro ⟨r, hr⟩ rfl
    contradiction
  . intro hne
    unfold bpfValidate
    split
    . exact ⟨_, rfl⟩
    . rw [List.getLast?_eq_some_getLast hne]
      exact ⟨_, rfl⟩

theorem bpfDoFilter_inside (f : Program) : ((∃ r, bpfValidate f = .ok r) ↔ f.insns ≠ []) ∧
      ∀ r u a x mem, bpfValidate f = .ok r → r ≠ 0 → 1 < f.insns.length →
        (∀ s ∈ Loop.states (body f u) f.insns.length ⟨1, a, x, mem⟩, s.Meets f) →
        (∃ v, bpfDoFilter f u a x mem = .ok (some v) ∧ v.1.toNat ≤ u.wirelen.toNat) ∧
          ((Loop.states (body f u) f.insns.length ⟨1, a, x, mem⟩).map State.pc).Nodup := by
  refine ⟨bpfValidate_inside_iff, fun r u a x mem hvalid hr hlen hmeets => ?_⟩
  have hbody (s : State) (hmeets : s.Meets f) (hs : 0 < s.pc ∧ s.pc < f.insns.length) :=
    (body_good (u := u) hvalid hr hmeets hs.1 hs.2).advances hs.2
  refine ⟨Loop.run_returns hbody hmeets ⟨Nat.one_pos, hlen⟩ (by dsimp only; omega), ?_⟩
  have hpairwise := (Loop.states_pairwise hbody hmeets ⟨Nat.one_pos, hlen⟩).2
  apply List.pairwise_map.2
  apply hpairwise.imp
  intro s s' hlt heq
  rw [heq] at hlt
  exact Nat.lt_irrefl _ hlt

def ipOnly : Program :=
  ⟨[⟨0xfc00, 0, 0, 0⟩, ⟨0x28, 0, 0, 12⟩, ⟨0x15, 0, 1, 0x0800⟩, ⟨0x06, 0, 0, 60⟩, ⟨0x06, 0, 0, 0⟩], 40, rfl⟩

def ipPacket : Input where
  rcvPort := some 0
  nKeys := 0
  table _ := []
  packet i := if i = 12 then 8 else 0
  wirelen := 64
  header _ := 0

theorem ipOnly_meets : ∀ s ∈ Loop.states (body ipOnly ipPacket) 5 ⟨1, 0, 0, fun _ => 0⟩, s.Meets ipOnly := by
  have hstates : Loop.states (body ipOnly ipPacket) 5 ⟨1, 0, 0, fun _ => 0⟩ =
      [⟨1, 0, 0, fun _ => 0⟩, ⟨2, 0x0800, 0, fun _ => 0⟩, ⟨3, 0x0800, 0, fun _ => 0⟩] := rfl
  rw [hstates, List.forall_mem_cons, List.forall_mem_cons, List.forall_mem_singleton]
  refine ⟨?_, ?_, ?_⟩ <;> rintro p ⟨⟩ op ⟨⟩
  . exact ⟨rfl, rfl⟩
  . trivial
  . trivial

theorem bpfDoFilter_inside_ipOnly
    : (∃ v, bpfDoFilter ipOnly ipPacket 0 0 (fun _ => 0) = .ok (some v) ∧ v.1.toNat ≤ 64) ∧
      ((Loop.states (body ipOnly ipPacket) 5 ⟨1, 0, 0, fun _ => 0⟩).map State.pc).Nodup :=
  (bpfDoFilter_inside ipOnly).2 1 ipPacket 0 0 (fun _ => 0) rfl (by decide) (by decide) ipOnly_meets

def storing : Program := ⟨[⟨0xfc00, 0, 0, 0⟩, ⟨0x03, 0, 0, 16⟩, ⟨0x06, 0, 0, 0⟩], 24, rfl⟩

/--
The index register is stored behind the scratch memory.
-/
theorem bpfDoFilter_storing
    : bpfValidate storing = .ok 1 ∧ ∀ u a x mem, bpfDoFilter storing u a x mem = .error .scratch :=
  ⟨rfl, fun _ _ _ _ => rfl⟩

end Bpf

end Device
