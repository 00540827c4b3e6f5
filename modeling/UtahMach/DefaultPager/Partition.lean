import UtahMach.Data.Bitmap
import UtahMach.Vm.Resident.Basic

/-!
This module contains the paging partitions of the default pager.
-/

namespace DefaultPager

open Bitmap

open Vm (pageSize)

inductive Halt where
  | panic (text : String)
  | deadlock
  | astray
deriving DecidableEq, Repr

theorem bind_ok {f : α → Except Halt γ} {c : γ} : (x >>= f) = .ok c ↔ ∃ a, x = .ok a ∧ f a = .ok c := by
  cases x with
  | error e => exact ⟨nofun, nofun⟩
  | ok a => exact ⟨fun h => ⟨a, rfl, h⟩, fun ⟨_, ha, h⟩ => by cases ha; exact h⟩

def ptoa (p : Nat) : Nat := p * pageSize % 2 ^ 32

def atop (a : Nat) : Nat := a / pageSize

def howmany (a b : Nat) : Nat := (a + b - 1) / b

def nbBm : Nat := 32

def pIndexInvalid : Nat := 255

structure Part (β : Type) where
  locked : Bool
  totalSize : Nat
  free : Nat
  id : Nat
  bitmap : List (BitVec 32)
  goingAway : Bool
  disk : Nat → β

variable {β : Type}

namespace Part

def lock (part : Part β) : Except Halt (Part β) :=
  if part.locked then .error .deadlock else .ok { part with locked := true }

def lockIf (part : Part β) (lockIt : Bool) : Except Halt (Part β) := if lockIt then part.lock else .ok part

def unlock (part : Part β) : Part β := { part with locked := false }

def take (part : Part β) (off : Nat) : Part β :=
  { part with bitmap := Bitmap.set part.bitmap off, free := part.free - 1, locked := false }

def release (part : Part β) (off : Nat) : Part β :=
  { part with bitmap := Bitmap.clear part.bitmap off, free := part.free + 1 }

def setDisk (part : Part β) (disk : Nat → β) : Part β := { part with disk := disk }

structure Exact (part : Part β) : Prop where
  bound : part.totalSize < 2 ^ 20
  words : part.bitmap.length = howmany part.totalSize nbBm
  free : part.free + Nat.count (fun i => Bitmap.test part.bitmap i = true) part.totalSize = part.totalSize
  outside : ∀ i, part.totalSize ≤ i → Bitmap.test part.bitmap i = false

variable {part : Part β} {off : Nat}

theorem unlock_eq (h : part.locked = false) : part.unlock = part := by
  rw [unlock, ← h]

theorem lock_eq (h : part.locked = false) : part.lock = .ok { part with locked := true } := by
  rw [lock, h]
  rfl

namespace Exact

section

variable (h : part.Exact)
include h

theorem lt_bits (hoff : off < part.totalSize) : off < part.bitmap.length * 32 := by
  have hwords := h.words
  rw [howmany, nbBm] at hwords
  omega

theorem lt_of_test (htest : test part.bitmap off = true) : off < part.totalSize := by
  apply Nat.lt_of_not_le
  intro hle
  rw [h.outside off hle] at htest
  contradiction

theorem free_le : part.free ≤ part.totalSize := by
  have := h.free
  omega

theorem exists_clear (hfree : part.free ≠ 0) : ∃ off < part.totalSize, test part.bitmap off = false := by
  apply Classical.byContradiction
  intro hnone
  apply hfree
  have hall : Nat.count (fun i => test part.bitmap i = true) part.totalSize = part.totalSize := by
    rw [Nat.count_iff_forall]
    intro off hoff
    cases htest : test part.bitmap off with
    | true => rfl
    | false => exact absurd ⟨off, hoff, htest⟩ hnone
  have := h.free
  omega

theorem free_ne_zero (hoff : off < part.totalSize) (hclear : test part.bitmap off = false) : part.free ≠ 0 := by
  intro hzero
  have hfree := h.free
  rw [hzero, Nat.zero_add, Nat.count_iff_forall] at hfree
  have htest := hfree off hoff
  rw [hclear] at htest
  contradiction

theorem take (hoff : off < part.totalSize) (hclear : test part.bitmap off = false) : (part.take off).Exact := by
  have htest (j : Nat) := test_set (h.lt_bits hoff) (j := j)
  refine ⟨h.bound, ?_, ?_, ?_⟩
  . exact length_set.trans h.words
  . have hcount : Nat.count (fun i => test (set part.bitmap off) i = true) part.totalSize =
        Nat.count (fun i => test part.bitmap i = true) part.totalSize + 1 := by
      apply count_add_one hoff hclear
      . rw [htest, decide_eq_true rfl, Bool.true_or]
      . intro j hj
        rw [htest, decide_eq_false hj.symm, Bool.false_or]
    have hfree := h.free
    have hle := Nat.count_le (p := fun i => test (set part.bitmap off) i = true)
      (n := part.totalSize)
    show part.free - 1 + Nat.count (fun i => test (set part.bitmap off) i = true)
      part.totalSize = part.totalSize
    omega
  . intro i hi
    have hne : off ≠ i := fun heq => by
      subst heq
      exact absurd hoff (Nat.not_lt.2 hi)
    show test (set part.bitmap off) i = false
    rw [htest, decide_eq_false hne, Bool.false_or]
    exact h.outside i hi

theorem release (hset : test part.bitmap off = true) : (part.release off).Exact := by
  have hoff := h.lt_of_test hset
  have htest (j : Nat) := test_clear (h.lt_bits hoff) (j := j)
  refine ⟨h.bound, ?_, ?_, ?_⟩
  . exact length_clear.trans h.words
  . have hcount : Nat.count (fun i => test part.bitmap i = true) part.totalSize =
        Nat.count (fun i => test (clear part.bitmap off) i = true) part.totalSize + 1 := by
      apply count_add_one hoff _ hset
      . intro j hj
        rw [htest, decide_eq_false hj.symm, Bool.not_false, Bool.true_and]
      . rw [htest, decide_eq_true rfl, Bool.not_true, Bool.false_and]
    have hfree := h.free
    show part.free + 1 + Nat.count (fun i => test (clear part.bitmap off) i = true)
      part.totalSize = part.totalSize
    omega
  . intro i hi
    show test (clear part.bitmap off) i = false
    rw [htest, h.outside i hi, Bool.and_false]

theorem setDisk (disk : Nat → β) : (part.setDisk disk).Exact := { h with }

end

end Exact

end Part

abbrev Parts (β : Type) := List (Option (Part β))

namespace Parts

variable {ps : Parts β} {i j : Nat} {part part' : Part β}

def partAt (ps : Parts β) (i : Nat) : Option (Part β) := ps[i]?.join

def setPart (ps : Parts β) (i : Nat) (part : Part β) : Parts β := ps.set i (some part)

def partitionOf (ps : Parts β) (x : Nat) : Except Halt (Option (Part β)) :=
  match ps[x]? with
  | none => .error (.panic "partition_of x%x")
  | some part => .ok part

theorem lt_length_of_part (h : ps.partAt i = some part) : i < ps.length := by
  rw [Parts.partAt, Option.join_eq_some_iff] at h
  exact (List.getElem?_eq_some_iff.1 h).1

theorem getElem?_of_part (h : ps.partAt i = some part) : ps[i]? = some (some part) := Option.join_eq_some_iff.1 h

theorem partitionOf_of_part (h : ps.partAt i = some part) : ps.partitionOf i = .ok (some part) := by
  rw [partitionOf, getElem?_of_part h]

theorem partitionOf_eq (h : i < ps.length) : ps.partitionOf i = .ok (ps.partAt i) := by
  rw [partitionOf, Parts.partAt, List.getElem?_eq_getElem h]
  rfl

@[simp]
theorem length_setPart : (ps.setPart i part).length = ps.length := List.length_set

theorem part_setPart_self (h : i < ps.length) : (ps.setPart i part).partAt i = some part := by
  rw [Parts.partAt, setPart, List.getElem?_set_self h]
  rfl

theorem part_setPart_of_ne (h : i ≠ j) : (ps.setPart i part).partAt j = ps.partAt j := by
  rw [Parts.partAt, setPart, List.getElem?_set_ne h]
  rfl

theorem setPart_eq (h : ps.partAt i = some part) : ps.setPart i part = ps := by
  apply List.ext_getElem?
  intro j
  rw [setPart, List.getElem?_set]
  split
  . next heq =>
    subst heq
    rw [if_pos (lt_length_of_part h), getElem?_of_part h]
  . rfl

@[simp]
theorem setPart_setPart : (ps.setPart i part).setPart i part' = ps.setPart i part' := List.set_set _

structure Good (ps : Parts β) : Prop where
  exact : ∀ i part, ps.partAt i = some part → part.Exact
  unlocked : ∀ i part, ps.partAt i = some part → part.locked = false
  index : ∀ i part, ps.partAt i = some part → i < pIndexInvalid

theorem partAt_setPart : (ps.setPart i part).partAt j = if i = j ∧ i < ps.length then some part else ps.partAt j := by
  by_cases heq : i = j
  . subst heq
    by_cases hlt : i < ps.length
    . rw [part_setPart_self hlt, if_pos ⟨rfl, hlt⟩]
    . rw [if_neg fun h => hlt h.2, setPart, List.set_eq_of_length_le (Nat.le_of_not_lt hlt)]
  . rw [part_setPart_of_ne heq, if_neg fun h => heq h.1]

theorem forall_setPart {P : Part β → Prop} (h : ∀ i part, ps.partAt i = some part → P part) (hpart : P part')
    : ∀ j part, (ps.setPart i part').partAt j = some part → P part := by
  intro j part hj
  rw [partAt_setPart] at hj
  split at hj
  . cases hj
    exact hpart
  . exact h j part hj

theorem Good.setPart (h : ps.Good) (hi : ps.partAt i = some part) (hexact : part'.Exact)
    (hunlocked : part'.locked = false) : (ps.setPart i part').Good := by
  refine ⟨forall_setPart h.exact hexact, forall_setPart h.unlocked hunlocked, ?_⟩
  intro j q hq
  by_cases heq : i = j
  . subst heq
    exact h.index i part hi
  . rw [part_setPart_of_ne heq] at hq
    exact h.index j q hq

end Parts

def partId (name : List (BitVec 8)) : Nat :=
  let sum := name.foldl (fun id c => id + c.setWidth 32) (0 : BitVec 32)
  let xor := name.foldl (fun id c => id ^^^ c.setWidth 32) (0 : BitVec 32)
  ((sum <<< 8) ||| xor).toNat

def Part.create (name : List (BitVec 8)) (size : Nat) (disk : Nat → β) : Part β :=
  { locked := false
    totalSize := atop (size % 2 ^ 32)
    free := atop (size % 2 ^ 32)
    id := partId name
    bitmap := List.replicate (howmany (atop (size % 2 ^ 32)) nbBm) 0
    goingAway := false
    disk := disk }

def createPagingPartition (ps : Parts β) (name : List (BitVec 8)) (size : Nat) (disk : Nat → β) : Parts β :=
  match ps.findIdx? (·.isNone) with
  | some i => ps.setPart i (Part.create name size disk)
  | none =>
    let n := if ps.length ≠ 0 then ps.length * 2 else 2
    Parts.setPart (ps ++ List.replicate (n - ps.length) none) ps.length (Part.create name size disk)

theorem Part.create_exact (name : List (BitVec 8)) (size : Nat) (disk : Nat → β)
    : (Part.create name size disk).Exact := by
  refine ⟨?_, List.length_replicate, ?_, fun i _ => test_replicate_zero⟩
  . show size % 2 ^ 32 / 4096 < 2 ^ 20
    omega
  . have hzero : Nat.count (fun i => test (Part.create name size disk).bitmap i = true)
        (Part.create name size disk).totalSize = 0 := by
      rw [Nat.count_iff_forall_not]
      intro i _
      rw [Part.create, test_replicate_zero]
      exact Bool.false_ne_true
    rw [hzero]
    rfl

def eightBlocks : Parts Nat := createPagingPartition [] [] (8 * 4096) fun _ => 0

theorem eightBlocks_part {i : Nat} {part : Part Nat} (h : eightBlocks.partAt i = some part)
    : i = 0 ∧ part = Part.create [] (8 * 4096) fun _ => 0 := by
  match i with
  | 0 =>
    cases h
    exact ⟨rfl, rfl⟩
  | 1 => cases h
  | i + 2 => cases h

theorem eightBlocks_good : eightBlocks.Good := by
  refine ⟨?_, ?_, ?_⟩
  . intro i part hi
    obtain ⟨-, rfl⟩ := eightBlocks_part hi
    exact Part.create_exact _ _ _
  . intro i part hi
    obtain ⟨-, rfl⟩ := eightBlocks_part hi
    rfl
  . intro i part hi
    obtain ⟨rfl, -⟩ := eightBlocks_part hi
    decide

def chooseFrom (size curPart : Nat) : Nat → Parts β → Except Halt (Parts β × Nat)
  | _, [] => .ok ([], pIndexInvalid)
  | i, none :: ps => do
    let (ps, pindex) ← chooseFrom size curPart (i + 1) ps
    .ok (none :: ps, pindex)
  | i, some part :: ps =>
    if i = curPart ∨ part.goingAway then do
      let (ps, pindex) ← chooseFrom size curPart (i + 1) ps
      .ok (some part :: ps, pindex)
    else do
      let locked ← part.lock
      if size ≤ ptoa part.free then
        if curPart ≠ pIndexInvalid then .ok (some locked :: ps, i % 256)
        else .ok (some locked.unlock :: ps, i % 256)
      else
        let (ps, pindex) ← chooseFrom size curPart (i + 1) ps
        .ok (some locked.unlock :: ps, pindex)

def choosePartition (ps : Parts β) (size curPart : Nat) : Except Halt (Parts β × Nat) := chooseFrom size curPart 0 ps

/--
The block is `none` where the source has `NO_BLOCK`.
-/
def pagerAllocPage (ps : Parts β) (pindex : Nat) (lockIt : Bool) : Except Halt (Parts β × Option Nat) :=
  if pindex = pIndexInvalid then .ok (ps, none)
  else do
    match ← ps.partitionOf pindex with
    | none => .ok (ps, none)
    | some part =>
      if part.goingAway then .ok (ps, none)
      else
        let part ← part.lockIf lockIt
        if part.free = 0 then .ok (ps.setPart pindex part.unlock, none)
        else
          match Bitmap.clearWord (part.bitmap.take (howmany part.totalSize nbBm)) with
          | none => .error (.panic "%spager_alloc_page")
          | some e =>
            match Bitmap.clearBit (part.bitmap.getD e 0) with
            | none => .error (.panic "%spager_alloc_page")
            | some bit => .ok (ps.setPart pindex (part.take (e * nbBm + bit)), some (e * nbBm + bit))

def pagerDeallocPage (ps : Parts β) (pindex page : Nat) (lockIt : Bool) : Except Halt (Parts β) :=
  if pindex = pIndexInvalid then .error (.panic "%sdealloc_page")
  else do
    match ← ps.partitionOf pindex with
    | none => .error .astray
    | some part =>
      if part.totalSize ≤ page then .error (.panic "%sdealloc_page")
      else
        let locked ← part.lockIf lockIt
        let released := locked.release page
        .ok (ps.setPart pindex (if lockIt then released.unlock else released))

def Candidate (curPart : Nat) (i : Nat) (part : Part β) : Prop := i ≠ curPart ∧ part.goingAway = false

inductive Chosen (size curPart i : Nat) (ps : Parts β) : Parts β → Nat → Prop where
  | nowhere (hnone : ∀ k part, ps.partAt k = some part → Candidate curPart (i + k) part → ptoa part.free < size)
      : Chosen size curPart i ps ps pIndexInvalid
  | here {k : Nat} {part : Part β} (hk : ps.partAt k = some part) (hcand : Candidate curPart (i + k) part)
      (hsize : size ≤ ptoa part.free)
      : Chosen size curPart i ps
          (ps.setPart k { part with locked := decide (curPart ≠ pIndexInvalid) }) ((i + k) % 256)

theorem Chosen.cons {size curPart i pindex : Nat} (h : Chosen size curPart (i + 1) ps ps' pindex)
    (hx : ∀ part, x = some part → Candidate curPart i part → ptoa part.free < size)
    : Chosen size curPart i (x :: ps) (x :: ps') pindex := by
  cases h with
  | nowhere hnone =>
    apply Chosen.nowhere
    intro k part hk hcand
    cases k with
    | zero => exact hx part (by simpa [Parts.partAt] using hk) hcand
    | succ k =>
      apply hnone k part hk
      rwa [Nat.add_assoc, Nat.add_comm 1]
  | @here k part hk hcand hsize =>
    rw [Nat.add_assoc, Nat.add_comm 1] at hcand ⊢
    exact Chosen.here (k := k + 1) hk hcand hsize

theorem chooseFrom_chosen (size curPart i : Nat) (ps : Parts β)
    (h : ∀ k part, ps.partAt k = some part → Candidate curPart (i + k) part → part.locked = false)
    : ∃ ps' pindex, chooseFrom size curPart i ps = .ok (ps', pindex) ∧ Chosen size curPart i ps ps' pindex := by
  induction ps generalizing i with
  | nil => exact ⟨[], pIndexInvalid, rfl, .nowhere nofun⟩
  | cons x ps ih =>
    obtain ⟨ps', pindex, heq, hchosen⟩ := ih (i + 1) fun k part hk hcand => by
      apply h (k + 1) part hk
      rwa [Nat.add_assoc, Nat.add_comm 1] at hcand
    cases x with
    | none =>
      refine ⟨none :: ps', pindex, ?_, hchosen.cons nofun⟩
      rw [chooseFrom, heq]
      rfl
    | some part =>
      rw [chooseFrom]
      by_cases hskip : i = curPart ∨ part.goingAway = true
      . refine ⟨some part :: ps', pindex, ?_, hchosen.cons ?_⟩
        . rw [if_pos hskip, heq]
          rfl
        . rintro part' hpart ⟨hne, hstay⟩
          cases hpart
          simp_all
      . have hcand : Candidate curPart i part := by
          rw [not_or, Bool.not_eq_true] at hskip
          exact hskip
        have hlocked : part.locked = false := h 0 part rfl hcand
        rw [if_neg hskip, Part.lock_eq hlocked]
        by_cases hsize : size ≤ ptoa part.free
        . by_cases hcur : curPart = pIndexInvalid
          . refine ⟨_, _, ?_, Chosen.here (k := 0) rfl hcand hsize⟩
            show (if size ≤ ptoa part.free then _ else _) = _
            rw [if_pos hsize, if_neg (not_not.2 hcur), hcur]
            rfl
          . refine ⟨_, _, ?_, Chosen.here (k := 0) rfl hcand hsize⟩
            show (if size ≤ ptoa part.free then _ else _) = _
            rw [if_pos hsize, if_pos hcur, decide_eq_true hcur]
            rfl
        . refine ⟨some part :: ps', pindex, ?_, hchosen.cons ?_⟩
          . show (if size ≤ ptoa part.free then _ else _) = _
            rw [if_neg hsize, heq]
            show Except.ok (some (Part.unlock { part with locked := true }) :: ps', pindex) = _
            rw [Part.unlock, ← hlocked]
          . intro part' hpart _
            cases hpart
            exact Nat.lt_of_not_le hsize

namespace Parts.Good

variable {ps : Parts β} {i off : Nat} {part : Part β}

theorem choosePartition (h : ps.Good) (size curPart : Nat)
    : ∃ ps' pindex, DefaultPager.choosePartition ps size curPart = .ok (ps', pindex) ∧
        Chosen size curPart 0 ps ps' pindex :=
  chooseFrom_chosen size curPart 0 ps fun k part hk _ => h.unlocked k part hk

theorem alloc_ok (h : part.Exact) (hfree : part.free ≠ 0)
    : ∃ e bit, clearWord (part.bitmap.take (howmany part.totalSize nbBm)) = some e ∧
        clearBit (part.bitmap.getD e 0) = some bit ∧ e * nbBm + bit < part.totalSize ∧
        test part.bitmap (e * nbBm + bit) = false := by
  obtain ⟨off, hoff, hclear⟩ := h.exists_clear hfree
  rw [List.take_of_length_le (Nat.le_of_eq h.words)]
  obtain ⟨e, he⟩ := exists_clearWord (h.lt_bits hoff) hclear
  have hne : part.bitmap.getD e 0 ≠ BitVec.allOnes 32 := by
    rw [clearWord, List.findIdx?_eq_some_iff_getElem] at he
    obtain ⟨hlt, hne, -⟩ := he
    rw [List.getD_eq_getElem?_getD, List.getElem?_eq_getElem hlt]
    exact of_decide_eq_true hne
  obtain ⟨bit, hbit⟩ := exists_clearBit hne
  obtain ⟨-, -, htest, hbefore⟩ := clear_of_search he hbit
  refine ⟨e, bit, he, hbit, ?_, htest⟩
  apply Nat.lt_of_le_of_lt _ hoff
  apply Nat.le_of_not_lt
  intro hlt
  rw [hbefore off hlt] at hclear
  contradiction

theorem pagerAllocPage_eq (lockIt : Bool) (hexact : part.Exact) (hi : ps.partAt i = some part)
    (hindex : i ≠ pIndexInvalid) (hstay : part.goingAway = false) (hlock : part.locked = !lockIt)
    : part.free = 0 ∧ pagerAllocPage ps i lockIt = .ok (ps.setPart i part.unlock, none) ∨
        part.free ≠ 0 ∧ ∃ off < part.totalSize, test part.bitmap off = false ∧
          pagerAllocPage ps i lockIt = .ok (ps.setPart i (part.take off), some off) := by
  have hopen : part.lockIf lockIt = .ok { part with locked := true } := by
    cases lockIt with
    | true => exact Part.lock_eq hlock
    | false =>
      rw [Bool.not_false] at hlock
      show Except.ok part = _
      rw [← hlock]
  rw [pagerAllocPage, if_neg hindex, partitionOf_of_part hi]
  by_cases hfree : part.free = 0
  . refine Or.inl ⟨hfree, ?_⟩
    show (if part.goingAway = true then _ else _) = _
    rw [hstay, if_neg Bool.false_ne_true, hopen]
    show (if part.free = 0 then _ else _) = _
    rw [if_pos hfree]
    rfl
  . obtain ⟨e, bit, hword, hbit, hlt, hclear⟩ := alloc_ok hexact hfree
    refine Or.inr ⟨hfree, e * nbBm + bit, hlt, hclear, ?_⟩
    show (if part.goingAway = true then _ else _) = _
    rw [hstay, if_neg Bool.false_ne_true, hopen]
    show (if part.free = 0 then _ else _) = _
    rw [if_neg hfree]
    rw [hword]
    dsimp only
    rw [hbit]
    rfl

section

variable (h : ps.Good) (hi : ps.partAt i = some part)
include h hi

theorem pagerDeallocPage_eq (hset : test part.bitmap off = true)
    : pagerDeallocPage ps i off true = .ok (ps.setPart i (part.release off)) := by
  have hindex := h.index i part hi
  have hoff := (h.exact i part hi).lt_of_test hset
  have hlocked := h.unlocked i part hi
  rw [pagerDeallocPage, if_neg (Nat.ne_of_lt hindex), partitionOf_of_part hi]
  show (if part.totalSize ≤ off then _ else _) = _
  rw [if_neg (Nat.not_le.2 hoff), Part.lockIf, if_pos rfl, Part.lock_eq hlocked]
  show Except.ok (ps.setPart i (Part.unlock _)) = _
  rw [Part.unlock, Part.release, Part.release, ← hlocked]

theorem take (hoff : off < part.totalSize)
    (hclear : test part.bitmap off = false) : (ps.setPart i (part.take off)).Good :=
  h.setPart hi ((h.exact i part hi).take hoff hclear) rfl

theorem release (hset : test part.bitmap off = true) : (ps.setPart i (part.release off)).Good :=
  h.setPart hi ((h.exact i part hi).release hset) (h.unlocked i part hi)

end

end Parts.Good

end DefaultPager
