import UtahMach.Ipc.Kmsg.Lemmas

/-!
This module contains the items of a message body, before and after they have been copied in.
-/

namespace Ipc

open KmsgM

structure Item where
  pos : Nat
  type : MsgType

namespace Item

def data (it : Item) : Nat := it.pos + it.type.words

def next (it : Item) : Nat := it.data + it.type.dataWords

def visit (it : Item) : Visit := ⟨it.pos, it.data, it.next⟩

theorem ends (it : Item) : it.data = it.pos + it.type.words ∧ it.next = it.data + it.type.dataWords := ⟨rfl, rfl⟩

theorem pos_lt_next (it : Item) : it.pos < it.next := by
  have := words_pos it.type
  unfold next data
  omega

end Item

def itemAt (b : Block) (pos : Nat) : Option Item :=
  let it : Item := ⟨pos, typeAt b pos⟩
  if it.data ≤ b.size ∧ invalidType it.type = false ∧ it.next ≤ b.size then some it else none

def items (b : Block) : Nat → Nat → List Item
  | 0, _ => []
  | fuel + 1, pos =>
    if pos < b.size then
      match itemAt b pos with
      | some it => it :: items b fuel it.next
      | none => []
    else
      []

def Chain (p q : Nat) : List Item → Prop
  | [] => p = q
  | it :: its => it.pos = p ∧ Chain it.next q its

namespace Chain

variable {p q r : Nat} {its its' : List Item} {it : Item}

theorem append (h : Chain p q its) (h' : Chain q r its') : Chain p r (its ++ its') := by
  induction its generalizing p with
  | nil =>
    cases h
    exact h'
  | cons it its ih => exact ⟨h.1, ih h.2⟩

theorem le (h : Chain p q its) : p + its.length ≤ q := by
  induction its generalizing p with
  | nil =>
    cases h
    exact Nat.le_refl _
  | cons it its ih =>
    have hle := ih h.2
    have hlt := it.pos_lt_next
    rw [h.1] at hlt
    rw [List.length_cons]
    omega

theorem pos_le (h : Chain p q its) (hit : it ∈ its) : p ≤ it.pos := by
  induction its generalizing p with
  | nil => contradiction
  | cons it' its ih =>
    rcases List.mem_cons.mp hit with rfl | hin
    . exact Nat.le_of_eq h.1.symm
    . have hle := ih h.2 hin
      have hlt := it'.pos_lt_next
      rw [h.1] at hlt
      omega

theorem next_le (h : Chain p q its) (hit : it ∈ its) : it.next ≤ q := by
  induction its generalizing p with
  | nil => contradiction
  | cons it' its ih =>
    rcases List.mem_cons.mp hit with rfl | hin
    . have := h.2.le
      omega
    . exact ih h.2 hin

end Chain

structure Done extends Item where
  addr : Nat
  objs : List Nat

inductive Memo where
  | kernel (addr : Nat)
  | copy (copy : Nat)
deriving DecidableEq

namespace Done

def objects (d : Done) : Objects := if d.type.inline then .inline d.data else .ool d.addr

def rights (d : Done) : List (Nat × Nat) := if d.type.isPort then (d.objs.filter ioValid).map (·, d.type.name) else []

def memory (d : Done) : List Memo :=
  if d.type.inline || d.type.length = 0 then []
  else if d.type.isPort then [.kernel d.addr]
  else [.copy d.addr]

structure Holds (d : Done) (s : KmsgState) : Prop where
  fits : d.next ≤ s.body.size
  type_eq : typeAt s.body d.pos = d.type
  pointer : d.type.inline = false → s.body.word d.data = d.addr ∧ (d.type.length = 0 → d.addr = 0)
  length_eq : d.type.isPort = true → d.type.length = 4 * d.type.number
  objs_length : d.type.isPort = true → d.objs.length = d.type.number
  slots : d.type.isPort = true → ∀ i, i < d.type.number → s.slot? d.objects i = d.objs[i]?
  block : d.type.inline = false → d.type.isPort = true → d.type.length ≠ 0 →
    ∃ b, s.heap d.addr = some b ∧ b.size = d.type.number

end Done

end Ipc
