import UtahMach.Data.Splay.Basic
import UtahMach.Ipc.Table

/-!
This module contains capabilities and the spaces that hold them.
-/

namespace Ipc

theorem update_part [DecidableEq α] {g : α → β} {a : α} {v : β} (f : β → γ) (h : f v = f (g a)) (b : α)
    : f (Function.update g a v b) = f (g b) := by
  by_cases heq : b = a
  . rw [heq, Function.update_self, h]
  . rw [Function.update_of_ne heq]

def machPortIndex (name : Nat) : Nat := name / 256

def machPortGen (name : Nat) : Nat := name % 256

def machPortMake (index gen : Nat) : Nat := index * 256 + gen

def machPortNull : Nat := 0

def machPortDead : Nat := 2 ^ 32 - 1

def machPortSmallest : Nat := 0

def machPortLargest : Nat := 2 ^ 32 - 1

def machPortValid (name : Nat) : Bool := name != machPortNull && name != machPortDead

inductive KernReturn where
  | success
  | noSpace
  | resourceShortage
  | invalidTask
  | invalidName
  | invalidRight
  | invalidValue
  | invalidArgument
  | urefsOverflow
  | nameExists
  | rightExists
  | notInSet
  | invalidCapability
  | failure
  deriving Repr, DecidableEq

inductive PortType where
  | none
  | send
  | receive
  | sendReceive
  | sendOnce
  | portSet
  | deadName
  deriving Repr, DecidableEq

def ioNull : Nat := 0

def ioDead : Nat := 2 ^ 32 - 1

def ioValid (obj : Nat) : Bool := obj != ioNull && obj != ioDead

structure IeBits where
  urefs : Nat
  type : PortType
  marequest : Bool
  compat : Bool
  collision : Bool
  gen : Nat
  deriving Repr, DecidableEq

def IeBits.ofGen (gen : Nat) : IeBits := ⟨0, .none, false, false, false, gen⟩

def genMask : Nat := 255

def headName : Nat := machPortMake 0 genMask

structure Right where
  type : PortType
  urefs : Nat
  marequest : Bool
  compat : Bool
  object : Nat
  request : Nat
  deriving Repr, DecidableEq

def Right.null : Right := ⟨.none, 0, false, false, ioNull, 0⟩

structure Entry where
  ieBits : IeBits
  ieObject : Nat
  ieRequest : Nat
  deriving Repr, DecidableEq

def Entry.ieNext (e : Entry) : Nat := e.ieRequest

def Entry.right (e : Entry) : Right :=
  ⟨e.ieBits.type, e.ieBits.urefs, e.ieBits.marequest, e.ieBits.compat, e.ieObject, e.ieRequest⟩

def Entry.setRight (e : Entry) (r : Right) : Entry :=
  ⟨⟨r.urefs, r.type, r.marequest, r.compat, e.ieBits.collision, e.ieBits.gen⟩, r.object, r.request⟩

inductive Loc where
  | table (index : Nat)
  | tree (name : Nat)
  deriving Repr, DecidableEq

structure Space where
  isAddr : Nat
  isActive : Bool
  isGrowing : Bool
  isTable : Nat → Entry
  isIndex : Nat → Nat
  isTableSize : Nat
  isTableNext : Nat
  isTree : Splay.SplayTree Nat Entry
  isTreeTotal : Nat
  isTreeSmall : Nat
  isTreeHash : Nat
  ihGlobalMask : Nat
  ihGlobal : Nat → List Nat

namespace Space

def entry (s : Space) : Loc → Option Entry
  | .table index => if index < s.isTableSize then some (s.isTable index) else none
  | .tree name => s.isTree.get? name

def setTable (s : Space) (index : Nat) (e : Entry) : Space :=
  { s with isTable := fun i => if i = index then e else s.isTable i }

def setEntry (s : Space) (e : Entry) : Loc → Space
  | .table index => s.setTable index e
  | .tree name => { s with isTree := s.isTree.modify name (fun _ => e) }

def setNext (s : Space) (index next : Nat) : Space := s.setTable index { s.isTable index with ieRequest := next }

def setCollision (s : Space) (index : Nat) (collision : Bool) : Space :=
  let e := s.isTable index
  s.setTable index { e with ieBits := { e.ieBits with collision := collision } }

end Space

def assert (p : Prop) [Decidable p] : Option Unit := if p then some () else none

@[simp]
theorem assert_of_true {p : Prop} [Decidable p] (h : p) : assert p = some () := by
  simp [assert, h]

theorem assert_bind_eq_some {p : Prop} [Decidable p] {f : Unit → Option α}
    : (assert p >>= f) = some a ↔ p ∧ f () = some a := by
  by_cases h : p
  . simp [assert, h]
  . simp [assert, h]

def ipcSpaceCreate (addr mask initial : Nat) : Space where
  isAddr := addr
  isActive := true
  isGrowing := false
  isTable := fun index => ⟨.ofGen genMask, ioNull, if index + 1 = itsSize initial then 0 else index + 1⟩
  isIndex := fun _ => 0
  isTableSize := itsSize initial
  isTableNext := initial + 1
  isTree := .init machPortNull
  isTreeTotal := 0
  isTreeSmall := 0
  isTreeHash := 0
  ihGlobalMask := mask
  ihGlobal := fun _ => []

end Ipc
