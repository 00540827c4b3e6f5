import UtahMach.Data.Heap
import UtahMach.Data.Lookup

/-!
This module contains virtual memory objects and what is read through them.
-/

open Chain

namespace Vm

def wordSize : Nat := 2 ^ 32

inductive Page (β : Type) where
  | resident (contents : β)
  | absent (busy : Bool)
deriving DecidableEq, Repr

-- the pager has said that it does not have the page
def Page.unavailable {β : Type} : Page β → Bool
  | .absent false => true
  | _ => false

inductive CopyStrategy where
  | none
  | call
  | delay
  | temporary
deriving DecidableEq, Repr

inductive ExternalState where
  | isThere
  | unknown
  | isAbsent
deriving DecidableEq, Repr

structure VmObject (β : Type) where
  memq : AList fun _ : Nat => Page β
  size : Nat
  refCount : Int16
  copy : Option Nat
  shadow : Option Nat
  shadowOffset : Nat
  pager : Option Nat
  pagingOffset : Nat
  copyStrategy : CopyStrategy
  absentCount : Nat
  pagingInProgress : Nat
  pagerCreated : Bool
  pagerInitialized : Bool
  pagerReady : Bool
  canPersist : Bool
  internal : Bool
  temporary : Bool
  useSharedCopy : Bool
  shadowed : Bool
  existenceInfo : Option (Nat → ExternalState)

abbrev Objects (β : Type) := Heap (VmObject β)

variable {β : Type}

namespace VmObject

def template : VmObject β where
  memq := ∅
  size := 0
  refCount := 1
  copy := none
  shadow := none
  shadowOffset := 0
  pager := none
  pagingOffset := 0
  copyStrategy := .none
  absentCount := 0
  pagingInProgress := 0
  pagerCreated := false
  pagerInitialized := false
  pagerReady := false
  canPersist := false
  internal := true
  temporary := true
  useSharedCopy := false
  shadowed := false
  existenceInfo := none

def residentPageCount (x : VmObject β) : Int16 := .ofNat x.memq.keys.length

def externalState (x : VmObject β) (offset : Nat) : ExternalState :=
  match x.existenceInfo with
  | none => .unknown
  | some existence => existence ((offset + x.pagingOffset) % wordSize)

def lookForPage (x : VmObject β) (offset : Nat) : Bool := x.pagerCreated ∧ x.externalState offset ≠ .isAbsent

def pagerContents (pagers : Nat → Nat → Option β) (x : VmObject β) (offset : Nat) : Option β :=
  if x.lookForPage offset then
    x.pager.bind fun pager => pagers pager ((offset + x.pagingOffset) % wordSize)
  else
    none

def askPager (pagers : Nat → Nat → Option β) (x : VmObject β) (offset : Nat) : Option β :=
  if (x.memq.lookup offset).any Page.unavailable then none else x.pagerContents pagers offset

def contents (pagers : Nat → Nat → Option β) (x : VmObject β) (offset : Nat) : Option β :=
  match x.memq.lookup offset with
  | some (.resident contents) => some contents
  | _ => x.pagerContents pagers offset

end VmObject

namespace Objects

def allocate (h : Objects β) (size : Nat) : Objects β := Heap.allocate h { (VmObject.template : VmObject β) with size }

def reference (h : Objects β) : Option Nat → Except Stop (Objects β)
  | none => .ok h
  | some a => do
    let x ← h.get a
    Stop.check (0 < x.refCount)
    .ok (h.set a { x with refCount := x.refCount + 1 })

def nextPlace (h : Objects β) (p : Nat × Nat) : Option (Nat × Nat) :=
  (h.links VmObject.shadow p.1).map fun b => (b, (p.2 + (h.object p.1).shadowOffset) % wordSize)

def ownContents (pagers : Nat → Nat → Option β) (h : Objects β) (p : Nat × Nat) : Option β :=
  if p.1 ∈ h.live then (h.object p.1).contents pagers p.2 else none

def Reads (pagers : Nat → Nat → Option β) (zero : β) (h : Objects β) : Nat × Nat → β → Prop :=
  Finds (h.ownContents pagers) h.nextPlace zero

end Objects

end Vm
