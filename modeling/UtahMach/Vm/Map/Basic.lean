import UtahMach.Data.Segments
import UtahMach.Vm.Object.Basic
import UtahMach.Vm.Resident.Basic

/-!
This module contains address maps, the search for the entry of an address, and the clipping of entries.
-/

namespace Vm

def truncPage (x : Nat) : Nat := x / pageSize * pageSize

def roundPage (x : Nat) : Nat := truncPage ((x + (pageSize - 1)) % wordSize)

abbrev VmProt := BitVec 32

namespace VmProt

def none : VmProt := 0x00
def read : VmProt := 0x01
def write : VmProt := 0x02
def execute : VmProt := 0x04
def notify : VmProt := 0x10
def default : VmProt := read ||| write
def all : VmProt := read ||| write ||| execute

def allows (prot access : VmProt) : Bool := prot &&& access != none

end VmProt

inductive VmInherit where
  | share
  | copy
  | none
deriving DecidableEq, Repr

inductive KernReturn where
  | success
  | invalidAddress
  | protectionFailure
  | noSpace
  | invalidArgument
  | failure
  | memoryError
deriving DecidableEq, Repr

inductive Projection where
  | none
  | transient
  | on (persistent : Bool)
deriving DecidableEq, Repr

structure MapEntry where
  id : Nat
  vmeStart : Nat
  vmeEnd : Nat
  object : Option Nat
  offset : Nat
  isShared : Bool
  isSubMap : Bool
  inTransition : Bool
  needsWakeup : Bool
  needsCopy : Bool
  protection : VmProt
  maxProtection : VmProt
  inheritance : VmInherit
  wiredCount : BitVec 16
  userWiredCount : BitVec 16
  projectedOn : Projection
deriving DecidableEq, Repr

structure MapHeader where
  minOffset : Nat
  maxOffset : Nat
  nentries : Nat
  size : Nat
  hint : Option Nat
  firstFree : Option Nat
  waitForSpace : Bool
  nextId : Nat
deriving DecidableEq, Repr

structure VmMap where
  hdr : MapHeader
  entries : List MapEntry
deriving DecidableEq, Repr

structure Place where
  found : Bool
  before : List MapEntry
  after : List MapEntry
deriving DecidableEq, Repr

namespace MapEntry

def source (e : MapEntry) (p : Nat) : Option (Nat × Nat) :=
  e.object.map fun object => (object, (e.offset + (p - e.vmeStart)) % wordSize)

def length (e : MapEntry) : Nat := e.vmeEnd - e.vmeStart

def front (e : MapEntry) (address : Nat) : MapEntry := { e with vmeEnd := address }

def rear (e : MapEntry) (address : Nat) : MapEntry :=
  { e with vmeStart := address, offset := (e.offset + (address - e.vmeStart)) % wordSize }

end MapEntry

namespace MapHeader

def link (hdr : MapHeader) : MapHeader :=
  { hdr with nentries := hdr.nentries + 1, nextId := hdr.nextId + 1 }

def clipStart (hdr : MapHeader) (e : MapEntry) (address : Nat) : MapHeader × List MapEntry × MapEntry :=
  if e.vmeStart < address then
    (hdr.link, [{ e.front address with id := hdr.nextId }], e.rear address)
  else
    (hdr, [], e)

def clipEnd (hdr : MapHeader) (e : MapEntry) (address : Nat) : MapHeader × MapEntry × List MapEntry :=
  if address < e.vmeEnd then
    (hdr.link, e.front address, [{ e.rear address with id := hdr.nextId }])
  else
    (hdr, e, [])

end MapHeader

def Place.hint (place : Place) : Option Nat :=
  (if place.found then place.after.head? else place.before.getLast?).map MapEntry.id

namespace VmMap

def searchEntry (address : Nat) : Nat → List MapEntry → List MapEntry → Place
  | n + 1, before, entry :: after =>
    if address < entry.vmeEnd then
      ⟨decide (entry.vmeStart ≤ address), before, entry :: after⟩
    else
      searchEntry address n (before ++ [entry]) after
  | _, before, after => ⟨false, before, after⟩

def hintIndex (m : VmMap) : Nat :=
  match m.hdr.hint with
  | none => 0
  | some id => m.entries.findIdx fun e => e.id == id

def saveHint (hdr : MapHeader) (place : Place) : MapHeader × Place := ({ hdr with hint := place.hint }, place)

def lookupEntry (m : VmMap) (address : Nat) : MapHeader × Place :=
  match m.entries.drop m.hintIndex with
  | [] => saveHint m.hdr ⟨false, m.entries, []⟩
  | cur :: rest =>
    if cur.vmeStart ≤ address then
      if address < cur.vmeEnd then
        (m.hdr, ⟨true, m.entries.take m.hintIndex, cur :: rest⟩)
      else
        saveHint m.hdr (searchEntry address (cur :: rest).length (m.entries.take m.hintIndex) (cur :: rest))
    else
      saveHint m.hdr (searchEntry address (m.hintIndex + 1) [] m.entries)

end VmMap

end Vm
