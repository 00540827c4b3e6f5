import UtahMach.Data.LinearProbe
import UtahMach.Ipc.Entry.Basic

/-!
This module contains the reverse hash tables, which convert a space and an object to a name.
-/

namespace Ipc

def ihLocalHash (obj : Nat) (size : Nat) : Nat := (obj / 64) % size

def ihGlobalHash (addr mask obj : Nat) : Nat := (addr / 16 + obj / 64) &&& mask

def Space.bucket (s : Space) (obj : Nat) : Nat := ihGlobalHash s.isAddr s.ihGlobalMask obj

def Space.home (s : Space) (index : Nat) : Nat := ihLocalHash (s.isTable index).ieObject s.isTableSize

def ipcHashLocalLookup (s : Space) (obj : Nat) : Option (Option (Nat × Loc)) := do
  assert (obj ≠ ioNull)
  let found ← LinearProbe.lookup s.isTableSize (fun index => (s.isTable index).ieObject == obj)
    s.isIndex (ihLocalHash obj s.isTableSize)
  return found.map fun index => (machPortMake index (s.isTable index).ieBits.gen, .table index)

def ipcHashLocalInsert (s : Space) (obj : Nat) (index : Nat) : Option Space := do
  assert (index ≠ 0)
  assert (obj ≠ ioNull)
  assert ((s.isTable index).ieObject = obj)
  let isIndex ← LinearProbe.insert s.isTableSize s.isIndex (ihLocalHash obj s.isTableSize) index
  return { s with isIndex := isIndex }

def ipcHashLocalDelete (s : Space) (obj : Nat) (index : Nat) : Option Space := do
  assert (index ≠ 0)
  assert (obj ≠ ioNull)
  assert ((s.isTable index).ieObject = obj)
  let isIndex ← LinearProbe.delete s.isTableSize s.home s.isIndex index
  return { s with isIndex := isIndex }

def ihGlobalMatch (s : Space) (obj : Nat) (name : Nat) : Option Bool :=
  (s.isTree.get? name).map fun e => e.ieObject == obj

def ihGlobalFind (s : Space) (obj : Nat) : List Nat → Option (Option Nat × List Nat)
  | [] => some (none, [])
  | name :: rest => do
    if ← ihGlobalMatch s obj name then
      return (some name, rest)
    else
      let (found, rest) ← ihGlobalFind s obj rest
      return (found, name :: rest)

def Space.setBucket (s : Space) (hash : Nat) (names : List Nat) : Space :=
  { s with ihGlobal := fun h => if h = hash then names else s.ihGlobal h }

def ipcHashGlobalLookup (s : Space) (obj : Nat)
    : Option (Option (Nat × Loc) × Space) := do
  assert (obj ≠ ioNull)
  let hash := s.bucket obj
  match ← ihGlobalFind s obj (s.ihGlobal hash) with
  | (none, _) => return (none, s)
  | (some name, rest) => return (some (name, .tree name), s.setBucket hash (name :: rest))

def ipcHashGlobalInsert (s : Space) (obj : Nat) (name : Nat) : Option Space := do
  assert (obj ≠ ioNull)
  assert (s.isTreeHash + 1 ≤ s.isTreeTotal)
  let hash := s.bucket obj
  return { s.setBucket hash (name :: s.ihGlobal hash) with isTreeHash := s.isTreeHash + 1 }

def ipcHashGlobalDelete (s : Space) (obj : Nat) (name : Nat) : Option Space := do
  assert (obj ≠ ioNull)
  assert (0 < s.isTreeHash)
  let hash := s.bucket obj
  assert (name ∈ s.ihGlobal hash)
  return { s.setBucket hash ((s.ihGlobal hash).erase name) with isTreeHash := s.isTreeHash - 1 }

def ipcHashLookup (s : Space) (obj : Nat) : Option (Option (Nat × Loc) × Space) := do
  match ← ipcHashLocalLookup s obj with
  | some found => return (some found, s)
  | none =>
    if 0 < s.isTreeHash then
      ipcHashGlobalLookup s obj
    else
      return (none, s)

def ipcHashInsert (s : Space) (obj : Nat) (name : Nat) (loc : Loc) : Option Space :=
  if loc = .table (machPortIndex name) ∧ machPortIndex name < s.isTableSize then
    ipcHashLocalInsert s obj (machPortIndex name)
  else do
    let e ← s.entry loc
    assert (loc = .tree name)
    assert (e.ieObject = obj)
    ipcHashGlobalInsert s obj name

def ipcHashDelete (s : Space) (obj : Nat) (name : Nat) (loc : Loc) : Option Space :=
  if loc = .table (machPortIndex name) ∧ machPortIndex name < s.isTableSize then
    ipcHashLocalDelete s obj (machPortIndex name)
  else do
    let e ← s.entry loc
    assert (loc = .tree name)
    assert (e.ieObject = obj)
    ipcHashGlobalDelete s obj name

end Ipc
