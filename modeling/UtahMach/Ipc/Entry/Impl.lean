import UtahMach.Data.Splay.Traverse
import UtahMach.Ipc.Hash.Basic

/-!
This module contains the primitive functions that manipulate capabilities. A result `none` stands
for a failed assertion, for an access to an entry that does not exist, or for a loop that does not
end.
-/

namespace Ipc

abbrev Memory := List Bool

def Memory.alloc : Memory → Bool × Memory
  | [] => (false, [])
  | ok :: mem => (ok, mem)

def ipcEntryTreeCollision (s : Space) (name : Nat) : Option (Bool × Space) := do
  assert (s.isActive = true)
  let ((lower, upper), tree) := s.isTree.bounds name
  let lower := lower.getD machPortLargest
  let upper := upper.getD machPortSmallest
  let index := machPortIndex name
  return ((lower != machPortLargest && machPortIndex lower == index) ||
    (upper != machPortSmallest && machPortIndex upper == index), { s with isTree := tree })

def ipcEntryLookup (s : Space) (name : Nat) : Option (Option Loc × Space) := do
  assert (s.isActive = true)
  let index := machPortIndex name
  if index < s.isTableSize then
    let bits := (s.isTable index).ieBits
    if bits.gen ≠ machPortGen name then
      if bits.collision then
        assert (0 < s.isTreeTotal)
        treeLookup
      else
        return (none, s)
    else if bits.type = .none then
      return (none, s)
    else
      return (some (.table index), s)
  else if s.isTreeTotal = 0 then
    return (none, s)
  else
    treeLookup
where
  treeLookup : Option (Option Loc × Space) := do
    let (found, tree) := s.isTree.lookup name
    match found with
    | none => return (none, { s with isTree := tree })
    | some e =>
      assert (e.ieBits.type ≠ .none)
      return (some (.tree name), { s with isTree := tree })

def ipcEntryGet (s : Space) : Option (Except KernReturn (Nat × Loc) × Space) := do
  assert (s.isActive = true)
  let firstFree := (s.isTable 0).ieNext
  if firstFree = 0 then
    return (.error .noSpace, s)
  else
    let e := s.isTable firstFree
    assert (e.ieBits = .ofGen e.ieBits.gen)
    let gen := (e.ieBits.gen + 1) % 256
    let s := (s.setNext 0 e.ieNext).setTable firstFree ⟨.ofGen gen, e.ieObject, 0⟩
    let name := machPortMake firstFree gen
    assert (machPortValid name = true)
    assert (e.ieObject = ioNull)
    return (.ok (name, .table firstFree), s)

def Entry.orGen (e : Entry) (name : Nat) : Entry :=
  { e with ieBits := { e.ieBits with gen := e.ieBits.gen ||| machPortGen name } }

def ipcEntryDealloc (s : Space) (name : Nat) (loc : Loc) : Option Space := do
  assert (s.isActive = true)
  let e ← s.entry loc
  assert (e.ieObject = ioNull)
  assert (e.ieRequest = 0)
  let index := machPortIndex name
  if index < s.isTableSize ∧ loc = .table index then
    assert (e.ieBits.gen = machPortGen name)
    if e.ieBits.collision then
      migrate index
    else
      let s := s.setTable index { e with ieBits := .ofGen e.ieBits.gen, ieRequest := (s.isTable 0).ieNext }
      return s.setNext 0 index
  else
    assert (loc = .tree name)
    assert (0 < s.isTreeTotal)
    let s := { s with
      isTree := s.isTree.delete machPortLargest name
      isTreeTotal := s.isTreeTotal - 1 }
    if index < s.isTableSize then
      assert ((s.isTable index).ieBits.collision = true)
      let (collision, s) ← ipcEntryTreeCollision s name
      return if collision then s else s.setCollision index false
    else if index < itsSize s.isTableNext then
      let (collision, s) ← ipcEntryTreeCollision s name
      if collision then
        return s
      else
        assert (0 < s.isTreeSmall)
        return { s with isTreeSmall := s.isTreeSmall - 1 }
    else
      return s
where
  migrate (index : Nat) : Option Space := do
    let (tree, collisions) := s.isTree.split (machPortMake (index + 1) 0)
    let (collisions, small) := collisions.split (machPortMake index 0)
    let (tname, tentry) ← collisions.pick
    assert (machPortIndex tname = index)
    let s ← moveToTable { s with isTree := tree } index tname tentry
    let collisions := collisions.delete machPortLargest tname
    assert (0 < s.isTreeTotal)
    let s := { s with isTreeTotal := s.isTreeTotal - 1 }
    -- check if collision bit should still be on
    let s := match collisions.pick with
      | some _ =>
        let s := s.setCollision index true
        { s with isTree := .join machPortSmallest s.isTree collisions }
      | none => s
    return { s with isTree := .join machPortSmallest s.isTree small }
  moveToTable (s : Space) (index : Nat) (tname : Nat) (tentry : Entry) : Option Space := do
    let s := s.setTable index (tentry.orGen tname)
    if tentry.ieBits.type = .send then
      let s ← ipcHashGlobalDelete s tentry.ieObject tname
      ipcHashLocalInsert s tentry.ieObject index
    else
      return s

def growMoveEntry (osize size : Nat) (s : Space) (name : Nat) (tentry : Entry)
    : Option (Space × Bool) := do
  let index := machPortIndex name
  assert (osize ≤ index ∧ index < size)
  let bits := (s.isTable index).ieBits
  if bits ≠ .ofGen 0 then
    assert (bits.type ≠ .none)
    assert (bits.gen ≠ machPortGen name)
    return (s.setCollision index true, false)
  else
    assert (tentry.ieBits.type ≠ .none)
    let s ← ipcEntryDealloc.moveToTable s index name tentry
    return ({ s with isTreeTotal := s.isTreeTotal - 1 }, true)

def growMoveStep (osize size : Nat) (s : Option Space) (name : Nat) (tentry : Entry)
    : Option Space × Bool :=
  match s.bind fun s => growMoveEntry osize size s name tentry with
  | none => (none, false)
  | some (s, delete) => (some s, delete)

def growCountStep (st : Nat × Nat) (name : Nat) (_ : Entry) : (Nat × Nat) × Bool :=
  let nindex := machPortIndex name
  if nindex ≠ st.2 then ((st.1 + 1, nindex), false) else (st, false)

def growTree (s : Space) (osize size nsize : Nat) : Option Space :=
  if 0 < s.isTreeTotal then do
    let (tree, small) := s.isTree.split (machPortMake nsize 0)
    let (small, move) := small.split (machPortMake size 0)
    let (move, ignore) := move.split (machPortMake osize 0)
    let (s, move) ← Splay.traverse machPortLargest (growMoveStep osize size)
      (some { s with isTree := tree }) move
    let s ← s
    let ((nosmall, _), small) ← Splay.traverse machPortLargest growCountStep (0, 0) small
    assert (nosmall ≤ nsize - size)
    assert (nosmall ≤ s.isTreeTotal)
    let tree := Splay.SplayTree.join machPortSmallest s.isTree small
    let tree := Splay.SplayTree.join machPortSmallest tree move
    let tree := Splay.SplayTree.join machPortSmallest tree ignore
    return { s with isTreeSmall := nosmall, isTree := tree }
  else
    return s

def growCopy (s : Space) (osize size : Nat) : Space :=
  { s with
    isTable := fun i => if i < osize then s.isTable i else ⟨.ofGen 0, ioNull, 0⟩
    isIndex := fun _ => 0
    isTableSize := size
    isTableNext := s.isTableNext + 1 }

def growRehash (s : Space) (i : Nat) : Option Space :=
  if (s.isTable i).ieBits.type = .send then
    ipcHashLocalInsert s (s.isTable i).ieObject i
  else
    some s

def growFree (st : Space × Nat) (i : Nat) : Space × Nat :=
  let (s, freeIndex) := st
  let e := s.isTable i
  if e.ieBits = .ofGen 0 then
    (s.setTable i { e with ieBits := .ofGen genMask, ieRequest := freeIndex }, i)
  else
    (s, freeIndex)

def growOnce (s : Space) (osize size nsize : Nat) : Option Space := do
  let s := growCopy s osize size
  let s ← (List.range osize).foldlM growRehash s
  let s ← growTree s osize size nsize
  let (s, freeIndex) := (List.range' osize (size - osize)).reverse.foldl growFree
    (s, (s.isTable 0).ieNext)
  return s.setNext 0 freeIndex

def ipcEntryGrowTable : Nat → Memory → Space → Option (KernReturn × Memory × Space)
  | 0, _, _ => none
  | fuel + 1, mem, s => do
    assert (s.isActive = true)
    if s.isGrowing then
      -- somebody else grows the table, wait for them to finish
      return (.success, mem, s)
    else
      let its := s.isTableNext
      let osize := itsSize (its - 1)
      let size := itsSize its
      let nsize := itsSize (its + 1)
      if osize = size then
        return (.noSpace, mem, s)
      else
        assert (osize < size ∧ size ≤ nsize)
        let (ok, mem) := mem.alloc
        if ok then
          assert (s.isTableSize = osize)
          let s ← growOnce s osize size nsize
          if 0 < s.isTreeSmall ∧
              (nsize - size) * entryBytes < s.isTreeSmall * treeEntryBytes then
            ipcEntryGrowTable fuel mem s
          else
            return (.success, mem, s)
        else
          return (.resourceShortage, mem, s)

def ipcEntryAlloc : Nat → Memory → Space
    → Option (Except KernReturn (Nat × Loc) × Memory × Space)
  | 0, _, _ => none
  | fuel + 1, mem, s => do
    if s.isActive then
      match ← ipcEntryGet s with
      | (.ok found, s) => return (.ok found, mem, s)
      | (.error _, s) =>
        match ← ipcEntryGrowTable ipcTableEntriesSize mem s with
        | (.success, mem, s) => ipcEntryAlloc fuel mem s
        | (kr, mem, s) => return (.error kr, mem, s)
    else
      return (.error .invalidTask, mem, s)

def freePredecessor (table : Nat → Entry) (index : Nat) : Nat → Nat → Option Nat
  | 0, _ => none
  | fuel + 1, freeIndex =>
    let nextIndex := (table freeIndex).ieNext
    if nextIndex = index then some freeIndex else freePredecessor table index fuel nextIndex

inductive AllocStep where
  | done (res : Except KernReturn Loc) (mem : Memory) (s : Space)
  | retry (treeEntry : Bool) (mem : Memory) (s : Space)

def ipcEntryAllocNameStep (name : Nat) (treeEntry : Bool) (mem : Memory) (s : Space)
    : Option AllocStep := do
  let index := machPortIndex name
  if s.isActive then
    if 0 < index ∧ index < s.isTableSize then
      let e := s.isTable index
      if e.ieBits.type ≠ .none then
        if e.ieBits.gen = machPortGen name then
          return .done (.ok (.table index)) mem s
        else
          inTree
      else
        -- rip the entry out of the free list
        let freeIndex ← freePredecessor s.isTable index s.isTableSize 0
        let s := s.setNext freeIndex e.ieNext
        assert (e.ieObject = ioNull)
        let s := s.setTable index ⟨.ofGen (machPortGen name), e.ieObject, 0⟩
        return .done (.ok (.table index)) mem s
    else
      inTree
  else
    return .done (.error .invalidTask) mem s
where
  inTree : Option AllocStep := do
    if 0 < s.isTreeTotal then
      let (found, tree) := s.isTree.lookup name
      let s := { s with isTree := tree }
      match found with
      | some e =>
        assert (e.ieBits.type ≠ .none)
        return .done (.ok (.tree name)) mem s
      | none => notFound s
    else
      notFound s
  notFound (s : Space) : Option AllocStep := do
    let index := machPortIndex name
    let size := itsSize s.isTableNext
    if s.isTableSize ≤ index ∧ index < size ∧
        (size - s.isTableSize) * entryBytes < (s.isTreeSmall + 1) * treeEntryBytes then
      -- can save space by growing the table
      match ← ipcEntryGrowTable ipcTableEntriesSize mem s with
      | (.success, mem, s) => return .retry treeEntry mem s
      | (kr, mem, s) =>
        assert (kr ≠ .noSpace)
        return .done (.error kr) mem s
    else if treeEntry then
      let s ← enterTree { s with isTreeTotal := s.isTreeTotal + 1 } size
      return .done (.ok (.tree name)) mem
        { s with isTree := s.isTree.insert name ⟨.ofGen 0, ioNull, 0⟩ }
    else
      let (ok, mem) := mem.alloc
      if ok then
        return .retry true mem s
      else
        return .done (.error .resourceShortage) mem s
  enterTree (s : Space) (size : Nat) : Option Space := do
    let index := machPortIndex name
    if index < s.isTableSize then
      return s.setCollision index true
    else if index < size then
      let (collision, s) ← ipcEntryTreeCollision s name
      return if collision then s else { s with isTreeSmall := s.isTreeSmall + 1 }
    else
      return s

def ipcEntryAllocName (name : Nat) : Nat → Bool → Memory → Space
    → Option (Except KernReturn Loc × Memory × Space)
  | 0, _, _, _ => none
  | fuel + 1, treeEntry, mem, s => do
    match ← ipcEntryAllocNameStep name treeEntry mem s with
    | .done res mem s => return (res, mem, s)
    | .retry treeEntry mem s => ipcEntryAllocName name fuel treeEntry mem s

end Ipc
