import UtahMach.Data.Extent
import UtahMach.Data.Linked
import UtahMach.Vm.Map.Basic

/-!
This module contains the zones of memory elements of one size, and their garbage collection.
-/

namespace Kern.Zalloc

open Vm (pageSize roundPage)

structure ZoneMap where
  minAddress : Nat
  maxAddress : Nat
  pos : 0 < minAddress
  le : minAddress ≤ maxAddress
  aligned : (maxAddress - minAddress) % pageSize = 0
  bound : maxAddress ≤ 2 ^ 32

structure PageEntry where
  inFreeList : Int
  allocCount : Int
deriving DecidableEq, Repr

structure Zone where
  freeElements : Nat
  curSize : Nat
  maxSize : Nat
  elemSize : Nat
  allocSize : Nat
  pageable : Bool
  collectable : Bool
  exhaustible : Bool
  fixed : Bool
deriving DecidableEq, Repr

structure Shared where
  table : Nat → PageEntry
  mem : Nat → Nat
  nextSpace : Nat
  endOfSpace : Nat
  held : Nat → Bool

def short (x : Int) : Int := x.bmod (2 ^ 16)

def zonePageUsed : Int := 0

def zonePageUnused : Int := -1

namespace ZoneMap

variable (c : ZoneMap)

def zonePage (addr : Nat) : Nat := (addr - c.minAddress) / pageSize

def zonePages : Nat := (c.maxAddress - c.minAddress) / pageSize

def Outside (addr size : Nat) : Prop := addr < c.minAddress ∨ c.maxAddress < addr + size

instance (addr size : Nat) : Decidable (c.Outside addr size) := inferInstanceAs (Decidable (_ ∨ _))

def Touches (addr size i : Nat) : Prop := c.zonePage addr ≤ i ∧ i ≤ c.zonePage (addr + size - 1)

instance (addr size i : Nat) : Decidable (c.Touches addr size i) := inferInstanceAs (Decidable (_ ∧ _))

def eachPage (f : PageEntry → PageEntry) (addr size : Nat) (table : Nat → PageEntry) : Nat → PageEntry :=
  if c.Outside addr size then table
  else fun i => if c.Touches addr size i then f (table i) else table i

def zonePageInUse (addr size : Nat) (table : Nat → PageEntry) : Nat → PageEntry :=
  c.eachPage (fun e => { e with inFreeList := short (e.inFreeList - 1) }) addr size table

def zonePageFree (addr size : Nat) (table : Nat → PageEntry) : Nat → PageEntry :=
  c.eachPage (fun e =>
    { e with inFreeList := if e.inFreeList = zonePageUnused then 1 else short (e.inFreeList + 1) }) addr size table

def zonePageInit (addr size : Nat) (value : Int) (table : Nat → PageEntry) : Nat → PageEntry :=
  c.eachPage (fun _ => ⟨0, value⟩) addr size table

def zonePageAlloc (addr size : Nat) (table : Nat → PageEntry) : Nat → PageEntry :=
  c.eachPage (fun e =>
    { e with allocCount := if e.allocCount = zonePageUnused then 1 else short (e.allocCount + 1) }) addr size table

def zonePageDealloc (addr size : Nat) (table : Nat → PageEntry) : Nat → PageEntry :=
  c.eachPage (fun e => { e with allocCount := short (e.allocCount - 1) }) addr size table

def pagesOf (addr size : Nat) : List Nat :=
  List.range' (c.zonePage addr) (c.zonePage (addr + size - 1) + 1 - c.zonePage addr)

def zoneAddFreePageList (freeList : List Nat) (addr size : Nat) (table : Nat → PageEntry)
    : List Nat × (Nat → PageEntry) :=
  if c.Outside addr size then (freeList, table)
  else
    let pages := (c.pagesOf addr size).filter fun i => (table i).allocCount = 0
    (pages.reverse ++ freeList, fun i => if i ∈ pages then ⟨0, zonePageUnused⟩ else table i)

def kmemAlloc (addr size : Nat) (m : Shared) : Option Shared :=
  if 0 < size ∧ c.minAddress ≤ addr ∧ (addr - c.minAddress) % pageSize = 0 ∧ addr + size ≤ c.maxAddress ∧
      ∀ i ∈ c.pagesOf addr size, m.held i = false then
    some { m with held := fun i => decide (i ∈ c.pagesOf addr size) || m.held i }
  else none

end ZoneMap

namespace Zone

def addToZone (zone : Zone) (mem : Nat → Nat) (element : Nat) : Zone × (Nat → Nat) :=
  ({ zone with freeElements := element }, Function.update mem element zone.freeElements)

def removeFromZone (zone : Zone) (mem : Nat → Nat) : Zone × Nat :=
  if zone.freeElements ≠ 0 then ({ zone with freeElements := mem zone.freeElements }, zone.freeElements)
  else (zone, 0)

end Zone

def zinit (size max alloc : Nat) (pageable collectable exhaustible fixed : Bool) : Zone :=
  let alloc := if alloc = 0 then pageSize else alloc
  let size := if size = 0 then 4 else size
  let max := roundPage max
  let alloc := roundPage alloc
  { freeElements := 0
    curSize := 0
    maxSize := if max < alloc then alloc else max
    elemSize := size - 1 + 4 - (size - 1) % 4
    allocSize := alloc
    pageable := pageable
    collectable := collectable
    exhaustible := exhaustible
    fixed := fixed }

variable (c : ZoneMap)

def zcramElements : Nat → Nat → Zone → Shared → Zone × Shared
  | 0, _, zone, m => (zone, m)
  | n + 1, newmem, zone, m =>
    let (zone, mem) := zone.addToZone m.mem newmem
    let table := c.zonePageAlloc newmem zone.elemSize m.table
    zcramElements n (newmem + zone.elemSize) { zone with curSize := zone.curSize + zone.elemSize }
      { m with mem := mem, table := table }

/--
There is no result if the kernel panics.
-/
def zcram (zone : Zone) (newmem size : Nat) (m : Shared) : Option (Zone × Shared) :=
  if newmem = 0 then none else some (zcramElements c (size / zone.elemSize) newmem zone m)

def zgetSpace (size : Nat) : List Nat → Shared → Option (Shared × Nat)
  | spaces, m =>
    if (m.nextSpace + size) % 2 ^ 32 ≤ m.endOfSpace then
      some ({ m with nextSpace := (m.nextSpace + size) % 2 ^ 32 }, m.nextSpace)
    else
      match spaces with
      | [] => none
      | newSpace :: spaces => do
        let spaceToAdd := roundPage size
        let m ← c.kmemAlloc newSpace spaceToAdd m
        let table := c.zonePageInit newSpace spaceToAdd zonePageUsed m.table
        let nextSpace := if newSpace ≠ m.endOfSpace then newSpace else m.nextSpace
        let endOfSpace := (newSpace + spaceToAdd) % 2 ^ 32
        zgetSpace size spaces { m with table := table, nextSpace := nextSpace, endOfSpace := endOfSpace }

def Zone.full (zone : Zone) : Bool :=
  decide (zone.maxSize < (zone.curSize + if zone.pageable then zone.allocSize else zone.elemSize) % 2 ^ 32)

def Zone.grow (zone : Zone) : Zone :=
  if zone.full ∧ ¬ zone.fixed then { zone with maxSize := (zone.maxSize + zone.maxSize / 2) % 2 ^ 32 } else zone

def zallocSpace (spaces : List Nat) (zone : Zone) (m : Shared) : Option (Zone × Shared × Nat) := do
  let (m, addr) ← zgetSpace c zone.elemSize spaces m
  if addr = 0 then none
  else
    let table := c.zonePageAlloc addr zone.elemSize m.table
    some ({ zone with curSize := zone.curSize + zone.elemSize }, { m with table := table }, addr)

def zallocMore (addr : Nat) (zone : Zone) (m : Shared) : Option (Zone × Shared) := do
  let m ← c.kmemAlloc addr zone.allocSize m
  if zone.pageable then zcram c zone addr zone.allocSize m
  else
    let table := c.zonePageInit addr zone.allocSize zonePageUsed m.table
    zcram c zone addr zone.allocSize { m with table := table }

def zalloc : List Nat → Zone → Shared → Option (Zone × Shared × Nat)
  | spaces, zone, m =>
    if zone.freeElements ≠ 0 then
      let (zone, addr) := zone.removeFromZone m.mem
      some (zone, m, addr)
    else if zone.full ∧ zone.exhaustible then some (zone, m, 0)
    else if zone.pageable ∨ zone.collectable then
      match spaces with
      | [] => none
      | addr :: spaces => do
        let (zone, m) ← zallocMore c addr zone.grow m
        zalloc spaces zone m
    else zallocSpace c spaces zone.grow m

def zget (zone : Zone) (m : Shared) : Zone × Shared × Nat :=
  let (zone, addr) := zone.removeFromZone m.mem
  (zone, m, addr)

def zfree (zone : Zone) (elem : Nat) (m : Shared) : Zone × Shared :=
  let (zone, mem) := zone.addToZone m.mem elem
  (zone, { m with mem := mem })

def addresses : Nat := 2 ^ 32

def walk (mem : Nat → Nat) : Nat → Nat → List Nat
  | 0, _ => []
  | fuel + 1, elt => if elt = 0 then [] else elt :: walk mem fuel (mem elt)

def Zone.freeList (zone : Zone) (mem : Nat → Nat) : List Nat := walk mem addresses zone.freeElements

def countFree (elemSize : Nat) (mem : Nat → Nat) : Nat → Nat → (Nat → PageEntry) → Option (Nat → PageEntry)
  | fuel, elt, table =>
    if elt = 0 then some table
    else
      match fuel with
      | 0 => none
      | fuel + 1 => countFree elemSize mem fuel (mem elt) (c.zonePageFree elt elemSize table)

structure Gc where
  zone : Zone
  table : Nat → PageEntry
  mem : Nat → Nat
  pages : List Nat
  collected : List Nat

def Gc.eligible (g : Gc) (elt : Nat) : Bool :=
  decide (c.minAddress ≤ elt ∧ elt ≤ c.maxAddress ∧
    (g.table (c.zonePage elt)).inFreeList = (g.table (c.zonePage elt)).allocCount)

def Gc.collect (g : Gc) (elt : Nat) : Gc :=
  let size := g.zone.elemSize
  let zone := { g.zone with curSize := g.zone.curSize - size }
  let table := c.zonePageDealloc elt size (c.zonePageInUse elt size g.table)
  let g := { g with zone := zone, table := table, collected := g.collected ++ [elt] }
  if (table (c.zonePage elt)).allocCount = 0 ∨ (table (c.zonePage (elt + 4 * (size - 1)))).allocCount = 0 then
    let (pages, table) := c.zoneAddFreePageList g.pages elt size table
    { g with pages := pages, table := table }
  else g

def Gc.keep (g : Gc) (elt : Nat) : Gc :=
  if c.minAddress ≤ elt ∧ elt ≤ c.maxAddress then
    let entry := g.table (c.zonePage elt)
    { g with table := Function.update g.table (c.zonePage elt) { entry with inFreeList := 0 } }
  else g

def gcElements : Nat → Nat → Nat → Gc → Option Gc
  | fuel, last, elt, g =>
    if elt = 0 then some g
    else
      match fuel with
      | 0 => none
      | fuel + 1 =>
        if g.eligible c elt then
          let g := g.collect c elt
          let next := g.mem elt
          if elt = last then gcElements fuel next next { g with zone := { g.zone with freeElements := next } }
          else gcElements fuel last next { g with mem := Function.update g.mem last next }
        else
          let g := g.keep c elt
          gcElements fuel elt (g.mem elt) g

def gcZone (zone : Zone) (m : Shared) (pages : List Nat) : Option Gc :=
  if zone.collectable ∧ ¬ zone.pageable then do
    let table ← countFree c zone.elemSize m.mem addresses zone.freeElements m.table
    gcElements c addresses zone.freeElements zone.freeElements ⟨zone, table, m.mem, pages, []⟩
  else some ⟨zone, m.table, m.mem, pages, []⟩

def gcZones : List Zone → Shared → List Nat → Option (List (Zone × List Nat) × Shared × List Nat)
  | [], m, pages => some ([], m, pages)
  | zone :: zones, m, pages => do
    let g ← gcZone c zone m pages
    let (rest, m, pages) ← gcZones zones { m with table := g.table, mem := g.mem } g.pages
    some ((g.zone, g.collected) :: rest, m, pages)

def zoneGc (zones : List Zone) (m : Shared) : Option (List (Zone × List Nat) × Shared × List Nat) := do
  let (zones, m, pages) ← gcZones c zones m []
  some (zones, { m with held := fun i => m.held i && decide (i ∉ pages) }, pages)

end Kern.Zalloc
