import Mathlib

/-!
This module contains top-down splay trees that are kept in unassembled form.
-/

namespace Splay

inductive Tree (κ : Type) (α : Type) where
  | nil : Tree κ α
  | node (l : Tree κ α) (k : κ) (v : α) (r : Tree κ α) : Tree κ α
  deriving Repr, DecidableEq

structure LFrame (κ : Type) (α : Type) where
  l : Tree κ α
  k : κ
  v : α
  deriving Repr, DecidableEq

structure RFrame (κ : Type) (α : Type) where
  k : κ
  v : α
  r : Tree κ α
  deriving Repr, DecidableEq

namespace Tree

def isNil : Tree κ α → Bool
  | nil => true
  | node .. => false

def toList : Tree κ α → List (κ × α)
  | nil => []
  | node l k v r => l.toList ++ (k, v) :: r.toList

def map (f : κ → α → α) : Tree κ α → Tree κ α
  | nil => nil
  | node l k v r => node (l.map f) k (f k v) (r.map f)

def rootKey (d : κ) : Tree κ α → κ
  | nil => d
  | node _ k _ _ => k

end Tree

def LFrame.map (f : κ → α → α) (fr : LFrame κ α) : LFrame κ α := ⟨fr.l.map f, fr.k, f fr.k fr.v⟩

def RFrame.map (f : κ → α → α) (fr : RFrame κ α) : RFrame κ α := ⟨fr.k, f fr.k fr.v, fr.r.map f⟩

def plugL : List (LFrame κ α) → Tree κ α → Tree κ α
  | [], t => t
  | f :: fs, t => plugL fs (.node f.l f.k f.v t)

def plugR : List (RFrame κ α) → Tree κ α → Tree κ α
  | [], t => t
  | f :: fs, t => plugR fs (.node t f.k f.v f.r)

structure Parts (κ : Type) (α : Type) where
  mid : Tree κ α
  left : List (LFrame κ α)
  right : List (RFrame κ α)
  deriving Repr, DecidableEq

variable [LinearOrder κ]

def search (key : κ) : Tree κ α → List (LFrame κ α) → List (RFrame κ α) → Parts κ α
  | .nil, left, right => ⟨.nil, left, right⟩
  | .node l k v r, left, right =>
    if key = k then
      ⟨.node l k v r, left, right⟩
    else if key < k then
      match l with
      | .nil => ⟨.node .nil k v r, left, right⟩
      | .node ll lk lv lr =>
        if key < lk ∧ ll.isNil = false then
          search key ll left (⟨lk, lv, .node lr k v r⟩ :: right)
        else if lk < key ∧ lr.isNil = false then
          search key lr (⟨ll, lk, lv⟩ :: left) (⟨k, v, r⟩ :: right)
        else
          search key (.node ll lk lv lr) left (⟨k, v, r⟩ :: right)
    else
      match r with
      | .nil => ⟨.node l k v .nil, left, right⟩
      | .node rl rk rv rr =>
        if rk < key ∧ rr.isNil = false then
          search key rr (⟨.node l k v rl, rk, rv⟩ :: left) right
        else if key < rk ∧ rl.isNil = false then
          search key rl (⟨l, k, v⟩ :: left) (⟨rk, rv, rr⟩ :: right)
        else
          search key (.node rl rk rv rr) (⟨l, k, v⟩ :: left) right

def assemble (p : Parts κ α) : Tree κ α :=
  match p.mid with
  | .nil => .nil
  | .node l k v r => .node (plugL p.left l) k v (plugR p.right r)

def assoc (xs : List (κ × α)) (key : κ) : Option α := (xs.find? (fun p => p.1 = key)).map Prod.snd

structure SplayTree (κ : Type) (α : Type) where
  root : Tree κ α
  name : κ
  ltree : List (LFrame κ α)
  rtree : List (RFrame κ α)
  deriving Repr, DecidableEq

namespace SplayTree

def init (d : κ) : SplayTree κ α := ⟨.nil, d, [], []⟩

def parts (s : SplayTree κ α) : Parts κ α := ⟨s.root, s.ltree, s.rtree⟩

def toList (s : SplayTree κ α) : List (κ × α) := (assemble s.parts).toList

def get? (s : SplayTree κ α) (key : κ) : Option α := assoc s.toList key

def ofRoot (d : κ) (t : Tree κ α) : SplayTree κ α := ⟨t, t.rootKey d, [], []⟩

def splayed (s : SplayTree κ α) (key : κ) : Parts κ α :=
  if s.name = key then s.parts else search key (assemble s.parts) [] []

def pick (s : SplayTree κ α) : Option (κ × α) :=
  match s.root with
  | .nil => none
  | .node _ k v _ => some (k, v)

def lookup (s : SplayTree κ α) (key : κ) : Option α × SplayTree κ α :=
  match s.root with
  | .nil => (none, s)
  | .node .. =>
    let p := s.splayed key
    let s := ⟨p.mid, key, p.left, p.right⟩
    match p.mid with
    | .nil => (none, s)
    | .node _ k v _ => (if key = k then some v else none, s)

def insert (s : SplayTree κ α) (key : κ) (val : α) : SplayTree κ α :=
  match s.root with
  | .nil => ⟨.node .nil key val .nil, key, [], []⟩
  | .node .. =>
    let p := s.splayed key
    if key < p.mid.rootKey key then
      ⟨.node (plugL p.left .nil) key val (plugR p.right p.mid), key, [], []⟩
    else
      ⟨.node (plugL p.left p.mid) key val (plugR p.right .nil), key, [], []⟩

def delete (largest : κ) (s : SplayTree κ α) (key : κ) : SplayTree κ α :=
  let p := s.splayed key
  match p.mid with
  | .nil => s
  | .node l _ _ r =>
    let root := plugL p.left l
    let saved := plugR p.right r
    if root.isNil then
      ofRoot key saved
    else if saved.isNil then
      ofRoot key root
    else
      match assemble (search largest root [] []) with
      | .nil => ofRoot key saved
      | .node l k v _ => ofRoot key (.node l k v saved)

def split (s : SplayTree κ α) (key : κ) : SplayTree κ α × SplayTree κ α :=
  match s.root with
  | .nil => (s, init key)
  | .node .. =>
    let p := s.splayed key
    match p.mid with
    | .nil => (s, init key)
    | .node l k v r =>
      if k < key then
        (ofRoot key (plugR p.right .nil), ofRoot key (.node (plugL p.left l) k v r))
      else
        (⟨.node .nil k v r, key, [], p.right⟩, ofRoot key (plugL p.left l))

def join (smallest : κ) (s small : SplayTree κ α) : SplayTree κ α :=
  match small.root with
  | .nil => s
  | .node .. =>
    let sroot := assemble small.parts
    match s.root with
    | .nil => ofRoot smallest sroot
    | .node .. =>
      match assemble (s.splayed smallest) with
      | .nil => s
      | .node _ k v r => ofRoot smallest (.node sroot k v r)

def bounds (s : SplayTree κ α) (key : κ) : (Option κ × Option κ) × SplayTree κ α :=
  match s.root with
  | .nil => ((none, none), s)
  | .node .. =>
    let p := s.splayed key
    let s := ⟨p.mid, key, p.left, p.right⟩
    let rname := p.mid.rootKey key
    let lower := if rname ≤ key then some rname else p.left.head?.map LFrame.k
    let upper := if key ≤ rname then some rname else p.right.head?.map RFrame.k
    ((lower, upper), s)

def modify (s : SplayTree κ α) (key : κ) (f : α → α) : SplayTree κ α :=
  let g := fun k v => if k = key then f v else v
  ⟨s.root.map g, s.name, s.ltree.map (LFrame.map g), s.rtree.map (RFrame.map g)⟩

end SplayTree

end Splay
