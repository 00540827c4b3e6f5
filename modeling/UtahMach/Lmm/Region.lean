import UtahMach.Lmm.Basic

/-!
This module contains what allocating and freeing memory does to the nodes of a region.
-/

namespace Lmm

open Extent.Apart (append_iff cons_iff)

open Extent

def Aligned (nodes : List Node) : Prop := ∀ n ∈ nodes, n.addr % alignSize = 0 ∧ n.size % alignSize = 0

theorem truncAlign_mod (x : Nat) : truncAlign x % alignSize = 0 := Nat.mul_mod_left _ _

theorem truncAlign_add_mod (x : Nat) : truncAlign x + x % alignSize = x := by
  unfold truncAlign alignSize
  omega

theorem truncAlign_le (x : Nat) : truncAlign x ≤ x := Nat.div_mul_le_self _ _

theorem truncAlign_of_mod (h : x % alignSize = 0) : truncAlign x = x := by
  have := truncAlign_add_mod x
  omega

theorem le_truncAlign (hx : x % alignSize = 0) (hle : x ≤ y) : x ≤ truncAlign y := by
  unfold truncAlign alignSize at *
  omega

theorem roundAlign_eq (h : x + alignSize ≤ addrSize) : roundAlign x = truncAlign (x + (alignSize - 1)) := by
  unfold roundAlign
  rw [Nat.mod_eq_of_lt]
  unfold alignSize at *
  omega

theorem roundAlign_mod (x : Nat) : roundAlign x % alignSize = 0 := truncAlign_mod _

theorem roundUp_le (hy : y % alignSize = 0) (hle : x ≤ y) : truncAlign (x + (alignSize - 1)) ≤ y := by
  unfold truncAlign alignSize at *
  omega

theorem le_roundUp (x : Nat) : x ≤ truncAlign (x + (alignSize - 1)) := by
  unfold truncAlign alignSize
  omega

theorem link_eq_zero_or (nodes : List Node) : link nodes = 0 ∨ ∃ n ∈ nodes, link nodes = n.addr := by
  cases nodes with
  | nil => exact .inl rfl
  | cons n nodes => exact .inr ⟨n, by simp, rfl⟩

structure Cut (nodes : List Node) (block : Extent) (nodes' : List Node) : Prop where
  apart : Extent.Apart nodes'
  aligned : Aligned nodes'
  within : ∀ f ∈ nodes', ∃ g ∈ nodes, g.addr ≤ f.addr ∧ f.addr + f.size ≤ g.addr + g.size
  inside : ∃ g ∈ nodes, g.addr ≤ block.addr ∧ block.addr + block.size ≤ g.addr + g.size
  cover : ∀ a, Extent.count nodes' a + Extent.count [block] a = Extent.count nodes a
  total : Extent.total nodes' + block.size = Extent.total nodes

theorem Aligned.cons_iff : Aligned (node :: nodes)
        ↔ (node.addr % alignSize = 0 ∧ node.size % alignSize = 0) ∧ Aligned nodes := by
  simp [Aligned]

theorem Aligned.append_iff : Aligned (nodes ++ nodes') ↔ Aligned nodes ∧ Aligned nodes' := by
  simp only [Aligned, List.mem_append]
  constructor
  . intro h
    exact ⟨fun n hn => h n (.inl hn), fun n hn => h n (.inr hn)⟩
  . rintro ⟨h, h'⟩ n (hn | hn)
    . exact h n hn
    . exact h' n hn

theorem Cut.cons (h : Cut nodes block nodes') (hapart : Extent.Apart (node :: nodes))
    (haligned : Aligned (node :: nodes)) : Cut (node :: nodes) block (node :: nodes') := by
  obtain ⟨hpos, hroom, -⟩ := cons_iff.1 hapart
  constructor
  . apply cons_iff.2
    refine ⟨hpos, ?_, h.apart⟩
    intro f hf
    obtain ⟨g, hg, hle, -⟩ := h.within f hf
    have := hroom g hg
    omega
  . exact Aligned.cons_iff.2 ⟨(Aligned.cons_iff.1 haligned).1, h.aligned⟩
  . intro f hf
    obtain rfl | hf := List.mem_cons.1 hf
    . exact ⟨f, by simp, Nat.le_refl _, Nat.le_refl _⟩
    . obtain ⟨g, hg, hin⟩ := h.within f hf
      exact ⟨g, by simp [hg], hin⟩
  . obtain ⟨g, hg, hin⟩ := h.inside
    exact ⟨g, by simp [hg], hin⟩
  . intro a
    have := h.cover a
    simp only [count_cons] at *
    omega
  . have := h.total
    simp only [total_cons] at *
    omega

theorem Cut.of_node {x m n : Nat} (hapart : Extent.Apart (node :: next))
    (haligned : Aligned (node :: next)) (hx : x % alignSize = 0) (hm : m % alignSize = 0)
    (hpos : 0 < m) (hle : node.addr ≤ x) (hend : x + m + n = node.addr + node.size)
    : Cut (node :: next) ⟨x, m⟩ (nonempty node.addr (x - node.addr) ++ (nonempty (x + m) n ++ next)) := by
  obtain ⟨-, hroom, hrest⟩ := cons_iff.1 hapart
  obtain ⟨⟨hna, hns⟩, hnext⟩ := Aligned.cons_iff.1 haligned
  have hafter : ∀ f ∈ nonempty (x + m) n ++ next, f = ⟨x + m, n⟩ ∨ f ∈ next := by
    intro f hf
    rw [List.mem_append, mem_nonempty] at hf
    exact hf.imp_left And.left
  have hpieces : ∀ f ∈ nonempty node.addr (x - node.addr) ++ (nonempty (x + m) n ++ next),
      f = ⟨node.addr, x - node.addr⟩ ∨ f = ⟨x + m, n⟩ ∨ f ∈ next := by
    intro f hf
    rw [List.mem_append, mem_nonempty] at hf
    exact hf.imp And.left (hafter f)
  constructor
  . refine append_iff.2 ⟨.of_nonempty _ _, append_iff.2 ⟨.of_nonempty _ _, hrest, ?_⟩, ?_⟩
    . intro e he f hf
      obtain ⟨rfl, -⟩ := mem_nonempty.1 he
      have := hroom f hf
      dsimp only
      omega
    . intro e he f hf
      obtain ⟨rfl, -⟩ := mem_nonempty.1 he
      obtain rfl | hf := hafter f hf
      . dsimp only
        omega
      . have := hroom f hf
        dsimp only
        omega
  . intro f hf
    obtain rfl | rfl | hf := hpieces f hf
    . unfold alignSize at *
      dsimp only
      omega
    . unfold alignSize at *
      dsimp only
      omega
    . exact hnext f hf
  . intro f hf
    obtain rfl | rfl | hf := hpieces f hf
    . exact ⟨node, by simp, Nat.le_refl _, by dsimp only; omega⟩
    . exact ⟨node, by simp, by dsimp only; omega, by dsimp only; omega⟩
    . exact ⟨f, by simp [hf], Nat.le_refl _, Nat.le_refl _⟩
  . exact ⟨node, by simp, hle, by dsimp only; omega⟩
  . intro a
    obtain ⟨addr, size⟩ := node
    obtain ⟨k, rfl⟩ := Nat.exists_eq_add_of_le hle
    obtain rfl : size = k + (m + n) := by
      dsimp only at hend
      omega
    have hcut := count_cut (addr + k) (Nat.le_add_right m n) next a
    rw [count_cut addr (Nat.le_add_right k (m + n))]
    simp only [count_append, count_nonempty, count_cons, count_nil, Nat.add_sub_cancel_left] at *
    omega
  . rw [total_append, total_append, total_nonempty, total_nonempty, total_cons]
    dsimp only
    omega

structure Nodes (reg : Region) (nodes : List Node) : Prop where
  apart : Extent.Apart nodes
  aligned : Aligned nodes
  inside : ∀ n ∈ nodes, reg.base + headerSize ≤ n.addr ∧ n.addr + n.size ≤ reg.base + reg.size

theorem Nodes.tail (h : Nodes reg (node :: next)) : Nodes reg next where
  apart := (cons_iff.1 h.apart).2.2
  aligned := (Aligned.cons_iff.1 h.aligned).2
  inside n hn := h.inside n (by simp [hn])

theorem Nodes.checkNode (h : Nodes reg (node :: next)) : reg.checkNode debug node next = .ok () := by
  obtain ⟨hpos, hroom, -⟩ := cons_iff.1 h.apart
  obtain ⟨⟨haddr, hsize⟩, -⟩ := Aligned.cons_iff.1 h.aligned
  have hin := (h.inside node (by simp)).2
  have hnext : link next = 0 ∨ node.addr < link next := by
    obtain hnull | ⟨n, hn, hlink⟩ := link_eq_zero_or next
    . exact .inl hnull
    . have := hroom n hn
      exact .inr (by omega)
  unfold Region.checkNode
  rw [Stop.check_bind fun _ => haddr, Stop.check_bind fun _ => hsize, Stop.check_bind fun _ => hnext, Stop.check,
    if_pos fun _ => by omega]

variable {size addr : Nat}

def alignBit (alignOfs addr i : Nat) : Nat := if (addr ^^^ alignOfs).testBit i then addr + 2 ^ i else addr

def alignNat (alignBits : Fin 32) (alignOfs addr : Nat) : Nat := (List.range alignBits).foldl (alignBit alignOfs) addr

theorem alignBit_mod (alignOfs : Nat) {i : Nat} (hi : i < 32)
    : (if (addr % addrSize ^^^ alignOfs).testBit i then (addr % addrSize + 2 ^ i) % addrSize else addr % addrSize)
      = alignBit alignOfs addr i % addrSize := by
  have hbit : (addr % addrSize ^^^ alignOfs).testBit i = (addr ^^^ alignOfs).testBit i := by
    rw [Nat.testBit_xor, Nat.testBit_xor, addrSize, Nat.testBit_mod_two_pow]
    simp [hi]
  unfold alignBit
  rw [hbit]
  split
  . exact Nat.mod_add_mod _ _ _
  . rfl

theorem alignAddr_eq_mod (alignBits : Fin 32) (alignOfs : Nat) (h : addr < addrSize)
    : alignAddr alignBits alignOfs addr = alignNat alignBits alignOfs addr % addrSize := by
  -- after any number of rounds the address is what it would be, modulo the size of the address space
  have hloop : ∀ (l : List Nat) (x : Nat), (∀ i ∈ l, i < 32)
      → l.foldl
          (fun addr i => if (addr ^^^ alignOfs).testBit i then (addr + 2 ^ i) % addrSize else addr)
          (x % addrSize)
        = l.foldl (alignBit alignOfs) x % addrSize := by
    intro l
    induction l with
    | nil => intro x _; rfl
    | cons i l ih =>
      intro x hl
      rw [List.foldl_cons, List.foldl_cons, alignBit_mod alignOfs (hl i (by simp))]
      exact ih _ fun j hj => hl j (by simp [hj])
  unfold alignAddr alignNat
  rw [← hloop _ addr, Nat.mod_eq_of_lt h]
  intro i hi
  have := List.mem_range.1 hi
  omega

theorem le_alignNat (alignBits : Fin 32) (alignOfs addr : Nat) : addr ≤ alignNat alignBits alignOfs addr := by
  unfold alignNat
  generalize List.range alignBits = l
  induction l generalizing addr with
  | nil => exact Nat.le_refl _
  | cons i l ih =>
    apply Nat.le_trans _ (ih _)
    unfold alignBit
    split
    . apply Nat.le_add_right
    . apply Nat.le_refl

def granule (addr size : Nat) : Extent := ⟨truncAlign addr, truncAlign (addr % alignSize + size + (alignSize - 1))⟩

theorem carve_spec (debug : Bool) (h : Nodes reg (node :: next))
    (hend : reg.base + reg.size < addrSize) (hpos : 0 < size) (hle : node.addr ≤ addr)
    (hin : addr + size ≤ node.addr + node.size)
    : ∃ t, carve debug node addr size next = .ok t ∧ t.addr = addr ∧ t.size = (granule addr size).size
        ∧ Cut (node :: next) (granule addr size) t.nodes := by
  obtain ⟨⟨hna, hns⟩, -⟩ := Aligned.cons_iff.1 h.aligned
  obtain ⟨hbase, hinside⟩ := h.inside node (by simp)
  have hanode := le_truncAlign hna hle
  have hmod := truncAlign_mod addr
  have hsum := truncAlign_add_mod addr
  have hfit : (granule addr size).size ≤ node.addr + node.size - truncAlign addr := by
    apply roundUp_le
    . unfold alignSize at *
      omega
    . omega
  have hround : roundAlign (addr % alignSize + size) = (granule addr size).size := by
    apply roundAlign_eq
    unfold headerSize alignSize at *
    omega
  have hmpos : 0 < (granule addr size).size := by
    apply Nat.lt_of_lt_of_le _ (le_roundUp _)
    omega
  have hcut := Cut.of_node h.apart h.aligned hmod (truncAlign_mod _) hmpos hanode (m := (granule addr size).size)
    (n := node.size - (truncAlign addr - node.addr) - (granule addr size).size) (by omega)
  simp only [nonempty, Nat.sub_pos_iff_lt] at hcut
  unfold carve
  rw [Stop.check_bind fun _ => hanode, Stop.check_bind fun _ => by unfold alignSize at *; omega, hround]
  by_cases hlt : (granule addr size).size < node.size - (truncAlign addr - node.addr)
  . rw [if_pos hlt] at hcut
    exact ⟨_, if_pos hlt, rfl, rfl, hcut⟩
  . rw [if_neg hlt] at hcut
    exact ⟨_, if_neg hlt, rfl, rfl, hcut⟩

def Request.Clear (r : Request) (node : Node) : Prop :=
  r.size ≤ node.size
    → alignNat r.alignBits r.alignOfs (max node.addr r.inMin) + r.size < node.addr + addrSize

theorem takeGen_spec (h : Nodes reg nodes) (hend : reg.base + reg.size < addrSize)
    (hmin : r.inMin < addrSize) (hpos : 0 < r.size) (hclear : ∀ n ∈ nodes, r.Clear n)
    : ∃ taken, takeGen debug reg r nodes = .ok taken
        ∧ ∀ t ∈ taken, t.size = (granule t.addr r.size).size
            ∧ Cut nodes (granule t.addr r.size) t.nodes := by
  induction nodes with
  | nil => exact ⟨none, rfl, nofun⟩
  | cons node next ih =>
    have hinside := h.inside node (by simp)
    rw [takeGen, h.checkNode]
    simp only [bind, Except.bind]
    generalize haddr : alignAddr r.alignBits r.alignOfs (max node.addr r.inMin) = addr
    by_cases hskip : node.size < r.size ∨ node.size < (addr + addrSize - node.addr + r.size) % addrSize
    . obtain ⟨taken, htake, hspec⟩ := ih h.tail fun n hn => hclear n (by simp [hn])
      refine ⟨taken.map (Taken.cons node), ?_, ?_⟩
      . simp only [if_pos hskip, htake]
      . intro t ht
        obtain ⟨u, hu, rfl⟩ := Option.mem_map.1 ht
        obtain ⟨husize, hucut⟩ := hspec u hu
        exact ⟨husize, hucut.cons h.apart h.aligned⟩
    . simp only [if_neg hskip]
      obtain ⟨hsize, -⟩ := not_or.1 hskip
      by_cases hmax : r.inMax < (addr + r.size) % addrSize
      . simp only [if_pos hmax]
        exact ⟨none, rfl, nofun⟩
      . simp only [if_neg hmax]
        have hclear := hclear node (by simp) (Nat.le_of_not_lt hsize)
        have hge := le_alignNat r.alignBits r.alignOfs (max node.addr r.inMin)
        have hlt : max node.addr r.inMin < addrSize := by omega
        have hmod := alignAddr_eq_mod r.alignBits r.alignOfs hlt
        rw [haddr] at hmod
        -- the size check is made modulo the size of the address space, and nothing wraps around here
        generalize alignNat r.alignBits r.alignOfs (max node.addr r.inMin) = x at *
        have hx : (addr + addrSize - node.addr + r.size) % addrSize = x - node.addr + r.size := by
          have hsum : addr + addrSize - node.addr + r.size = addr + (addrSize - node.addr + r.size) := by omega
          rw [hsum, hmod, Nat.mod_add_mod]
          have hsum : x + (addrSize - node.addr + r.size) = x - node.addr + r.size + addrSize := by
            omega
          rw [hsum, Nat.add_mod_right, Nat.mod_eq_of_lt (by omega)]
        have hxaddr : addr = x := by
          rw [hmod]
          exact Nat.mod_eq_of_lt (by omega)
        have hstart : node.addr ≤ addr := by omega
        have hstop : addr + r.size ≤ node.addr + node.size := by omega
        obtain ⟨t, hcarve, htaddr, htsize, hcut⟩ := carve_spec debug h hend hpos hstart hstop
        refine ⟨some t, ?_, ?_⟩
        . simp only [hcarve]
        . intro u hu
          obtain rfl := Option.mem_some_iff.1 hu
          rw [htaddr]
          exact ⟨htsize, hcut⟩

def Request.unconstrained (size : Nat) (flags : BitVec 32) : Request := ⟨size, flags, 0, 0, 0, addrSize - 1⟩

theorem inMax_unconstrained (size : Nat) (flags : BitVec 32)
    : (Request.unconstrained size flags).inMax = addrSize - 1 := by
  simp [Request.unconstrained, Request.inMax, addrSize]

theorem takeGen_unconstrained (flags : BitVec 32) (h : Nodes reg nodes) (hsize : size + alignSize ≤ addrSize)
    : takeGen debug reg (.unconstrained size flags) nodes = takeFirst debug reg (roundAlign size) nodes := by
  induction nodes with
  | nil => rfl
  | cons node next ih =>
    obtain ⟨haddr, hmod⟩ := (Aligned.cons_iff.1 h.aligned).1
    have hfits : roundAlign size ≤ node.size ↔ size ≤ node.size := by
      rw [roundAlign_eq hsize]
      exact ⟨Nat.le_trans (le_roundUp size), roundUp_le hmod⟩
    have hlt : size < addrSize := Nat.lt_of_lt_of_le (Nat.lt_add_of_pos_right (by decide)) hsize
    rw [takeGen, takeFirst, h.checkNode, ih h.tail]
    have halign : alignAddr 0 0 (max node.addr 0) = node.addr := Nat.max_zero _
    have hwrap : (node.addr + addrSize - node.addr + size) % addrSize = size := by
      rw [Nat.add_sub_cancel_left, Nat.add_mod_left, Nat.mod_eq_of_lt hlt]
    have hrange : ¬(Request.unconstrained size flags).inMax < (node.addr + size) % addrSize := by
      have := Nat.mod_lt (node.addr + size) (show 0 < addrSize by decide)
      rw [inMax_unconstrained]
      omega
    unfold Request.unconstrained at hrange ⊢
    simp only [bind, Except.bind, halign, hwrap, or_self, hfits]
    by_cases hle : size ≤ node.size
    . rw [if_neg (Nat.not_lt.2 hle), if_neg hrange, if_pos hle]
      have hanode : truncAlign node.addr = node.addr := truncAlign_of_mod haddr
      unfold carve
      simp only [hanode, Nat.sub_self, haddr, Nat.zero_add, Nat.sub_zero, Nat.lt_irrefl, if_false, List.nil_append]
      rw [Stop.check_bind fun _ => Nat.le_refl _, Stop.check_bind fun _ => Nat.zero_mod _]
      by_cases hroom : roundAlign size < node.size <;> simp only [hroom, if_true, if_false]
    . rw [if_pos (Nat.not_le.1 hle), if_neg hle]

structure Put (nodes : List Node) (block : Extent) (nodes' : List Node) : Prop where
  apart : Extent.Apart nodes'
  aligned : Aligned nodes'
  cover : ∀ a, Extent.count nodes' a = Extent.count nodes a + Extent.count [block] a
  total : Extent.total nodes' = Extent.total nodes + block.size

theorem Put.append {init put : List Node} (h : Put next block put) (happart : Extent.Apart init)
    (haligned : Aligned init) (hroom : ∀ e ∈ init, ∀ f ∈ put, e.addr + e.size < f.addr)
    : Put (init ++ next) block (init ++ put) where
  apart := append_iff.2 ⟨happart, h.apart, hroom⟩
  aligned := Aligned.append_iff.2 ⟨haligned, h.aligned⟩
  cover a := by
    have := h.cover a
    simp only [count_append] at *
    omega
  total := by
    have := h.total
    simp only [total_append] at *
    omega

theorem putNode_spec (hnext : next ≠ []) (hapart : Extent.Apart next) (haligned : Aligned next)
    (hpos : 0 < block.size) (haddr : block.addr % alignSize = 0) (hsize : block.size % alignSize = 0)
    (hbelow : ∀ n ∈ next, block.addr + block.size ≤ n.addr)
    : ∃ size rest, putNode block.addr block.size next = .ok (⟨block.addr, size⟩ :: rest)
        ∧ Put next block (⟨block.addr, size⟩ :: rest) := by
  obtain ⟨n, rest, rfl⟩ := List.exists_cons_of_ne_nil hnext
  obtain ⟨-, hroom, hrest⟩ := cons_iff.1 hapart
  obtain ⟨⟨-, hns⟩, hrestAligned⟩ := Aligned.cons_iff.1 haligned
  have hn := hbelow n (by simp)
  have hlink : link (n :: rest) = n.addr := rfl
  by_cases htouch : n.addr ≤ block.addr + block.size
  . refine ⟨block.size + n.size, rest, ?_, ⟨?_, ?_, ?_, ?_⟩⟩
    . rw [putNode, hlink, if_pos htouch]
    . apply cons_iff.2
      refine ⟨Nat.add_pos_left hpos _, ?_, hrest⟩
      intro f hf
      have := hroom f hf
      dsimp only
      omega
    . apply Aligned.cons_iff.2
      refine ⟨⟨haddr, ?_⟩, hrestAligned⟩
      unfold alignSize at *
      dsimp only
      omega
    . intro a
      have hcut := count_cut block.addr (Nat.le_add_right block.size n.size) rest a
      have hnext : block.addr + block.size = n.addr := by omega
      have hetan : (⟨n.addr, n.size⟩ : Extent) = n := rfl
      have hetab : (⟨block.addr, block.size⟩ : Extent) = block := rfl
      rw [hcut, hnext, Nat.add_sub_cancel_left, hetan, hetab]
      simp only [count_cons, count_nil]
      omega
    . simp only [total_cons]
      omega
  . refine ⟨block.size, n :: rest, ?_, ⟨?_, ?_, ?_, ?_⟩⟩
    . rw [putNode, hlink, if_neg htouch]
    . apply cons_iff.2
      refine ⟨hpos, List.forall_mem_cons.2 ⟨?_, fun f hf => ?_⟩, hapart⟩
      . dsimp only
        omega
      . have := hroom f hf
        dsimp only
        omega
    . exact Aligned.cons_iff.2 ⟨⟨haddr, hsize⟩, haligned⟩
    . intro a
      have hetab : (⟨block.addr, block.size⟩ : Extent) = block := rfl
      rw [hetab]
      simp only [count_cons, count_nil]
      omega
    . simp only [total_cons]
      omega

theorem Put.join {rest : List Node} (h : Put next block (⟨block.addr, size⟩ :: rest)) (hpos : 0 < prev.size)
    (haligned : prev.addr % alignSize = 0 ∧ prev.size % alignSize = 0) (htouch : prev.addr + prev.size = block.addr)
    : Put (prev :: next) block (⟨prev.addr, prev.size + size⟩ :: rest) := by
  obtain ⟨-, hroom, hrest⟩ := cons_iff.1 h.apart
  obtain ⟨⟨-, hbs⟩, hrestAligned⟩ := Aligned.cons_iff.1 h.aligned
  constructor
  . apply cons_iff.2
    refine ⟨Nat.add_pos_left hpos _, ?_, hrest⟩
    intro f hf
    have := hroom f hf
    dsimp only at *
    omega
  . apply Aligned.cons_iff.2
    refine ⟨⟨haligned.1, ?_⟩, hrestAligned⟩
    unfold alignSize at *
    dsimp only at *
    omega
  . intro a
    have hcut := count_cut prev.addr (Nat.le_add_right prev.size size) rest a
    have heta : (⟨prev.addr, prev.size⟩ : Extent) = prev := rfl
    have hcover := h.cover a
    rw [hcut, htouch, Nat.add_sub_cancel_left, heta]
    simp only [count_cons (e := prev)]
    omega
  . have := h.total
    simp only [total_cons] at *
    omega

theorem freeNode_spec (hapart : Extent.Apart nodes) (haligned : Aligned nodes)
    (hpos : 0 < block.size) (haddr : block.addr % alignSize = 0) (hsize : block.size % alignSize = 0)
    (hdisj : ∀ n ∈ nodes, n.addr + n.size ≤ block.addr ∨ block.addr + block.size ≤ n.addr)
    (habove : ∃ n ∈ nodes, block.addr ≤ n.addr)
    : ∃ put, freeNode debug block.addr block.size nodes = .ok put ∧ Put nodes block put := by
  unfold freeNode
  generalize hbefore : nodes.takeWhile (·.addr < block.addr) = before
  generalize hnext : nodes.dropWhile (·.addr < block.addr) = next
  have hsplit : nodes = before ++ next := by
    rw [← hbefore, ← hnext]
    exact List.takeWhile_append_dropWhile.symm
  have hlow : ∀ n ∈ before, n.addr < block.addr := by
    intro n hn
    rw [← hbefore] at hn
    simpa using List.mem_takeWhile_imp hn
  have hne : next ≠ [] := by
    rintro rfl
    obtain ⟨n, hn, hle⟩ := habove
    rw [hsplit, List.append_nil] at hn
    have := hlow n hn
    omega
  subst hsplit
  obtain ⟨hbeforeApart, hnextApart, -⟩ := append_iff.1 hapart
  obtain ⟨hbeforeAligned, hnextAligned⟩ := Aligned.append_iff.1 haligned
  have hhigh : ∀ n ∈ next, block.addr + block.size ≤ n.addr := by
    intro n hn
    have hge : block.addr ≤ n.addr := by
      rw [← hnext] at hn
      exact hapart.le_of_mem_dropWhile hn
    have := hnextApart.pos n hn
    have := hdisj n (by simp [hn])
    omega
  obtain ⟨size, rest, hput, hspec⟩ := putNode_spec hne hnextApart hnextAligned hpos haddr hsize hhigh
  have hputRoom : ∀ f ∈ (⟨block.addr, size⟩ :: rest : List Node), block.addr ≤ f.addr := by
    refine List.forall_mem_cons.2 ⟨Nat.le_refl _, fun f hf => ?_⟩
    have := (cons_iff.1 hspec.apart).2.1 f hf
    dsimp only at this
    omega
  dsimp only
  obtain rfl | ⟨init, prev, rfl⟩ := before.eq_nil_or_concat'
  . exact ⟨_, hput, hspec⟩
  . have hmem : prev ∈ init ++ [prev] := List.mem_concat_self
    have hprevPos := hbeforeApart.pos prev hmem
    have hprevLow := hlow prev hmem
    have hprevDisj := hdisj prev (List.mem_append_left _ hmem)
    rw [List.getLast?_concat, List.dropLast_concat]
    dsimp only
    by_cases htouch : block.addr ≤ prev.addr + prev.size
    . -- the memory is joined to the node before it, and perhaps to the one after it
      have hnode : prev.addr + prev.size = block.addr := by omega
      obtain ⟨hinitApart, -, hinitRoom⟩ := append_iff.1 hbeforeApart
      have hinitAligned := (Aligned.append_iff.1 hbeforeAligned).1
      have hjoin := hspec.join hprevPos (hbeforeAligned prev hmem) hnode
      have hall := hjoin.append hinitApart hinitAligned (by
        intro e he
        have hle := hinitRoom e he prev List.mem_cons_self
        refine List.forall_mem_cons.2 ⟨hle, fun f hf => ?_⟩
        have := hputRoom f (by simp [hf])
        omega)
      rw [if_pos htouch, Stop.check_bind fun _ => hnode]
      refine ⟨init ++ ⟨prev.addr, prev.size + size⟩ :: rest, ?_, ?_⟩
      . obtain ⟨n, next, rfl⟩ := List.exists_cons_of_ne_nil hne
        have hn := hhigh n (by simp)
        rw [putNode] at hput
        by_cases hreach : link (n :: next) ≤ block.addr + block.size
        . rw [if_pos hreach] at hput ⊢
          have hmeet : block.addr + block.size = link (n :: next) := Nat.le_antisymm hn hreach
          rw [Stop.check_bind fun _ => hmeet]
          injections
          subst_vars
          rfl
        . rw [if_neg hreach] at hput ⊢
          injections
          subst_vars
          rfl
      . rw [List.append_assoc]
        exact hall
    . rw [if_neg htouch, hput]
      refine ⟨init ++ [prev] ++ ⟨block.addr, size⟩ :: rest, rfl, ?_⟩
      apply hspec.append hbeforeApart hbeforeAligned
      intro e he f hf
      have := hbeforeApart.le_of_last he
      have := hputRoom f hf
      omega

end Lmm
