import UtahMach.Lmm.Run

/-!
This module contains the enumeration of free memory, and simple allocation as a case of constrained allocation.
-/

namespace Lmm

open Extent Extent.Apart

structure Found where
  addr : Nat
  size : Nat
  flags : BitVec 32
deriving DecidableEq, Repr

def Region.found (reg : Region) (node : Node) : Found := ⟨node.addr, node.size, reg.flags⟩

section Calls

variable (debug : Bool)

def findNode (reg : Region) (start : Nat) (lowest : Found) : List Node → Except Stop Found
  | [] => .ok lowest
  | node :: next => do
    Stop.check (debug → reg.base < node.addr)
    Stop.check (debug → node.addr < reg.base + reg.size)
    if lowest.addr ≤ node.addr then
      .ok lowest
    else if start < node.addr + node.size then
      if start < node.addr then
        .ok (reg.found node)
      else
        .ok ⟨start, node.size - (start - node.addr), reg.flags⟩
    else
      findNode reg start lowest next

def findIn (start : Nat) : Found → List Region → Except Stop Found
  | lowest, [] => .ok lowest
  | lowest, reg :: regions =>
    if reg.nodes = [] ∨ reg.base + reg.size ≤ start ∨ lowest.addr < reg.base then
      findIn start lowest regions
    else do
      let lowest ← findNode debug reg start lowest reg.nodes
      findIn start lowest regions

def lmmFindFree (regions : List Region) (addr : Nat) : Except Stop Found :=
  findIn debug (roundAlign addr) ⟨addrSize - 1, 0, 0⟩ regions

def enumerate (regions : List Region) : Nat → Nat → Except Stop (Option (List Found))
  | 0, _ => .ok none
  | fuel + 1, addr => do
    let found ← lmmFindFree debug regions addr
    if found.size = 0 then
      .ok (some [])
    else do
      let rest ← enumerate regions fuel (found.addr + found.size)
      .ok (rest.map (found :: ·))

end Calls

def Found.Beside (f g : Found) : Prop := f.addr + f.size ≤ g.addr ∨ g.addr + g.size ≤ f.addr

instance : Std.Symm Found.Beside := ⟨fun _ _ => Or.symm⟩

def frees (regions : List Region) : List Found := regions.flatMap fun reg => reg.nodes.map reg.found

-- no free block has addresses on both sides of the start
def Between (start : Nat) (l : List Found) : Prop := ∀ f ∈ l, f.addr + f.size ≤ start ∨ start ≤ f.addr

structure Lowest (start : Nat) (lowest : Found) (l : List Found) (found : Found) : Prop where
  mem : found = lowest ∨ found ∈ l ∧ start ≤ found.addr
  le : found.addr ≤ lowest.addr
  least : ∀ f ∈ l, start ≤ f.addr → found.addr ≤ f.addr

theorem Lowest.none (h : ∀ f ∈ l, start ≤ f.addr → lowest.addr ≤ f.addr) : Lowest start lowest l lowest :=
  ⟨.inl rfl, Nat.le_refl _, h⟩

theorem Lowest.append (h : Lowest start lowest l found) (h' : Lowest start found l' found')
    : Lowest start lowest (l ++ l') found' := by
  refine ⟨?_, Nat.le_trans h'.le h.le, List.forall_mem_append.2 ⟨?_, h'.least⟩⟩
  . rcases h'.mem with rfl | ⟨hmem, hle⟩
    . exact h.mem.imp_right fun hmem => ⟨List.mem_append_left _ hmem.1, hmem.2⟩
    . exact .inr ⟨List.mem_append_right _ hmem, hle⟩
  . intro f hf hle
    exact Nat.le_trans h'.le (h.least f hf hle)

variable {s : State} {reg : Region} {regions regions' : List Region} {start addr fuel : Nat} {lowest : Found}
  {debug : Bool}

theorem findNode_spec {nodes : List Node} (h : Nodes reg nodes) (hbetween : Between start (nodes.map reg.found))
    : ∃ found, findNode debug reg start lowest nodes = .ok found ∧ Lowest start lowest (nodes.map reg.found) found := by
  induction nodes with
  | nil => exact ⟨lowest, rfl, .none nofun⟩
  | cons node next ih =>
    obtain ⟨hpos, hroom, -⟩ := cons_iff.1 h.apart
    obtain ⟨hlow, hhigh⟩ := h.inside node List.mem_cons_self
    obtain ⟨hnode, hnext⟩ := List.forall_mem_cons.1 hbetween
    have hheader : headerSize = 24 := rfl
    -- the nodes after this one are above it
    have habove : ∀ f ∈ (node :: next).map reg.found, node.addr ≤ f.addr := by
      refine List.forall_mem_map.2 (List.forall_mem_cons.2 ⟨Nat.le_refl _, ?_⟩)
      intro n hn
      have := hroom n hn
      show node.addr ≤ n.addr
      omega
    rw [findNode, Stop.check_bind fun _ => by omega, Stop.check_bind fun _ => by omega]
    split
    . next hle => exact ⟨lowest, rfl, .none fun f hf _ => Nat.le_trans hle (habove f hf)⟩
    . next hlt =>
      split
      . next hend =>
        have hstart : start ≤ node.addr := hnode.resolve_left (Nat.not_le.2 hend)
        refine ⟨reg.found node, ?_, .inr ⟨List.mem_cons_self, hstart⟩, Nat.le_of_not_le hlt, fun f hf _ => habove f hf⟩
        split
        . rfl
        . obtain rfl : start = node.addr := by omega
          rw [Nat.sub_self, Nat.sub_zero]
          rfl
      . next hend =>
        obtain ⟨found, heq, hfound⟩ := ih h.tail hnext
        have hskip : Lowest start lowest [reg.found node] lowest := by
          apply Lowest.none
          intro f hf hstart
          obtain rfl := List.mem_singleton.1 hf
          have hstart : start ≤ node.addr := hstart
          omega
        exact ⟨found, heq, hskip.append hfound⟩

theorem findIn_spec (h : ∀ reg ∈ regions, Nodes reg reg.nodes) (hbetween : Between start (frees regions))
    : ∃ found, findIn debug start lowest regions = .ok found ∧ Lowest start lowest (frees regions) found := by
  induction regions generalizing lowest with
  | nil => exact ⟨lowest, rfl, .none nofun⟩
  | cons reg regions ih =>
    obtain ⟨hreg, hregions⟩ := List.forall_mem_cons.1 h
    obtain ⟨hhere, hrest⟩ := List.forall_mem_append.1 hbetween
    rw [findIn]
    split
    . next hskip =>
      obtain ⟨found, heq, hfound⟩ := ih hregions hrest
      -- a skipped region has no free block in question
      have hnone : Lowest start lowest (reg.nodes.map reg.found) lowest := by
        apply Lowest.none
        refine List.forall_mem_map.2 ?_
        intro n hn hstart
        have hstart : start ≤ n.addr := hstart
        have := hreg.inside n hn
        have := hreg.apart.pos n hn
        show lowest.addr ≤ n.addr
        rcases hskip with hnil | hskip
        . rw [hnil] at hn
          exact absurd hn List.not_mem_nil
        . omega
      exact ⟨found, heq, hnone.append hfound⟩
    . obtain ⟨found, heq, hfound⟩ := findNode_spec hreg hhere
      obtain ⟨found', heq', hfound'⟩ := ih hregions hrest
      rw [heq]
      exact ⟨found', heq', hfound.append hfound'⟩

theorem Consistent.bounds (h : Consistent s) : ∀ f ∈ frees s.regions,
    0 < f.size ∧ (f.addr + f.size) % alignSize = 0 ∧ f.addr + f.size + alignSize ≤ addrSize := by
  refine List.forall_mem_flatMap.2 fun reg hreg => List.forall_mem_map.2 ?_
  intro n hn
  have := (h.nodes hreg).inside n hn
  have := (h.nodes hreg).apart.pos n hn
  have := (h.nodes hreg).aligned n hn
  have := (h.sound reg hreg).end_lt
  unfold Region.found alignSize addrSize at *
  dsimp only
  omega

theorem Consistent.pairwise (h : Consistent s) : (frees s.regions).Pairwise Found.Beside := by
  refine List.pairwise_flatMap.2 ⟨?_, h.disjoint.imp_of_mem ?_⟩
  . intro reg hreg
    exact List.pairwise_map.2 ((h.nodes hreg).apart.room.imp fun hlt => .inl (Nat.le_of_lt hlt))
  . intro reg reg' hreg hreg' hdisjoint
    refine List.forall_mem_map.2 fun n hn => List.forall_mem_map.2 ?_
    intro n' hn'
    have := (h.nodes hreg).inside n hn
    have := (h.nodes hreg').inside n' hn'
    unfold Found.Beside Region.found
    dsimp only
    omega

theorem enumerate_spec (h : Consistent s) (halign : addr % alignSize = 0)
    (hlt : addr + alignSize ≤ addrSize) (hbetween : Between addr (frees s.regions)) (hfuel : addrSize ≤ addr + fuel)
    : ∃ found, enumerate debug s.regions fuel addr = .ok (some found) ∧
      found.Pairwise (fun f g => f.addr + f.size ≤ g.addr) ∧
      ∀ f, f ∈ found ↔ f ∈ frees s.regions ∧ addr ≤ f.addr := by
  induction fuel generalizing addr with
  | zero =>
    unfold alignSize at hlt
    omega
  | succ fuel ih =>
    have hround : roundAlign addr = addr := by
      rw [roundAlign_eq hlt]
      unfold truncAlign alignSize at *
      omega
    obtain ⟨low, heq, hmem, -, hleast⟩ := findIn_spec (fun _ => h.nodes) hbetween
    rw [enumerate, lmmFindFree, hround, heq]
    show ∃ found, (if low.size = 0 then _ else _) = _ ∧ _
    rcases hmem with rfl | ⟨hmem, hstart⟩
    . refine ⟨[], rfl, .nil, ?_⟩
      intro f
      refine iff_of_false List.not_mem_nil fun hf => ?_
      have := (h.bounds f hf.1).2.2
      have : addrSize - 1 ≤ f.addr := hleast f hf.1 hf.2
      unfold alignSize at *
      omega
    . obtain ⟨hpos, hend, htop⟩ := h.bounds low hmem
      have hbeside : ∀ g ∈ frees s.regions, low = g ∨ low.Beside g := by
        intro g hg
        exact Classical.or_iff_not_imp_left.2 (h.pairwise.forall hmem hg)
      have hnext : Between (low.addr + low.size) (frees s.regions) := by
        intro g hg
        rcases hbeside g hg with rfl | happ | happ
        . exact .inl (Nat.le_refl _)
        . exact .inr happ
        . left
          omega
      obtain ⟨found, heq', hsorted, hall⟩ := ih hend htop hnext (by omega)
      rw [if_neg (by omega), heq']
      refine ⟨low :: found, rfl, ?_, ?_⟩
      . refine List.pairwise_cons.2 ⟨?_, hsorted⟩
        intro g hg
        exact ((hall g).1 hg).2
      . intro f
        rw [List.mem_cons, hall]
        constructor
        . rintro (rfl | ⟨hf, hle⟩)
          . exact ⟨hmem, hstart⟩
          . exact ⟨hf, by omega⟩
        . rintro ⟨hf, hle⟩
          rcases hbeside f hf with rfl | happ | happ
          . exact .inl rfl
          . exact .inr ⟨hf, happ⟩
          . have := hleast f hf hle
            have := (h.bounds f hf).1
            omega

theorem lmmFindFree_enumerates (h : Consistent s)
    : ∃ fuel found, enumerate debug s.regions fuel 0 = .ok (some found) ∧
      found.Pairwise (fun f g => f.addr + f.size ≤ g.addr) ∧ ∀ f, f ∈ found ↔ f ∈ frees s.regions := by
  obtain ⟨found, heq, hsorted, hall⟩ :=
    enumerate_spec h (show 0 % alignSize = 0 from rfl) (by decide) (fun f _ => .inr (Nat.zero_le _))
      (Nat.le_add_left _ _)
  exact ⟨addrSize, found, heq, hsorted, fun f => by rw [hall, and_iff_left (Nat.zero_le _)]⟩

def twoRegions : State := ⟨lmmAdd (lmmAdd [] 4096 256 1 0) 8192 256 2 1, []⟩

theorem twoRegions_consistent : Consistent twoRegions := by
  have hfirst : Consistent ⟨lmmAdd [] 4096 256 1 0, []⟩ :=
    add_consistent (s := ⟨[], []⟩) ⟨nofun, nofun, .nil, nofun⟩ (by decide) (by decide)
  exact add_consistent hfirst (by decide) (by decide)

theorem lmmFindFree_enumerates_twoRegions : ∃ fuel found, enumerate false twoRegions.regions fuel 0 = .ok (some found) ∧
    found.Pairwise (fun f g => f.addr + f.size ≤ g.addr) ∧ ∀ f, f ∈ found ↔ f ∈ frees twoRegions.regions :=
  lmmFindFree_enumerates twoRegions_consistent

variable {nodes : List Node} {r : Request} {size : Nat}

theorem takeFirst_zero (h : Nodes reg nodes) (hne : nodes ≠ [])
    : ∃ taken, takeFirst debug reg 0 nodes = .ok (some taken) ∧ taken.size = 0 := by
  obtain ⟨node, next, rfl⟩ := List.exists_cons_of_ne_nil hne
  have hpos := (cons_iff.1 h.apart).1
  rw [takeFirst, h.checkNode]
  simp only [bind, Except.bind, if_pos (Nat.zero_le _), if_pos hpos]
  exact ⟨_, rfl, rfl⟩

theorem takeFrom_some {fits : Region → Bool} {take : Region → List Node → Except Stop (Option Taken)}
    (hnil : ∀ reg, take reg [] = .ok none)
    (h : ∀ reg ∈ regions, reg.nodes ≠ [] → ∃ taken, take reg reg.nodes = .ok (some taken) ∧ taken.size ≤ reg.free)
    (hcheck : ∀ reg ∈ reached debug regions, reg.check debug = .ok ())
    (hfits : ∃ reg ∈ reached debug regions, reg.nodes ≠ [] ∧ fits reg = true)
    : ∃ addr regions', takeFrom debug fits take regions = .ok (some addr, regions') := by
  induction regions with
  | nil =>
    obtain ⟨reg, hreg, -⟩ := hfits
    exact absurd (mem_of_reached hreg) List.not_mem_nil
  | cons reg regions ih =>
    obtain ⟨hhere, hrest⟩ := List.forall_mem_cons.1 h
    obtain ⟨r, hr, hne, hfit⟩ := hfits
    rw [reached_cons] at hcheck hr
    split at hr
    . exact absurd hr List.not_mem_nil
    . next hgo =>
      rw [if_neg hgo] at hcheck
      obtain ⟨hok, hcheck⟩ := List.forall_mem_cons.1 hcheck
      by_cases hreg : fits reg = true ∧ reg.nodes ≠ []
      . obtain ⟨taken, htaken, hfree⟩ := hhere hreg.2
        rw [takeFrom, hok]
        simp only [bind, Except.bind, takeIn, if_pos hreg.1, htaken, Stop.check, if_pos fun _ => hfree]
        exact ⟨_, _, rfl⟩
      . have hnone : takeIn fits take reg = .ok none := by
          unfold takeIn
          split
          . next hfits =>
            rw [not_not.1 fun hne => hreg ⟨hfits, hne⟩]
            exact hnil reg
          . rfl
        rcases List.mem_cons.1 hr with rfl | hr
        . exact absurd ⟨hfit, hne⟩ hreg
        . obtain ⟨addr, regions', heq⟩ := ih hrest hcheck ⟨r, hr, hne, hfit⟩
          rw [takeFrom, hok, hnone]
          simp only [bind, Except.bind, heq]
          exact ⟨_, _, rfl⟩

theorem takeGen_none (h : Nodes reg nodes) (hsmall : ∀ n ∈ nodes, n.size < r.size)
    : takeGen debug reg r nodes = .ok none := by
  induction nodes with
  | nil => rfl
  | cons node next ih =>
    obtain ⟨hnode, hnext⟩ := List.forall_mem_cons.1 hsmall
    rw [takeGen, h.checkNode, ih h.tail hnext]
    simp only [bind, Except.bind, hnode, true_or, if_true]
    rfl

theorem lmmAllocGen_none (h : Consistent s) (hsmall : ∀ reg ∈ s.regions, ∀ n ∈ reg.nodes, n.size < r.size)
    (hcall : lmmAllocGen debug s.regions r = .ok out) : out.1 = none := by
  obtain rfl | ⟨before, reg, after, t, hregions, ht, rfl⟩ := takeFrom_cases hcall
  . rfl
  . have hreg : reg ∈ s.regions := by simp [hregions]
    rw [takeGen_none (h.nodes hreg) (hsmall reg hreg)] at ht
    cases ht

theorem check_of_reached (h : Consistent s) (hreg : reg ∈ reached debug s.regions) : reg.check debug = .ok () := by
  apply h.check (mem_of_reached hreg)
  rintro rfl
  exact of_decide_eq_true (List.mem_takeWhile_imp (p := fun reg : Region => reg.nodes ≠ []) hreg)

theorem lmmAlloc_unconstrained (debug : Bool) (h : Consistent s) (hlt : size < addrSize) (flags : BitVec 32)
    : (lmmAlloc debug s.regions size flags = lmmAllocGen debug s.regions (.unconstrained size flags)
        ∧ ((∀ reg ∈ s.regions, ∀ n ∈ reg.nodes, n.size < size)
          → ∀ addr regions, lmmAlloc debug s.regions size flags = .ok (addr, regions)
            ∨ lmmAllocGen debug s.regions (.unconstrained size flags) = .ok (addr, regions) → addr = none))
      ↔ size + alignSize ≤ addrSize ∨
        ∀ reg ∈ reached debug s.regions, reg.nodes ≠ [] → hasFlags flags reg = false := by
  constructor
  . rintro ⟨heq, -⟩
    by_contra hno
    obtain ⟨hwrap, hfits⟩ := not_or.1 hno
    have hround : roundAlign size = 0 := by
      unfold roundAlign truncAlign alignSize addrSize at *
      omega
    have hsmall : ∀ reg ∈ s.regions, ∀ n ∈ reg.nodes, n.size < size := by
      intro reg hreg n hn
      have := (h.sound reg hreg).end_lt
      have := (h.nodes hreg).inside n hn
      unfold headerSize alignSize at *
      omega
    obtain ⟨addr, regions, hcall⟩ : ∃ addr regions, lmmAlloc debug s.regions size flags = .ok (some addr, regions) := by
      apply takeFrom_some fun _ => rfl
      . intro reg hreg hne
        obtain ⟨taken, htaken, hsize⟩ := takeFirst_zero (h.nodes hreg) hne
        rw [hround]
        exact ⟨taken, htaken, by omega⟩
      . exact fun reg hreg => check_of_reached h hreg
      . simpa using hfits
    rw [heq] at hcall
    cases lmmAllocGen_none h hsmall hcall
  . intro hcond
    have heq := lmmAlloc_eq h hcond
    refine ⟨heq, ?_⟩
    intro hlarge addr regions hcall
    rw [heq, or_self] at hcall
    exact lmmAllocGen_none h hlarge hcall

theorem lmmAlloc_unconstrained_twoRegions
    : lmmAlloc false twoRegions.regions 100 0 = lmmAllocGen false twoRegions.regions (.unconstrained 100 0) :=
  ((lmmAlloc_unconstrained false twoRegions_consistent (by decide) 0).2 (.inl (by decide))).1

-- the size is rounded to zero
theorem lmmAlloc_wraps : Consistent twoRegions
    ∧ lmmAlloc false twoRegions.regions (2 ^ 32 - 1) 0 = .ok (some 8216, twoRegions.regions)
    ∧ lmmAllocGen false twoRegions.regions (.unconstrained (2 ^ 32 - 1) 0) = .ok (none, twoRegions.regions) :=
  ⟨twoRegions_consistent, by decide +kernel, by decide +kernel⟩

theorem alignNat_mod (alignOfs addr n : Nat)
    : (List.range n).foldl (alignBit alignOfs) addr % 2 ^ n = alignOfs % 2 ^ n := by
  induction n with
  | zero => simp [Nat.mod_one]
  | succ n ih =>
    rw [List.range_succ, List.foldl_append]
    generalize (List.range n).foldl (alignBit alignOfs) addr = x at ih
    rw [List.foldl_cons, List.foldl_nil, alignBit, Nat.testBit_xor, Nat.testBit_eq_decide_div_mod_eq,
      Nat.testBit_eq_decide_div_mod_eq, Nat.mod_pow_succ, Nat.mod_pow_succ]
    split
    . rw [Nat.add_mod_right, Nat.add_div_right _ (Nat.two_pow_pos n)]
      grind
    . grind

theorem takeGen_some {t : Taken} (h : takeGen debug reg r nodes = .ok (some t))
    : ∃ n ∈ nodes, t.addr = alignAddr r.alignBits r.alignOfs (max n.addr r.inMin) ∧ r.size ≤ n.size ∧
        (t.addr + addrSize - n.addr + r.size) % addrSize ≤ n.size ∧ (t.addr + r.size) % addrSize ≤ r.inMax := by
  induction nodes generalizing t with
  | nil => cases h
  | cons node next ih =>
    rw [takeGen] at h
    obtain ⟨-, -, h⟩ := Stop.bind_ok.1 h
    dsimp only at h
    split at h
    . obtain ⟨taken, htaken, h⟩ := Stop.bind_ok.1 h
      injection h with h
      obtain ⟨u, rfl, rfl⟩ := Option.map_eq_some_iff.1 h
      obtain ⟨n, hn, hspec⟩ := ih htaken
      exact ⟨n, List.mem_cons_of_mem _ hn, hspec⟩
    . next hfits =>
      split at h
      . cases h
      . next hmax =>
        obtain ⟨taken, hcarve, h⟩ := Stop.bind_ok.1 h
        cases h
        rw [carve, Stop.check_bind_ok, Stop.check_bind_ok] at hcarve
        have haddr : t.addr = alignAddr r.alignBits r.alignOfs (max node.addr r.inMin) := by
          grind
        exact ⟨node, List.mem_cons_self, by grind⟩

theorem lmmAllocGen_meets (h : Consistent s) (hmin : r.inMin < addrSize)
    (hclear : ∀ reg ∈ s.regions, ∀ n ∈ reg.nodes, r.Clear n)
    (hcall : lmmAllocGen debug s.regions r = .ok (some addr, regions))
    : addr % 2 ^ r.alignBits.1 = r.alignOfs % 2 ^ r.alignBits.1 ∧ r.inMin ≤ addr ∧ addr + r.size ≤ r.inMax ∧
        ∃ reg ∈ s.regions, hasFlags r.flags reg ∧ ∃ n ∈ reg.nodes, n.addr ≤ addr ∧ addr + r.size ≤ n.addr + n.size := by
  have hcongr : lmmAllocGen debug s.regions r = takeFrom debug (fun _ => true)
      (fun reg nodes => if r.fits reg then takeGen debug reg r nodes else .ok none) s.regions :=
    takeFrom_congr (fun reg hreg => (h.sound reg hreg).base_pos) fun _ _ => rfl
  obtain heq | ⟨before, reg, after, t, hregions, ht, heq⟩ := takeFrom_cases (hcongr.symm.trans hcall)
  . cases heq
  . cases heq
    have hreg : reg ∈ s.regions := by simp [hregions]
    split at ht
    . next hfits =>
      obtain ⟨n, hn, haddr, hsize, hfit, hmax⟩ := takeGen_some ht
      have hinside := ((h.nodes hreg).inside n hn).2
      have hend := (h.sound reg hreg).end_lt
      have hlt := hclear reg hreg n hn hsize
      have hge := le_alignNat r.alignBits r.alignOfs (max n.addr r.inMin)
      have hmod := alignNat_mod r.alignOfs (max n.addr r.inMin) r.alignBits
      rw [alignAddr_eq_mod _ _ (by omega)] at haddr
      unfold alignNat at hlt hge haddr
      generalize (List.range r.alignBits).foldl (alignBit r.alignOfs) (max n.addr r.inMin) = x at *
      unfold addrSize at *
      obtain rfl : t.addr = x := by omega
      refine ⟨hmod, by omega, by omega, reg, hreg, ?_, n, hn, by omega, by omega⟩
      simp only [Request.fits, decide_eq_true_eq] at hfits
      exact hfits.1
    . cases ht

theorem lmmAllocGen_meets_twoRegions : ∃ addr regions, lmmAllocGen false twoRegions.regions ⟨8, 2, 4, 4, 8200, 100⟩ =
      .ok (some addr, regions) ∧ addr % 16 = 4 ∧ 8200 ≤ addr ∧ addr + 8 ≤ 8300 := by
  have hcall : lmmAllocGen false twoRegions.regions ⟨8, 2, 4, 4, 8200, 100⟩ = .ok (some 8228, _) := rfl
  obtain ⟨hmod, hmin, hmax, -⟩ := lmmAllocGen_meets twoRegions_consistent (by decide) (by decide) hcall
  exact ⟨_, _, hcall, hmod, hmin, hmax⟩

end Lmm
