import UtahMach.Lmm.Region

/-!
This module contains the proof that the regions stay consistent over any number of calls.
-/

namespace Lmm

open Extent

structure State where
  regions : List Region
  blocks : List Extent
deriving DecidableEq, Repr

def Region.body (reg : Region) : Extent := ⟨reg.base + headerSize, reg.size - headerSize⟩

def Region.taken (reg : Region) (blocks : List Extent) : List Extent :=
  (blocks.filter fun b => reg.holds b.addr).map fun b => granule b.addr b.size

structure Region.Sound (reg : Region) : Prop where
  base_pos : 0 < reg.base
  base_aligned : reg.base % alignSize = 0
  size_aligned : reg.size % alignSize = 0
  size_ge : headerSize + alignSize ≤ reg.size
  end_lt : reg.base + reg.size < addrSize
  apart : Extent.Apart reg.nodes
  aligned : Aligned reg.nodes
  free_eq : reg.free = Extent.total reg.nodes

def Region.Tiled (reg : Region) (blocks : List Extent) : Prop :=
  ∀ a, Extent.count reg.nodes a + Extent.count (reg.taken blocks) a = Extent.count [reg.body] a

structure Consistent (s : State) : Prop where
  sound : ∀ reg ∈ s.regions, reg.Sound
  tiled : ∀ reg ∈ s.regions, reg.Tiled s.blocks
  disjoint : s.regions.Pairwise fun r r' => r.base + r.size ≤ r'.base ∨ r'.base + r'.size ≤ r.base
  owned : ∀ b ∈ s.blocks, 0 < b.size ∧ ∃ reg ∈ s.regions, reg.holds b.addr

inductive Op where
  | add (min size : Nat) (flags : BitVec 32) (pri : Int)
  | alloc (size : Nat) (flags : BitVec 32)
  | allocGen (r : Request)
  | free (block : Extent)
deriving DecidableEq, Repr

def State.allocated (s : State) (size : Nat) : Option Nat × List Region → State
  | (none, regions) => { s with regions }
  | (some addr, regions) => ⟨regions, ⟨addr, size⟩ :: s.blocks⟩

section Steps

variable (debug : Bool)

def step (s : State) : Op → Except Stop State
  | .add min size flags pri => .ok { s with regions := lmmAdd s.regions min size flags pri }
  | .alloc size flags => do
    let out ← lmmAlloc debug s.regions size flags
    .ok (s.allocated size out)
  | .allocGen r => do
    let out ← lmmAllocGen debug s.regions r
    .ok (s.allocated r.size out)
  | .free block => do
    let regions ← lmmFree debug s.regions block.addr block.size
    .ok ⟨regions, s.blocks.erase block⟩

def run : State → List Op → Except Stop State
  | s, [] => .ok s
  | s, op :: ops => do
    let s ← step debug s op
    run s ops

end Steps

def Op.Proper (s : State) : Op → Prop
  | .add min size _ _ =>
    min + size ≤ addrSize ∧ ∀ reg ∈ s.regions, min + size ≤ reg.base ∨ reg.base + reg.size ≤ min
  | .alloc size _ => 0 < size ∧ size < addrSize
  | .allocGen r => 0 < r.size ∧ r.size < addrSize ∧ r.inMin < addrSize ∧ r.inSize < addrSize
  | .free block => block ∈ s.blocks

section Conditions

variable (debug : Bool)

def Op.Served (s : State) : Op → Prop
  | .add min _ _ _ => roundAlign min ≠ 0
  | .alloc size _ => size + alignSize ≤ addrSize ∧ ∀ reg ∈ s.regions, debug → reg.nodes ≠ []
  | .allocGen r => ∀ reg ∈ s.regions, (debug → reg.nodes ≠ []) ∧ ∀ n ∈ reg.nodes, r.Clear n
  | .free block =>
    ∀ reg ∈ s.regions, (debug → reg.nodes ≠ []) ∧ (reg.holds block.addr → ∃ n ∈ reg.nodes, block.addr ≤ n.addr)

def Each (p : State → Op → Prop) : State → List Op → Prop
  | _, [] => True
  | s, op :: ops =>
    p s op ∧
      match step debug s op with
      | .ok s => Each p s ops
      | .error _ => True

instance (s : State) (op : Op) : Decidable (op.Proper s) :=
  match op with
  | .add _ _ _ _ => inferInstanceAs (Decidable (_ ∧ _))
  | .alloc _ _ => inferInstanceAs (Decidable (_ ∧ _))
  | .allocGen _ => inferInstanceAs (Decidable (_ ∧ _ ∧ _ ∧ _))
  | .free _ => inferInstanceAs (Decidable (_ ∈ _))

instance (r : Request) (node : Node) : Decidable (r.Clear node) := inferInstanceAs (Decidable (_ → _))

instance (s : State) (op : Op) : Decidable (op.Served debug s) :=
  match op with
  | .add _ _ _ _ => inferInstanceAs (Decidable (_ ≠ _))
  | .alloc _ _ => inferInstanceAs (Decidable (_ ∧ ∀ reg ∈ _, _ → _))
  | .allocGen _ => inferInstanceAs (Decidable (∀ reg ∈ _, (_ → _) ∧ ∀ n ∈ _, _))
  | .free _ => inferInstanceAs (Decidable (∀ reg ∈ _, (_ → _) ∧ (_ → ∃ n ∈ _, _)))

def Each.decidable (p : State → Op → Prop) [∀ s op, Decidable (p s op)]
    : (ops : List Op) → (s : State) → Decidable (Each debug p s ops)
  | [], _ => .isTrue trivial
  | op :: ops, s =>
    have : Decidable (match step debug s op with | .ok s => Each debug p s ops | .error _ => True) :=
      match step debug s op with
      | .ok s => Each.decidable p ops s
      | .error _ => .isTrue trivial
    inferInstanceAs (Decidable (_ ∧ _))

instance (p : State → Op → Prop) [∀ s op, Decidable (p s op)] (ops : List Op) (s : State)
    : Decidable (Each debug p s ops) :=
  Each.decidable debug p ops s

end Conditions

variable {s : State} {reg : Region} {blocks : List Extent} {regions : List Region} {debug : Bool}

theorem Region.holds_iff {addr : Nat} : reg.holds addr = true ↔ reg.base ≤ addr ∧ addr < reg.base + reg.size := by
  simp [Region.holds]

theorem Region.Sound.inside (h : reg.Sound) {e : Extent} {es fs : List Extent}
    (hcover : ∀ a, count es a + count fs a = count [reg.body] a) (he : e ∈ es) (hpos : 0 < e.size)
    : reg.base + headerSize ≤ e.addr ∧ e.addr + e.size ≤ reg.base + reg.size := by
  have hbody : ∀ a, e.Has a → reg.body.Has a := by
    intro a ha
    have hin := hcover a
    have := count_pos he ha
    by_contra hno
    rw [count_cons, count_nil, if_neg hno] at hin
    omega
  have hfirst := hbody e.addr ⟨Nat.le_refl _, by omega⟩
  have hlast := hbody (e.addr + e.size - 1) ⟨by omega, by omega⟩
  have := h.size_ge
  unfold Region.body Extent.Has at *
  dsimp only at *
  omega

theorem Consistent.nodes (h : Consistent s) (hreg : reg ∈ s.regions) : Nodes reg reg.nodes where
  apart := (h.sound reg hreg).apart
  aligned := (h.sound reg hreg).aligned
  inside n hn := (h.sound reg hreg).inside (h.tiled reg hreg) hn ((h.sound reg hreg).apart.pos n hn)

theorem Consistent.free_le (h : Consistent s) (hreg : reg ∈ s.regions) : reg.free ≤ reg.size - headerSize := by
  have hnodes := h.nodes hreg
  have htotal := hnodes.apart.total_le (fun n hn => (hnodes.inside n hn).1) fun n hn => (hnodes.inside n hn).2
  rw [(h.sound reg hreg).free_eq]
  omega

theorem Consistent.check (h : Consistent s) (hreg : reg ∈ s.regions) (hne : debug → reg.nodes ≠ [])
    : reg.check debug = .ok () := by
  have hnodes := h.nodes hreg
  have hlink : debug → reg.base + headerSize ≤ link reg.nodes := by
    intro hdebug
    obtain ⟨n, next, heq⟩ := List.exists_cons_of_ne_nil (hne hdebug)
    rw [heq]
    exact (hnodes.inside n (by simp [heq])).1
  unfold Region.check
  rw [Stop.check_bind hlink, Stop.check, if_pos fun _ => h.free_le hreg]

section

theorem takeFrom_cases (hcall : takeFrom debug fits take regions = .ok out)
    : out = (none, regions)
      ∨ ∃ before reg after t, regions = before ++ reg :: after ∧ take reg reg.nodes = .ok (some t)
          ∧ out = (some t.addr,
              before ++ { reg with nodes := t.nodes, free := (reg.free + addrSize - t.size) % addrSize } :: after) := by
  induction regions generalizing out with
  | nil =>
    cases hcall
    exact .inl rfl
  | cons reg regions ih =>
    rw [takeFrom] at hcall
    obtain ⟨-, -, hcall⟩ := Stop.bind_ok.1 hcall
    obtain ⟨taken, htaken, hcall⟩ := Stop.bind_ok.1 hcall
    cases taken with
    | some t =>
      obtain ⟨-, hcall⟩ := Stop.check_bind_ok.1 hcall
      cases hcall
      unfold takeIn at htaken
      split at htaken
      . exact .inr ⟨[], reg, regions, t, rfl, htaken, rfl⟩
      . cases htaken
    | none =>
      obtain ⟨out, hrest, hcall⟩ := Stop.bind_ok.1 hcall
      cases hcall
      obtain rfl | ⟨before, r, after, t, rfl, ht, rfl⟩ := ih hrest
      . exact .inl rfl
      . exact .inr ⟨reg :: before, r, after, t, rfl, ht, rfl⟩

theorem takeFrom_ok (hcheck : ∀ reg ∈ regions, reg.check debug = .ok ())
    (htake : ∀ reg ∈ regions, ∃ taken, take reg reg.nodes = .ok taken ∧ ∀ t ∈ taken, t.size ≤ reg.free)
    : ∃ out, takeFrom debug fits take regions = .ok out := by
  induction regions with
  | nil => exact ⟨_, rfl⟩
  | cons reg regions ih =>
    obtain ⟨hreg, hcheck⟩ := List.forall_mem_cons.1 hcheck
    obtain ⟨⟨taken, htaken, hsize⟩, htake⟩ := List.forall_mem_cons.1 htake
    obtain ⟨out, hout⟩ := ih hcheck htake
    rw [takeFrom, hreg]
    simp only [bind, Except.bind, takeIn, hout]
    by_cases hfits : fits reg
    . simp only [if_pos hfits, htaken]
      cases taken with
      | none => exact ⟨_, rfl⟩
      | some t =>
        simp only [Stop.check, if_pos fun _ => hsize t rfl]
        exact ⟨_, rfl⟩
    . simp only [if_neg hfits]
      exact ⟨_, rfl⟩

end

variable {before after : List Region} {b : Extent} {size : Nat}

theorem Consistent.perm (h : Consistent ⟨regions, blocks⟩)
    (hperm : regions.Perm regions') : Consistent ⟨regions', blocks⟩ where
  sound r hr := h.sound r (hperm.mem_iff.2 hr)
  tiled r hr := h.tiled r (hperm.mem_iff.2 hr)
  disjoint := (hperm.pairwise_iff fun hab => hab.symm).1 h.disjoint
  owned b hb := by
    obtain ⟨hpos, r, hr, hholds⟩ := h.owned b hb
    exact ⟨hpos, r, hperm.mem_iff.1 hr, hholds⟩

theorem Consistent.replace (h : Consistent ⟨reg :: regions, blocks⟩)
    (hbase : reg'.base = reg.base) (hsize : reg'.size = reg.size) (hsound : reg'.Sound)
    (htiled : reg'.Tiled blocks') (hothers : ∀ r ∈ regions, ∀ a,
      count (r.taken blocks') a = count (r.taken blocks) a)
    (howned : ∀ b ∈ blocks', b ∈ blocks ∨ 0 < b.size ∧ reg.holds b.addr)
    : Consistent ⟨reg' :: regions, blocks'⟩ := by
  have hholds : ∀ a, reg'.holds a = reg.holds a := by
    intro a
    unfold Region.holds
    rw [hbase, hsize]
  constructor
  . exact List.forall_mem_cons.2 ⟨hsound, (List.forall_mem_cons.1 h.sound).2⟩
  . refine List.forall_mem_cons.2 ⟨htiled, ?_⟩
    intro r hr a
    rw [hothers r hr a]
    exact (List.forall_mem_cons.1 h.tiled).2 r hr a
  . have hdisjoint := List.pairwise_cons.1 h.disjoint
    rw [← hbase, ← hsize] at hdisjoint
    exact List.pairwise_cons.2 hdisjoint
  . intro b hb
    have hsub : (∃ r ∈ reg :: regions, r.holds b.addr) → ∃ r ∈ reg' :: regions, r.holds b.addr := by
      simp only [List.exists_mem_cons_iff, hholds]
      exact id
    obtain hb | ⟨hpos, hb⟩ := howned b hb
    . exact (h.owned b hb).imp_right hsub
    . exact ⟨hpos, hsub ⟨reg, List.mem_cons_self, hb⟩⟩

theorem Region.taken_cons_of_holds (h : reg.holds b.addr)
    : reg.taken (b :: blocks) = granule b.addr b.size :: reg.taken blocks := by
  unfold Region.taken
  rw [List.filter_cons, if_pos h, List.map_cons]

theorem Region.taken_cons_of_not (h : ¬ reg.holds b.addr) : reg.taken (b :: blocks) = reg.taken blocks := by
  unfold Region.taken
  rw [List.filter_cons, if_neg h]

theorem Consistent.not_holds {addr : Nat} (h : Consistent ⟨reg :: regions, blocks⟩) (haddr : reg.holds addr)
    : ∀ r ∈ regions, ¬ r.holds addr := by
  intro r hr hr'
  have := (List.pairwise_cons.1 h.disjoint).1 r hr
  rw [Region.holds_iff] at haddr hr'
  omega

theorem Consistent.cut {t : Taken} (h : Consistent ⟨reg :: regions, blocks⟩) (hsize : 0 < size)
    (htsize : t.size = (granule t.addr size).size) (hcut : Cut reg.nodes (granule t.addr size) t.nodes)
    : Consistent ⟨{ reg with nodes := t.nodes, free := (reg.free + addrSize - t.size) % addrSize } :: regions,
        ⟨t.addr, size⟩ :: blocks⟩ := by
  have hreg := h.sound reg (by simp)
  have htiled := h.tiled reg (by simp)
  have hholds : reg.holds t.addr := by
    obtain ⟨g, hg, hge, hle⟩ := hcut.inside
    obtain ⟨hbase, hend⟩ := (h.nodes (by simp)).inside g hg
    have htrunc := truncAlign_add_mod t.addr
    have hround := le_roundUp (t.addr % alignSize + size)
    unfold granule at hge hle
    rw [Region.holds_iff]
    dsimp only at hge hle
    omega
  have hbase : Region.base { reg with nodes := t.nodes, free := (reg.free + addrSize - t.size) % addrSize }
      = reg.base := rfl
  apply h.replace hbase rfl
  . exact { hreg with
      apart := hcut.apart
      aligned := hcut.aligned
      free_eq := by
        have := hcut.total
        have := hreg.free_eq
        have := h.free_le (show reg ∈ reg :: regions by simp)
        have := hreg.end_lt
        have hsum : reg.free + addrSize - t.size = total t.nodes + addrSize := by omega
        dsimp only
        rw [hsum, Nat.add_mod_right, Nat.mod_eq_of_lt (by omega)] }
  . intro a
    have hcover := hcut.cover a
    have hold := htiled a
    have htaken : reg.taken (⟨t.addr, size⟩ :: blocks) = granule t.addr size :: reg.taken blocks :=
      Region.taken_cons_of_holds hholds
    have hsame : Region.taken { reg with nodes := t.nodes, free := (reg.free + addrSize - t.size) % addrSize }
        (⟨t.addr, size⟩ :: blocks) = reg.taken (⟨t.addr, size⟩ :: blocks) := rfl
    rw [hsame, htaken]
    simp only [count_cons, count_nil, Region.body] at *
    omega
  . intro r hr a
    rw [Region.taken_cons_of_not (h.not_holds hholds r hr)]
  . intro b hb
    obtain rfl | hb := List.mem_cons.1 hb
    . exact .inr ⟨hsize, hholds⟩
    . exact .inl hb

theorem allocGen_consistent {r : Request} (h : Consistent s) (hpos : 0 < r.size) (hmin : r.inMin < addrSize)
    (hserved : ∀ reg ∈ s.regions, (debug → reg.nodes ≠ []) ∧ ∀ n ∈ reg.nodes, r.Clear n)
    : ∃ out, lmmAllocGen debug s.regions r = .ok out ∧ Consistent (s.allocated r.size out) := by
  have htake : ∀ reg ∈ s.regions, ∃ taken, takeGen debug reg r reg.nodes = .ok taken ∧
      ∀ t ∈ taken, t.size = (granule t.addr r.size).size ∧ Cut reg.nodes (granule t.addr r.size) t.nodes :=
    fun reg hreg => takeGen_spec (h.nodes hreg) (h.sound reg hreg).end_lt hmin hpos (hserved reg hreg).2
  obtain ⟨out, hout⟩ : ∃ out, lmmAllocGen debug s.regions r = .ok out := by
    apply takeFrom_ok fun reg hreg => h.check hreg (hserved reg hreg).1
    intro reg hreg
    obtain ⟨taken, htaken, hcut⟩ := htake reg hreg
    refine ⟨taken, htaken, ?_⟩
    intro t ht
    obtain ⟨htsize, hcut⟩ := hcut t ht
    have := hcut.total
    have := (h.sound reg hreg).free_eq
    omega
  refine ⟨out, hout, ?_⟩
  obtain rfl | ⟨before, reg, after, t, hregions, ht, rfl⟩ := takeFrom_cases hout
  . exact h
  . obtain ⟨taken, htaken, hcut⟩ := htake reg (by simp [hregions])
    rw [ht] at htaken
    injection htaken with htaken
    obtain ⟨htsize, hcut⟩ := hcut t htaken.symm
    obtain ⟨regions, blocks⟩ := s
    subst hregions
    exact ((h.perm List.perm_middle).cut hpos htsize hcut).perm List.perm_middle.symm

theorem Region.count_taken_perm (h : blocks.Perm blocks') (a : Nat)
    : count (reg.taken blocks) a = count (reg.taken blocks') a :=
  count_perm ((h.filter _).map _)

theorem freeIn_spec {node : Nat} {nodes : List Node}
    (hcheck : ∀ r ∈ before, r.check debug = .ok ()) (hbefore : ∀ r ∈ before, ¬ r.holds node)
    (hreg : reg.check debug = .ok ()) (hholds : reg.holds node)
    (hfree : (reg.free + size) % addrSize ≤ reg.size - headerSize)
    (hnodes : freeNode debug node size reg.nodes = .ok nodes) : freeIn debug node size (before ++ reg :: after)
        = .ok (before ++ { reg with nodes, free := (reg.free + size) % addrSize } :: after) := by
  induction before with
  | nil =>
    rw [List.nil_append, freeIn, hreg]
    simp only [bind, Except.bind, if_pos hholds, Stop.check, if_pos fun _ => hfree, hnodes]
    rfl
  | cons r before ih =>
    have hrest := ih (fun r' hr' => hcheck r' (by simp [hr'])) fun r' hr' => hbefore r' (by simp [hr'])
    rw [List.cons_append, freeIn, hcheck r (by simp)]
    simp only [bind, Except.bind, if_neg (hbefore r (by simp)), hrest]
    rfl

structure Outstanding (reg : Region) (block : Extent) : Prop where
  pos : 0 < block.size
  addr_aligned : block.addr % alignSize = 0
  size_aligned : block.size % alignSize = 0
  base_le : reg.base + headerSize ≤ block.addr
  end_le : block.addr + block.size ≤ reg.base + reg.size
  disjoint : ∀ n ∈ reg.nodes, n.addr + n.size ≤ block.addr ∨ block.addr + block.size ≤ n.addr

theorem Consistent.outstanding (h : Consistent s) (hb : b ∈ s.blocks)
    (hreg : reg ∈ s.regions) (hholds : reg.holds b.addr) : Outstanding reg (granule b.addr b.size) := by
  have htiled := h.tiled reg hreg
  have hsound := h.sound reg hreg
  have hpos : 0 < (granule b.addr b.size).size := by
    have := (h.owned b hb).1
    have := le_roundUp (b.addr % alignSize + b.size)
    unfold granule
    dsimp only
    omega
  have hmem : granule b.addr b.size ∈ reg.taken s.blocks := by
    apply List.mem_map.2
    exact ⟨b, List.mem_filter.2 ⟨hb, hholds⟩, rfl⟩
  obtain ⟨hlow, hhigh⟩ := hsound.inside (fun a => (Nat.add_comm _ _).trans (htiled a)) hmem hpos
  have hle : ∀ a, count reg.nodes a + count (reg.taken s.blocks) a ≤ 1 := by
    intro a
    rw [htiled a, count_cons, count_nil]
    split <;> omega
  constructor
  . exact hpos
  . exact truncAlign_mod _
  . exact truncAlign_mod _
  . exact hlow
  . exact hhigh
  . intro n hn
    exact disjoint_of_count_le_one hle hn hmem (hsound.apart.pos n hn) hpos

theorem Consistent.put {put : List Node}
    (h : Consistent ⟨reg :: regions, blocks⟩) (hb : b ∈ blocks) (hholds : reg.holds b.addr)
    (hput : Put reg.nodes (granule b.addr b.size) put) : total put ≤ reg.size - headerSize
      ∧ Consistent ⟨{ reg with nodes := put, free := total put } :: regions, blocks.erase b⟩ := by
  have hsound := h.sound reg (by simp)
  have hperm : ∀ r : Region, ∀ a,
      count (r.taken blocks) a = count (r.taken (b :: blocks.erase b)) a :=
    fun r a => Region.count_taken_perm (List.perm_cons_erase hb) a
  have hcover : ∀ a, count put a + count (reg.taken (blocks.erase b)) a
      = count [reg.body] a := by
    intro a
    have hold : _ + count (reg.taken blocks) a = _ := h.tiled reg (by simp) a
    have hadd := hput.cover a
    rw [hperm, Region.taken_cons_of_holds hholds] at hold
    simp only [count_cons, count_nil] at *
    omega
  have hinside : ∀ n ∈ put, reg.base + headerSize ≤ n.addr ∧ n.addr + n.size ≤ reg.base + reg.size :=
    fun n hn => hsound.inside hcover hn (hput.apart.pos n hn)
  constructor
  . have htotal := hput.apart.total_le (fun n hn => (hinside n hn).1) fun n hn => (hinside n hn).2
    omega
  . have hbase : Region.base { reg with nodes := put, free := total put } = reg.base := rfl
    apply h.replace hbase rfl
    . exact { hsound with apart := hput.apart, aligned := hput.aligned, free_eq := rfl }
    . exact hcover
    . intro r hr a
      rw [hperm r a, Region.taken_cons_of_not (h.not_holds hholds r hr)]
    . exact fun c hc => .inl (List.mem_of_mem_erase hc)

theorem Region.Sound.holds_truncAlign (h : reg.Sound) (addr : Nat) : reg.holds (truncAlign addr) = reg.holds addr := by
  have hbase := h.base_aligned
  have hsize := h.size_aligned
  unfold Region.holds truncAlign alignSize at *
  apply Bool.eq_iff_iff.2
  simp only [decide_eq_true_eq]
  omega

theorem Outstanding.roundAlign_eq (h : Outstanding reg (granule b.addr b.size)) (hend : reg.base + reg.size < addrSize)
    : roundAlign (b.addr % alignSize + b.size) = (granule b.addr b.size).size := by
  apply Lmm.roundAlign_eq
  have hlow := h.base_le
  have hhigh := h.end_le
  have := le_roundUp (b.addr % alignSize + b.size)
  unfold granule headerSize alignSize at *
  dsimp only at *
  omega

theorem free_consistent (h : Consistent s) (hb : b ∈ s.blocks) (hserved : Op.Served debug s (.free b))
    : ∃ s', step debug s (.free b) = .ok s' ∧ Consistent s' := by
  obtain ⟨regions, blocks⟩ := s
  obtain ⟨-, reg, hreg, hholds⟩ := h.owned b hb
  have hserved : ∀ r ∈ regions, _ := hserved
  obtain ⟨before, after, rfl⟩ := List.append_of_mem hreg
  have hsound := h.sound reg hreg
  have hout := h.outstanding hb hreg hholds
  obtain ⟨n, hn, hle⟩ := (hserved reg hreg).2 hholds
  obtain ⟨put, hput, hspec⟩ := freeNode_spec hsound.apart hsound.aligned hout.pos hout.addr_aligned
    hout.size_aligned hout.disjoint ⟨n, hn, Nat.le_trans (truncAlign_le b.addr) hle⟩
  have hfirst := h.perm List.perm_middle
  obtain ⟨htotal, hcons⟩ := hfirst.put hb hholds hspec
  have hcheck : ∀ r ∈ before ++ reg :: after, r.check debug = .ok () := fun r hr =>
    h.check hr (hserved r hr).1
  have hfree : (reg.free + (granule b.addr b.size).size) % addrSize = total put := by
    rw [hsound.free_eq, ← hspec.total]
    apply Nat.mod_eq_of_lt
    have := hsound.end_lt
    omega
  have hrun : lmmFree debug (before ++ reg :: after) b.addr b.size
      = .ok (before ++ { reg with nodes := put, free := total put } :: after) := by
    unfold lmmFree
    rw [hout.roundAlign_eq hsound.end_lt, ← hfree]
    apply freeIn_spec
    . exact fun r hr => hcheck r (by simp [hr])
    . intro r hr
      rw [(h.sound r (by simp [hr])).holds_truncAlign]
      exact hfirst.not_holds hholds r (by simp [hr])
    . exact hcheck reg hreg
    . rw [hsound.holds_truncAlign]
      exact hholds
    . rw [hfree]
      exact htotal
    . exact hput
  refine ⟨_, ?_, hcons.perm List.perm_middle.symm⟩
  rw [step]
  rw [hrun]
  rfl

theorem Consistent.cons {base : Nat} (h : Consistent ⟨regions, blocks⟩) (flags : BitVec 32)
    (pri : Int) (hpos : 0 < base) (hbase : base % alignSize = 0)
    (hsize : size % alignSize = 0) (hge : headerSize + alignSize ≤ size) (hend : base + size < addrSize)
    (hdisj : ∀ r ∈ regions, base + size ≤ r.base ∨ r.base + r.size ≤ base)
    : Consistent ⟨⟨base, [⟨base + headerSize, size - headerSize⟩], flags, pri, size, size - headerSize⟩
        :: regions, blocks⟩ := by
  have hnone : ∀ b ∈ blocks, ¬ (base ≤ b.addr ∧ b.addr < base + size) := by
    intro b hb hin
    obtain ⟨-, r, hr, hholds⟩ := h.owned b hb
    have := hdisj r hr
    rw [Region.holds_iff] at hholds
    omega
  constructor
  . refine List.forall_mem_cons.2 ⟨⟨hpos, hbase, hsize, hge, hend, ?_, ?_, by simp⟩, h.sound⟩
    . apply Extent.Apart.cons_iff.2
      refine ⟨?_, by simp, .nil⟩
      unfold alignSize at hge
      dsimp only
      omega
    . apply Aligned.cons_iff.2
      refine ⟨?_, nofun⟩
      unfold headerSize alignSize at *
      dsimp only
      omega
  . refine List.forall_mem_cons.2 ⟨?_, h.tiled⟩
    intro a
    have htaken : Region.taken ⟨base, [⟨base + headerSize, size - headerSize⟩], flags, pri, size,
        size - headerSize⟩ blocks = [] := by
      unfold Region.taken
      rw [List.map_eq_nil_iff, List.filter_eq_nil_iff]
      intro b hb
      rw [Region.holds_iff]
      exact hnone b hb
    rw [htaken, count_nil]
    rfl
  . exact List.pairwise_cons.2 ⟨hdisj, h.disjoint⟩
  . intro b hb
    obtain ⟨hsize, r, hr, hholds⟩ := h.owned b hb
    exact ⟨hsize, r, by simp [hr], hholds⟩

theorem add_consistent {min : Nat} (h : Consistent s)
    (hproper : Op.Proper s (.add min size flags pri)) (hserved : roundAlign min ≠ 0)
    : Consistent { s with regions := lmmAdd s.regions min size flags pri } := by
  obtain ⟨hfits, hdisj⟩ := hproper
  have hmin : roundAlign min = truncAlign (min + (alignSize - 1)) := by
    apply roundAlign_eq
    by_contra hno
    apply hserved
    unfold roundAlign truncAlign addrSize alignSize at *
    omega
  unfold lmmAdd
  dsimp only
  split
  . exact h
  . next hbig =>
    obtain ⟨hle, hge⟩ := not_or.1 hbig
    have hlt : min + size < addrSize := by
      apply Nat.lt_of_le_of_ne hfits
      intro heq
      rw [heq, Nat.mod_self] at hle
      exact hle (Nat.pos_of_ne_zero hserved)
    have hstart := le_roundUp min
    have hstop := truncAlign_le (min + size)
    have halign := truncAlign_mod (min + size)
    have halign' := roundAlign_mod min
    rw [Nat.mod_eq_of_lt hlt] at hle hge ⊢
    unfold insert
    rw [if_neg hserved]
    generalize roundAlign min = base at *
    generalize truncAlign (min + size) = limit at *
    have hnode : limit - (base + headerSize) = limit - base - headerSize := by omega
    rw [hnode]
    have hcons := h.cons flags pri (Nat.pos_of_ne_zero hserved) halign'
      (by unfold alignSize at *; omega : (limit - base) % alignSize = 0) (by omega) (by omega) (by
        intro r hr
        have := hdisj r hr
        omega)
    apply hcons.perm
    apply List.Perm.trans _ List.perm_middle.symm
    rw [List.takeWhile_append_dropWhile]

def reached (debug : Bool) (regions : List Region) : List Region :=
  if debug then regions.takeWhile (·.nodes ≠ []) else regions

theorem mem_of_reached (h : reg ∈ reached debug regions) : reg ∈ regions := by
  unfold reached at h
  split at h
  . exact List.takeWhile_subset _ h
  . exact h

-- with the assertions a region without free memory fails its check, and the regions after it are not looked at
theorem reached_cons (reg : Region) (regions : List Region) : reached debug (reg :: regions) =
    if debug ∧ reg.nodes = [] then [] else reg :: reached debug regions := by
  unfold reached
  cases debug with
  | false => simp
  | true => by_cases hnil : reg.nodes = [] <;> simp [hnil]

theorem takeFrom_congr {fits fits' : Region → Bool} {take take' : Region → List Node → Except Stop (Option Taken)}
    (hpos : ∀ reg ∈ regions, 0 < reg.base)
    (h : ∀ reg ∈ reached debug regions, takeIn fits take reg = takeIn fits' take' reg)
    : takeFrom debug fits take regions = takeFrom debug fits' take' regions := by
  induction regions with
  | nil => rfl
  | cons reg regions ih =>
    obtain ⟨hbase, hpos⟩ := List.forall_mem_cons.1 hpos
    rw [takeFrom, takeFrom]
    rw [reached_cons] at h
    split at h
    . next hnil =>
      have hfail : reg.check debug = .error .panic := by
        rw [Region.check, hnil.2, Stop.check, if_neg]
        . rfl
        . intro hlink
          have hlink : reg.base + headerSize ≤ 0 := hlink hnil.1
          omega
      rw [hfail]
      rfl
    . obtain ⟨hhere, hrest⟩ := List.forall_mem_cons.1 h
      rw [hhere, ih hpos hrest]

theorem lmmAlloc_eq (h : Consistent s)
    (hcond : size + alignSize ≤ addrSize ∨ ∀ reg ∈ reached debug s.regions, reg.nodes ≠ [] → hasFlags flags reg = false)
    : lmmAlloc debug s.regions size flags = lmmAllocGen debug s.regions (.unconstrained size flags) := by
  apply takeFrom_congr fun reg hreg => (h.sound reg hreg).base_pos
  intro reg hreg
  have hmem := mem_of_reached hreg
  have hfits : (Request.unconstrained size flags).fits reg = hasFlags flags reg := by
    have := (h.sound reg hmem).end_lt
    have := (h.sound reg hmem).size_ge
    have hrange : reg.base < addrSize - 1 ∧ 0 < reg.base + reg.size := by
      unfold alignSize at *
      omega
    rw [Request.fits, inMax_unconstrained]
    simp [Request.unconstrained, hrange]
  simp only [takeIn, hfits]
  rcases hcond with hsize | hno
  . rw [takeGen_unconstrained flags (h.nodes hmem) hsize]
  . by_cases hnil : reg.nodes = []
    . rw [hnil]
      rfl
    . rw [hno reg hreg hnil]
      rfl

theorem step_consistent {op : Op} (h : Consistent s) (hproper : op.Proper s) (hserved : op.Served debug s)
    : ∃ s', step debug s op = .ok s' ∧ Consistent s' := by
  cases op with
  | add min size flags pri => exact ⟨_, rfl, add_consistent h hproper hserved⟩
  | alloc size flags =>
    obtain ⟨hpos, hlt⟩ := hproper
    obtain ⟨hround, hne⟩ := hserved
    have hclear : ∀ n, (Request.unconstrained size flags).Clear n := by
      intro n _
      show max n.addr 0 + size < n.addr + addrSize
      omega
    obtain ⟨out, hout, hcons⟩ := allocGen_consistent (r := .unconstrained size flags) h hpos
      (show 0 < addrSize by decide)
      fun reg hreg => ⟨hne reg hreg, fun n _ => hclear n⟩
    exact ⟨_, by rw [step, lmmAlloc_eq h (.inl hround), hout]; rfl, hcons⟩
  | allocGen r =>
    obtain ⟨hpos, -, hmin, -⟩ := hproper
    obtain ⟨out, hout, hcons⟩ := allocGen_consistent h hpos hmin hserved
    exact ⟨_, by rw [step, hout]; rfl, hcons⟩
  | free block => exact free_consistent h hproper hserved

theorem run_consistent (ops : List Op) (h : Each debug (fun s op => op.Proper s ∧ op.Served debug s) ⟨[], []⟩ ops)
    : ∃ s, run debug ⟨[], []⟩ ops = .ok s ∧ Consistent s := by
  have hinit : Consistent ⟨[], []⟩ := ⟨nofun, nofun, .nil, nofun⟩
  generalize (⟨[], []⟩ : State) = s at *
  induction ops generalizing s with
  | nil => exact ⟨s, rfl, hinit⟩
  | cons op ops ih =>
    obtain ⟨⟨hproper, hserved⟩, hrest⟩ := h
    obtain ⟨s', hstep, hcons⟩ := step_consistent hinit hproper hserved
    rw [hstep] at hrest
    obtain ⟨s'', hrun, hfinal⟩ := ih s' hrest hcons
    refine ⟨s'', ?_, hfinal⟩
    rw [run, hstep]
    exact hrun

-- for the numbers of bits in the requests below
local instance neZeroAlignBits : NeZero 32 := ⟨by decide⟩

def freeFirst : List Op :=
  [.add 4096 256 0 0, .alloc 8 0, .alloc 8 0, .allocGen ⟨5, 0, 3, 2, 4200, 100⟩, .free ⟨4120, 8⟩]

theorem run_consistent_freeFirst : ∃ s, run true ⟨[], []⟩ freeFirst = .ok s ∧ Consistent s :=
  run_consistent freeFirst (by decide +kernel)

def freeLast : List Op :=
  [.add 4096 256 0 0, .allocGen ⟨8, 0, 0, 0, 4336, 100⟩, .allocGen ⟨8, 0, 0, 0, 4344, 100⟩,
    .free ⟨4344, 8⟩]

theorem run_freeLast : Each true (fun s op => op.Proper s) ⟨[], []⟩ freeLast
      ∧ run true ⟨[], []⟩ freeLast = .error .undefined ∧ run false ⟨[], []⟩ freeLast = .error .undefined := by
  decide +kernel

end Lmm
