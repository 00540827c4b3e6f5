import UtahMach.Ipc.Entry.Basic

/-!
This module contains how a finite map from names to rights is laid out in a table and a tree.
-/

namespace Ipc

open Function (update update_of_ne update_self)

theorem machPortIndex_make {i gen : Nat} (h : gen < 256) : machPortIndex (machPortMake i gen) = i := by
  simp only [machPortIndex, machPortMake]
  omega

theorem machPortGen_make {i gen : Nat} (h : gen < 256) : machPortGen (machPortMake i gen) = gen := by
  simp only [machPortGen, machPortMake]
  omega

theorem machPortMake_index_gen (name : Nat) : machPortMake (machPortIndex name) (machPortGen name) = name := by
  simp only [machPortIndex, machPortGen, machPortMake]
  omega

theorem machPortGen_lt (name : Nat) : machPortGen name < 256 := by
  simp only [machPortGen]
  omega

theorem eq_of_index_gen {a b : Nat} (hi : machPortIndex a = machPortIndex b)
    (hg : machPortGen a = machPortGen b) : a = b := by
  rw [← machPortMake_index_gen a, ← machPortMake_index_gen b, hi, hg]

@[simp]
theorem gen_setRight (e : Entry) (r : Right) : (e.setRight r).ieBits.gen = e.ieBits.gen := rfl

/-- The slot of a table of `size` slots holds the right of the name. -/
def Entry.Owns (e : Entry) (size n : Nat) : Prop :=
  0 < machPortIndex n ∧ machPortIndex n < size ∧ e.ieBits.gen = machPortGen n

/-- The names of an index whose slot is in use, of the head of the table and of an index behind the table. -/
structure UsedSlot (i size : Nat) (e : Entry) (tree : Nat → Option Entry) (m : Nat → Option Right) : Prop where
  gen : 0 < i → i < size → e.ieBits.gen < 256
  collision : i < size → (e.ieBits.collision = true ↔ ∃ n, machPortIndex n = i ∧ tree n ≠ none)
  owner : ∀ n, machPortIndex n = i → e.Owns size n → tree n = none ∧ m n = some e.right
  others : ∀ n, machPortIndex n = i → ¬ e.Owns size n → m n = (tree n).map Entry.right
  entry : ∀ n e', machPortIndex n = i → tree n = some e' → e'.ieBits.gen = 0 ∧ e'.ieBits.collision = false

structure SpareSlot (i size : Nat) (e : Entry) (tree : Nat → Option Entry) (m : Nat → Option Right) : Prop where
  range : 0 < i ∧ i < size
  bits : e.ieBits = .ofGen e.ieBits.gen
  gen : e.ieBits.gen < 256
  object : e.ieObject = ioNull
  names : ∀ n, machPortIndex n = i → tree n = none ∧ m n = none

structure Layout (table : Nat → Entry) (size : Nat) (free : List Nat) (blank : Nat → Prop)
    (tree : Nat → Option Entry) (m : Nat → Option Right) : Prop where
  free_spare : ∀ i ∈ free, SpareSlot i size (table i) tree m
  blank_spare : ∀ i, blank i → SpareSlot i size (table i) tree m
  blank_slot : ∀ i, blank i → table i = ⟨.ofGen 0, ioNull, 0⟩
  blank_not_free : ∀ i, blank i → i ∉ free
  used : ∀ i, i ∉ free → ¬ blank i → UsedSlot i size (table i) tree m

section Slots

variable {i size n n' : Nat} {e e' new : Entry} {tree tree' : Nat → Option Entry} {m m' : Nat → Option Right}

theorem Entry.Owns.congr (h : e.Owns size n) (hgen : machPortIndex n < size → e'.ieBits.gen = e.ieBits.gen)
    : e'.Owns size n :=
  ⟨h.1, h.2.1, (hgen h.2.1).trans h.2.2⟩

theorem Entry.Owns.eq (h : e.Owns size n) (h' : e.Owns size n') (hindex : machPortIndex n' = machPortIndex n)
    : n' = n :=
  eq_of_index_gen hindex (h'.2.2.symm.trans h.2.2)

theorem SpareSlot.congr (h : SpareSlot i size e tree m) (hbits : e'.ieBits = e.ieBits)
    (hobject : e'.ieObject = e.ieObject) (hnames : ∀ n, machPortIndex n = i → tree' n = tree n ∧ m' n = m n)
    : SpareSlot i size e' tree' m' := by
  refine ⟨h.range, ?_, ?_, ?_, fun n hn => ?_⟩
  . rw [hbits]
    exact h.bits
  . rw [hbits]
    exact h.gen
  . rw [hobject]
    exact h.object
  . rw [(hnames n hn).1, (hnames n hn).2]
    exact h.names n hn

theorem update_index {f : Nat → β} (v : β) (h : machPortIndex n' ≠ machPortIndex n) : update f n v n' = f n' :=
  update_of_ne (fun heq => h (congrArg machPortIndex heq)) _ _

theorem SpareSlot.take (h : SpareSlot (machPortIndex n) size e tree m) (hgen : e'.ieBits.gen = machPortGen n)
    (hcoll : e'.ieBits.collision = false) : UsedSlot (machPortIndex n) size e' tree (update m n (some e'.right)) := by
  have howns : e'.Owns size n := ⟨h.range.1, h.range.2, hgen⟩
  refine ⟨fun _ _ => ?_, fun _ => ?_, fun n' hn' hown => ?_, fun n' hn' hnot => ?_, fun n' e'' hn' he => ?_⟩
  . rw [hgen]
    exact machPortGen_lt n
  . rw [hcoll]
    refine iff_of_false Bool.false_ne_true ?_
    rintro ⟨n', hn', hne⟩
    exact hne (h.names n' hn').1
  . obtain rfl := howns.eq hown hn'
    exact ⟨(h.names n' rfl).1, update_self ..⟩
  . have hne : n' ≠ n := by
      rintro rfl
      exact hnot howns
    rw [update_of_ne hne, (h.names n' hn').1, (h.names n' hn').2]
    rfl
  . rw [(h.names n' hn').1] at he
    contradiction

namespace UsedSlot

theorem resize (h : UsedSlot i osize e tree m) (hiff : i < size ↔ i < osize) : UsedSlot i size e tree m := by
  have howns {n : Nat} (hn : machPortIndex n = i) : e.Owns size n ↔ e.Owns osize n := by
    unfold Entry.Owns
    rw [hn, hiff]
  exact ⟨fun hpos hlt => h.gen hpos (hiff.mp hlt), fun hlt => h.collision (hiff.mp hlt),
    fun n hn hown => h.owner n hn ((howns hn).mp hown),
    fun n hn hnot => h.others n hn ((howns hn).not.mp hnot), h.entry⟩

theorem congr (h : UsedSlot i size e tree m) (hbits : i < size → e'.ieBits = e.ieBits)
    (hright : 0 < i → i < size → e'.right = e.right)
    (hnames : ∀ n, machPortIndex n = i → tree' n = tree n ∧ m' n = m n) : UsedSlot i size e' tree' m' := by
  refine ⟨fun hpos hlt => ?_, fun hlt => ?_, ?_, ?_, fun n e'' hn he => ?_⟩
  . rw [hbits hlt]
    exact h.gen hpos hlt
  . rw [hbits hlt, h.collision hlt]
    exact exists_congr fun n => and_congr_right fun hn => by rw [(hnames n hn).1]
  . rintro n rfl hown
    rw [(hnames n rfl).1, (hnames n rfl).2, hright hown.1 hown.2.1]
    exact h.owner n rfl (hown.congr fun hlt => by rw [hbits hlt])
  . rintro n rfl hnot
    rw [(hnames n rfl).1, (hnames n rfl).2]
    exact h.others n rfl fun hown => hnot (hown.congr fun hlt => by rw [hbits hlt])
  . rw [(hnames n hn).1] at he
    exact h.entry n e'' hn he

-- one name of the index changes, and the slot stays with the name that has it
theorem change (h : UsedSlot (machPortIndex n) size e tree m)
    (hnames : ∀ n', n' ≠ n → tree' n' = tree n' ∧ m' n' = m n')
    (hgen : machPortIndex n < size → e'.ieBits.gen = e.ieBits.gen)
    (hright : machPortIndex n < size → ¬ e.Owns size n → e'.right = e.right)
    (hcoll : machPortIndex n < size →
      (e'.ieBits.collision = true ↔ ∃ n', machPortIndex n' = machPortIndex n ∧ tree' n' ≠ none))
    (howner : e.Owns size n → tree' n = none ∧ m' n = some e'.right)
    (hother : ¬ e.Owns size n → m' n = (tree' n).map Entry.right)
    (hentry : ∀ e'', tree' n = some e'' → e''.ieBits.gen = 0 ∧ e''.ieBits.collision = false)
    : UsedSlot (machPortIndex n) size e' tree' m' := by
  have howns {n' : Nat} (hn' : machPortIndex n' = machPortIndex n) : e'.Owns size n' ↔ e.Owns size n' :=
    ⟨fun hown => hown.congr fun hlt => (hgen (hn' ▸ hlt)).symm, fun hown => hown.congr fun hlt => hgen (hn' ▸ hlt)⟩
  refine ⟨fun hpos hlt => ?_, hcoll, fun n' hn' hown => ?_, fun n' hn' hnot => ?_, fun n' e'' hn' he => ?_⟩
  . rw [hgen hlt]
    exact h.gen hpos hlt
  . rw [howns hn'] at hown
    by_cases heq : n' = n
    . exact heq ▸ howner (heq ▸ hown)
    . rw [(hnames n' heq).1, (hnames n' heq).2, hright (hn' ▸ hown.2.1) fun hn => heq (hn.eq hown hn')]
      exact h.owner n' hn' hown
  . rw [howns hn'] at hnot
    by_cases heq : n' = n
    . exact heq ▸ hother (heq ▸ hnot)
    . rw [(hnames n' heq).1, (hnames n' heq).2]
      exact h.others n' hn' hnot
  . by_cases heq : n' = n
    . exact hentry e'' (heq ▸ he)
    . rw [(hnames n' heq).1] at he
      exact h.entry n' e'' hn' he

theorem enter (h : UsedSlot (machPortIndex n) size e tree m) (hnot : ¬ e.Owns size n) (hgen : new.ieBits.gen = 0)
    (hcoll : new.ieBits.collision = false)
    (he' : machPortIndex n < size → e' = { e with ieBits := { e.ieBits with collision := true } })
    : UsedSlot (machPortIndex n) size e' (update tree n (some new)) (update m n (some new.right)) := by
  refine h.change (fun n' hne => ⟨update_of_ne hne .., update_of_ne hne ..⟩) (fun hlt => by rw [he' hlt])
    (fun hlt _ => by rw [he' hlt]; rfl) (fun hlt => ?_) (fun hown => absurd hown hnot) (fun _ => ?_) (fun e'' he => ?_)
  . refine iff_of_true (by rw [he' hlt]) ⟨n, rfl, ?_⟩
    rw [update_self]
    exact Option.some_ne_none new
  . rw [update_self, update_self]
    rfl
  . rw [update_self] at he
    cases he
    exact ⟨hgen, hcoll⟩

theorem leave (h : UsedSlot (machPortIndex n) size e tree m) (htree : tree n ≠ none)
    (htree' : ∀ n', tree' n' = if n' = n then none else tree n')
    (he' : machPortIndex n < size → e'.right = e.right ∧ e'.ieBits.gen = e.ieBits.gen ∧
      (e'.ieBits.collision = true ↔ ∃ n', machPortIndex n' = machPortIndex n ∧ tree' n' ≠ none))
    : UsedSlot (machPortIndex n) size e' tree' (update m n none) := by
  have hself : tree' n = none := by rw [htree', if_pos rfl]
  refine h.change (fun n' hne => ⟨by rw [htree', if_neg hne], update_of_ne hne ..⟩) (fun hlt => (he' hlt).2.1)
    (fun hlt _ => (he' hlt).1) (fun hlt => (he' hlt).2.2) (fun hown => absurd (h.owner n rfl hown).1 htree)
    (fun _ => ?_) (fun e'' he => ?_)
  . rw [hself, update_self]
    rfl
  . rw [hself] at he
    contradiction

variable (h : UsedSlot (machPortIndex n) size e tree m) (howns : e.Owns size n)
include h howns

theorem others_of_ne (hn' : machPortIndex n' = machPortIndex n) (hne : n' ≠ n) : m n' = (tree n').map Entry.right :=
  h.others n' hn' fun hown => hne (howns.eq hown hn')

theorem storeTable (r : Right) : UsedSlot (machPortIndex n) size (e.setRight r) tree (update m n (some r)) := by
  have htree := (h.owner n rfl howns).1
  refine h.change (fun n' hne => ⟨rfl, update_of_ne hne ..⟩) (fun _ => rfl) (fun _ hnot => absurd howns hnot)
    h.collision
    (fun _ => ⟨htree, update_self ..⟩) (fun hnot => absurd howns hnot) (fun e'' he => ?_)
  rw [htree] at he
  contradiction

theorem release (hcoll : e.ieBits.collision = false) (hbits : e'.ieBits = .ofGen (machPortGen n))
    (hobj : e'.ieObject = ioNull) : SpareSlot (machPortIndex n) size e' tree (update m n none) := by
  have htree {n' : Nat} (hn' : machPortIndex n' = machPortIndex n) : tree n' = none := by
    by_contra hne
    have htrue := (h.collision howns.2.1).mpr ⟨n', hn', hne⟩
    rw [hcoll] at htrue
    contradiction
  refine ⟨⟨howns.1, howns.2.1⟩, ?_, ?_, hobj, fun n' hn' => ⟨htree hn', ?_⟩⟩
  . rw [hbits]
    rfl
  . rw [hbits]
    exact machPortGen_lt n
  . by_cases heq : n' = n
    . rw [heq, update_self]
    . rw [update_of_ne heq, h.others_of_ne howns hn' heq, htree hn']
      rfl

theorem migrate {t : Nat} (htree : tree t = some new) (hindex : machPortIndex t = machPortIndex n)
    (hright : e'.right = new.right) (hgen : e'.ieBits.gen = machPortGen t)
    (htree' : ∀ n', tree' n' = if n' = t then none else tree n')
    (hcoll : e'.ieBits.collision = true ↔ ∃ n', machPortIndex n' = machPortIndex n ∧ tree' n' ≠ none)
    : UsedSlot (machPortIndex n) size e' tree' (update m n none) := by
  obtain ⟨hnone, -⟩ := h.owner n rfl howns
  have htn : t ≠ n := by
    rintro rfl
    rw [htree] at hnone
    contradiction
  have howns' : e'.Owns size t := ⟨hindex ▸ howns.1, hindex ▸ howns.2.1, hgen⟩
  refine ⟨fun _ _ => ?_, fun _ => hcoll, fun n' hn' hown => ?_, fun n' hn' hnot => ?_, fun n' e'' hn' he => ?_⟩
  . rw [hgen]
    exact machPortGen_lt t
  . obtain rfl := howns'.eq hown (hn'.trans hindex.symm)
    rw [htree', if_pos rfl, update_of_ne htn, h.others_of_ne howns hindex htn, htree, hright]
    exact ⟨rfl, rfl⟩
  . have hne : n' ≠ t := by
      rintro rfl
      exact hnot howns'
    rw [htree', if_neg hne]
    by_cases heq : n' = n
    . rw [heq, update_self, hnone]
      rfl
    . rw [update_of_ne heq, h.others_of_ne howns hn' heq]
  . rw [htree'] at he
    split at he
    . contradiction
    . exact h.entry n' e'' hn' he

end UsedSlot

end Slots

namespace Layout

section

variable (h : Layout table size free blank tree m)
include h

theorem free_range (i : Nat) (hi : i ∈ free) : 0 < i ∧ i < size := (h.free_spare i hi).range

theorem free_slot (i : Nat) (hi : i ∈ free)
    : (table i).ieBits = .ofGen (table i).ieBits.gen ∧ (table i).ieBits.gen < 256 ∧ (table i).ieObject = ioNull :=
  ⟨(h.free_spare i hi).bits, (h.free_spare i hi).gen, (h.free_spare i hi).object⟩

theorem free_names (n : Nat) (hn : machPortIndex n ∈ free) : m n = none := ((h.free_spare _ hn).names n rfl).2

theorem blank_range (i : Nat) (hi : blank i) : 0 < i ∧ i < size := (h.blank_spare i hi).range

theorem blank_names (n : Nat) (hn : blank (machPortIndex n)) : m n = none := ((h.blank_spare _ hn).names n rfl).2

theorem used_gen (i : Nat) (hpos : 0 < i) (hlt : i < size) (hfree : i ∉ free) (hblank : ¬ blank i)
    : (table i).ieBits.gen < 256 :=
  (h.used i hfree hblank).gen hpos hlt

theorem used_slot (n : Nat) (hpos : 0 < machPortIndex n) (hlt : machPortIndex n < size)
    (hfree : machPortIndex n ∉ free) (hblank : ¬ blank (machPortIndex n))
    (hgen : (table (machPortIndex n)).ieBits.gen = machPortGen n) : m n = some (table (machPortIndex n)).right :=
  ((h.used _ hfree hblank).owner n rfl ⟨hpos, hlt, hgen⟩).2

theorem used_collision (i : Nat) (hlt : i < size) (hfree : i ∉ free) (hblank : ¬ blank i)
    : (table i).ieBits.collision = true ↔ ∃ n, machPortIndex n = i ∧ tree n ≠ none :=
  (h.used i hfree hblank).collision hlt

-- a name with a right or an entry is on no spare slot
theorem used_index (n : Nat) (hn : tree n ≠ none ∨ m n ≠ none)
    : machPortIndex n ∉ free ∧ ¬ blank (machPortIndex n) := by
  constructor
  . intro hin
    obtain ⟨htree, hm⟩ := (h.free_spare _ hin).names n rfl
    exact hn.elim (absurd htree) (absurd hm)
  . intro hb
    obtain ⟨htree, hm⟩ := (h.blank_spare _ hb).names n rfl
    exact hn.elim (absurd htree) (absurd hm)

theorem tree_slot (n : Nat) (hne : tree n ≠ none) (hlt : machPortIndex n < size)
    : machPortIndex n ∉ free ∧ ¬ blank (machPortIndex n) ∧
        (0 < machPortIndex n → (table (machPortIndex n)).ieBits.gen ≠ machPortGen n) := by
  obtain ⟨hf, hb⟩ := h.used_index n (.inl hne)
  exact ⟨hf, hb, fun hpos hgen => hne ((h.used _ hf hb).owner n rfl ⟨hpos, hlt, hgen⟩).1⟩

theorem tree_entry (n : Nat) (e : Entry) (he : tree n = some e)
    : m n = some e.right ∧ e.ieBits.gen = 0 ∧ e.ieBits.collision = false := by
  have hne : tree n ≠ none := by simp [he]
  obtain ⟨hf, hb⟩ := h.used_index n (.inl hne)
  have hm := (h.used _ hf hb).others n rfl fun hown => hne ((h.used _ hf hb).owner n rfl hown).1
  rw [he] at hm
  exact ⟨hm, (h.used _ hf hb).entry n e rfl he⟩

theorem complete (n : Nat) (hne : m n ≠ none) (htree : tree n = none)
    : 0 < machPortIndex n ∧ machPortIndex n < size ∧ machPortIndex n ∉ free ∧ ¬ blank (machPortIndex n) ∧
        (table (machPortIndex n)).ieBits.gen = machPortGen n := by
  obtain ⟨hf, hb⟩ := h.used_index n (.inr hne)
  by_contra hnot
  refine hne ?_
  rw [(h.used _ hf hb).others n rfl fun hown => hnot ⟨hown.1, hown.2.1, hf, hb, hown.2.2⟩, htree]
  rfl

theorem used_name {i : Nat} (hpos : 0 < i) (hlt : i < size) (hfree : i ∉ free) (hblank : ¬ blank i)
    : m (machPortMake i (table i).ieBits.gen) = some (table i).right := by
  have hgen := h.used_gen i hpos hlt hfree hblank
  have hi := machPortIndex_make (i := i) hgen
  have hs := h.used_slot (machPortMake i (table i).ieBits.gen)
  rw [hi, machPortGen_make hgen] at hs
  exact hs hpos hlt hfree hblank rfl

variable {n : Nat} {e : Entry}

theorem tree_names (hne : tree n ≠ none) : m n ≠ none := by
  obtain ⟨e, he⟩ := Option.ne_none_iff_exists'.mp hne
  rw [(h.tree_entry n e he).1]
  exact Option.some_ne_none _

theorem tree_eq_none (hm : m n = none) : tree n = none := by
  by_contra hne
  exact h.tree_names hne hm

-- only the slot of one index changes, and only names of that index
theorem change {i : Nat} (hzero : 0 ≠ i → (table' 0).ieBits = (table 0).ieBits)
    (hother : ∀ j, j ≠ i → 0 < j → j < size → j ∉ free → table' j = table j)
    (hspare : ∀ j ∈ free, j ≠ i → (table' j).ieBits = (table j).ieBits ∧ (table' j).ieObject = (table j).ieObject)
    (hfree : ∀ j, j ≠ i → (j ∈ free' ↔ j ∈ free)) (hblank : ∀ j, j ≠ i → (blank' j ↔ blank j))
    (hnames : ∀ n, machPortIndex n ≠ i → tree' n = tree n ∧ m' n = m n)
    (hfree' : i ∈ free' → SpareSlot i size (table' i) tree' m') (hblank' : ¬ blank' i)
    (hused' : i ∉ free' → UsedSlot i size (table' i) tree' m')
    : Layout table' size free' blank' tree' m' := by
  have hstays {j : Nat} (hj : blank' j) : j ≠ i ∧ blank j ∧ j ∉ free ∧ table' j = table j := by
    have heq : j ≠ i := fun heq => hblank' (heq ▸ hj)
    have hb := (hblank j heq).mp hj
    exact ⟨heq, hb, h.blank_not_free j hb,
      hother j heq (h.blank_range j hb).1 (h.blank_range j hb).2 (h.blank_not_free j hb)⟩
  refine ⟨fun j hj => ?_, fun j hj => ?_, fun j hj => ?_, fun j hj => ?_, fun j hj hb => ?_⟩
  . by_cases heq : j = i
    . exact heq ▸ hfree' (heq ▸ hj)
    . rw [hfree j heq] at hj
      exact (h.free_spare j hj).congr (hspare j hj heq).1 (hspare j hj heq).2 fun n hn => hnames n (hn ▸ heq)
  . obtain ⟨heq, hb, -, hsame⟩ := hstays hj
    rw [hsame]
    exact (h.blank_spare j hb).congr rfl rfl fun n hn => hnames n (hn ▸ heq)
  . obtain ⟨-, hb, -, hsame⟩ := hstays hj
    rw [hsame]
    exact h.blank_slot j hb
  . obtain ⟨heq, -, hin, -⟩ := hstays hj
    rwa [hfree j heq]
  .
    by_cases heq : j = i
    . exact heq ▸ hused' (heq ▸ hj)
    . rw [hfree j heq] at hj
      rw [hblank j heq] at hb
      refine (h.used j hj hb).congr (fun hlt => ?_) (fun hpos hlt => ?_) fun n hn => hnames n (hn ▸ heq)
      . rcases Nat.eq_zero_or_pos j with rfl | hpos
        . exact hzero heq
        . rw [hother j heq hpos hlt hj]
      . rw [hother j heq hpos hlt hj]

theorem changeUsed {i : Nat} (hin : i ∉ free) (hb : ¬ blank i) (hother : ∀ j, j ≠ i → table' j = table j)
    (hnames : ∀ n, machPortIndex n ≠ i → tree' n = tree n ∧ m' n = m n)
    (hused' : UsedSlot i size (table' i) tree' m') : Layout table' size free blank tree' m' := by
  refine h.change (fun h0 => by rw [hother 0 h0]) (fun j hj _ _ _ => hother j hj) (fun j _ hj => ?_) (fun _ _ => .rfl)
    (fun _ _ => .rfl) hnames (fun hi => absurd hi hin) hb fun _ => hused'
  rw [hother j hj]
  exact ⟨rfl, rfl⟩

theorem take (hslot : machPortIndex n ∈ free ∨ blank (machPortIndex n))
    (hfree' : ∀ i, i ∈ free' ↔ i ∈ free ∧ i ≠ machPortIndex n) (hblank' : ∀ i, blank' i ↔ blank i ∧ i ≠ machPortIndex n)
    (hself : table' (machPortIndex n) = e) (hgen : e.ieBits.gen = machPortGen n) (hcoll : e.ieBits.collision = false)
    (hzero : (table' 0).ieBits = (table 0).ieBits)
    (hother : ∀ i, 0 < i → i < size → i ≠ machPortIndex n → i ∉ free → table' i = table i)
    (hfreeOther : ∀ i ∈ free, i ≠ machPortIndex n →
      (table' i).ieBits = (table i).ieBits ∧ (table' i).ieObject = (table i).ieObject)
    : Layout table' size free' blank' tree (update m n (some e.right)) := by
  have hspare : SpareSlot (machPortIndex n) size (table (machPortIndex n)) tree m :=
    hslot.elim (h.free_spare _) (h.blank_spare _)
  refine h.change (fun _ => hzero) (fun j hj hpos hlt => hother j hpos hlt hj) hfreeOther
    (fun j hj => by rw [hfree' j, and_iff_left hj]) (fun j hj => by rw [hblank' j, and_iff_left hj])
    (fun n' hn' => ⟨rfl, update_index _ hn'⟩) (fun hin => absurd rfl ((hfree' _).mp hin).2)
    (fun hb => ((hblank' _).mp hb).2 rfl) fun _ => ?_
  rw [hself]
  exact hspare.take hgen hcoll

theorem enter (hnew : m n = none)
    (hslot : machPortIndex n < size → machPortIndex n ∉ free ∧ ¬ blank (machPortIndex n))
    (hgen : e.ieBits.gen = 0) (hcoll : e.ieBits.collision = false)
    (hother : ∀ i, i ≠ machPortIndex n → table' i = table i)
    (hself : machPortIndex n < size → table' (machPortIndex n) = { table (machPortIndex n) with
        ieBits := { (table (machPortIndex n)).ieBits with collision := true } })
    : Layout table' size free blank (update tree n (some e))
        (update m n (some e.right)) := by
  have hin : machPortIndex n ∉ free := fun hin => (hslot (h.free_range _ hin).2).1 hin
  have hb : ¬ blank (machPortIndex n) := fun hb => (hslot (h.blank_range _ hb).2).2 hb
  have hnot : ¬ (table (machPortIndex n)).Owns size n := by
    intro hown
    rw [((h.used _ hin hb).owner n rfl hown).2] at hnew
    contradiction
  exact h.changeUsed hin hb hother (fun n' hn' => ⟨update_index _ hn', update_index _ hn'⟩)
    ((h.used _ hin hb).enter hnot hgen hcoll hself)

theorem storeTree (htree : tree n = some e) (r : Right)
    : Layout table size free blank (update tree n (some (e.setRight r))) (update m n (some r)) := by
  have hne : tree n ≠ none := by simp [htree]
  obtain ⟨hf, hb⟩ := h.used_index n (.inl hne)
  have hused := h.used _ hf hb
  obtain ⟨hgen, hcoll⟩ := hused.entry n e rfl htree
  refine h.changeUsed hf hb (fun _ _ => rfl) (fun n' hn' => ⟨update_index _ hn', update_index _ hn'⟩) ?_
  refine hused.enter (fun hown => hne (hused.owner n rfl hown).1) hgen hcoll fun hlt => ?_
  rw [← (hused.collision hlt).mpr ⟨n, rfl, hne⟩]

section

variable (hpos : 0 < machPortIndex n) (hlt : machPortIndex n < size) (hfree : machPortIndex n ∉ free)
  (hblank : ¬ blank (machPortIndex n)) (hgen : (table (machPortIndex n)).ieBits.gen = machPortGen n)
include hpos hlt hfree hblank hgen

theorem storeTable (hother : ∀ i, i ≠ machPortIndex n → table' i = table i)
    (hself : table' (machPortIndex n) = (table (machPortIndex n)).setRight r)
    : Layout table' size free blank tree (update m n (some r)) := by
  refine h.changeUsed hfree hblank hother (fun n' hn' => ⟨rfl, update_index _ hn'⟩) ?_
  rw [hself]
  exact (h.used _ hfree hblank).storeTable ⟨hpos, hlt, hgen⟩ r

theorem release (hcoll : (table (machPortIndex n)).ieBits.collision = false)
    (hzero : (table' 0).ieBits = (table 0).ieBits) (hother : ∀ i, 0 < i → i ≠ machPortIndex n → table' i = table i)
    (hbits : (table' (machPortIndex n)).ieBits = .ofGen (machPortGen n))
    (hobj : (table' (machPortIndex n)).ieObject = ioNull)
    : Layout table' size (machPortIndex n :: free) blank tree (update m n none) := by
  refine h.change (fun _ => hzero) (fun j hj hpos _ _ => hother j hpos hj) (fun j hin hj => ?_)
    (fun j hj => by rw [List.mem_cons, or_iff_right hj]) (fun _ _ => .rfl) (fun n' hn' => ⟨rfl, update_index _ hn'⟩)
    (fun _ => ?_) hblank fun hin => absurd List.mem_cons_self hin
  . rw [hother j (h.free_range j hin).1 hj]
    exact ⟨rfl, rfl⟩
  . exact (h.used _ hfree hblank).release ⟨hpos, hlt, hgen⟩ hcoll hbits hobj

theorem migrate {t : Nat} (htree : tree t = some e) (hindex : machPortIndex t = machPortIndex n)
    (hother : ∀ i, i ≠ machPortIndex n → table' i = table i) (hself : table' (machPortIndex n) = e')
    (hright : e'.right = e.right) (hgen' : e'.ieBits.gen = machPortGen t)
    (htree' : ∀ n', tree' n' = if n' = t then none else tree n')
    (hcoll : e'.ieBits.collision = true ↔ ∃ n', machPortIndex n' = machPortIndex n ∧ tree' n' ≠ none)
    : Layout table' size free blank tree' (update m n none) := by
  refine h.changeUsed hfree hblank hother (fun n' hn' => ⟨?_, update_index _ hn'⟩) ?_
  . have hne : n' ≠ t := by
      rintro rfl
      exact hn' hindex
    rw [htree', if_neg hne]
  . rw [hself]
    exact (h.used _ hfree hblank).migrate ⟨hpos, hlt, hgen⟩ htree hindex hright hgen' htree' hcoll

end

theorem leave (htree : tree n ≠ none) (htree' : ∀ n', tree' n' = if n' = n then none else tree n')
    (hother : ∀ i, i ≠ machPortIndex n → table' i = table i)
    (hself : machPortIndex n < size → (table' (machPortIndex n)).right = (table (machPortIndex n)).right ∧
      (table' (machPortIndex n)).ieBits.gen = (table (machPortIndex n)).ieBits.gen ∧
      ((table' (machPortIndex n)).ieBits.collision = true ↔ ∃ n', machPortIndex n' = machPortIndex n ∧ tree' n' ≠ none))
    : Layout table' size free blank tree' (update m n none) := by
  obtain ⟨hf, hb⟩ := h.used_index n (.inl htree)
  refine h.changeUsed hf hb hother (fun n' hn' => ⟨?_, update_index _ hn'⟩)
    ((h.used _ hf hb).leave htree htree' hself)
  rw [htree', if_neg fun heq => hn' (congrArg machPortIndex heq)]

theorem addFree {i : Nat} (hi : blank i) (hblank' : ∀ j, blank' j ↔ blank j ∧ j ≠ i)
    (hother : ∀ j, j ≠ i → table' j = table j)
    (hbits : (table' i).ieBits = .ofGen genMask) (hobj : (table' i).ieObject = ioNull)
    : Layout table' size (i :: free) blank' tree m := by
  refine h.change (fun h0 => by rw [hother 0 h0]) (fun j hj _ _ _ => hother j hj) (fun j _ hj => ?_)
    (fun j hj => by rw [List.mem_cons, or_iff_right hj]) (fun j hj => by rw [hblank' j, and_iff_left hj])
    (fun _ _ => ⟨rfl, rfl⟩) (fun _ => ?_) (fun hb => ((hblank' i).mp hb).2 rfl)
    fun hin => absurd List.mem_cons_self hin
  . rw [hother j hj]
    exact ⟨rfl, rfl⟩
  . refine ⟨h.blank_range i hi, ?_, ?_, hobj, (h.blank_spare i hi).names⟩
    . rw [hbits]
      rfl
    . rw [hbits]
      decide

theorem congr_table (hzero : (table' 0).ieBits = (table 0).ieBits) (hsame : ∀ i, 0 < i → table' i = table i)
    (hblank : ∀ i, blank' i ↔ blank i) : Layout table' size free blank' tree m := by
  refine ⟨fun i hi => ?_, fun i hi => ?_, fun i hi => ?_, fun i hi => ?_, fun i hi hb => ?_⟩
  . rw [hsame i (h.free_range i hi).1]
    exact h.free_spare i hi
  . rw [hblank] at hi
    rw [hsame i (h.blank_range i hi).1]
    exact h.blank_spare i hi
  . rw [hblank] at hi
    rw [hsame i (h.blank_range i hi).1]
    exact h.blank_slot i hi
  . rw [hblank] at hi
    exact h.blank_not_free i hi
  . rw [hblank] at hb
    refine (h.used i hi hb).congr (fun _ => ?_) (fun hpos _ => ?_) fun _ _ => ⟨rfl, rfl⟩
    . rcases Nat.eq_zero_or_pos i with rfl | hpos
      . exact hzero
      . rw [hsame i hpos]
    . rw [hsame i hpos]

end

theorem grow (h : Layout table osize free (fun _ => False) tree m) (hsize : 0 < osize) (hle : osize ≤ size)
    : Layout (fun i => if i < osize then table i else ⟨.ofGen 0, ioNull, 0⟩) size free (fun i => osize ≤ i ∧ i < size)
        (fun n => if osize ≤ machPortIndex n ∧ machPortIndex n < size then none else tree n)
        (fun n => if osize ≤ machPortIndex n ∧ machPortIndex n < size then none else m n) := by
  have hsame {i n : Nat} (hi : ¬ (osize ≤ i ∧ i < size)) (hn : machPortIndex n = i)
      : (if osize ≤ machPortIndex n ∧ machPortIndex n < size then none else tree n) = tree n ∧
        (if osize ≤ machPortIndex n ∧ machPortIndex n < size then none else m n) = m n := by
    rw [hn, if_neg hi, if_neg hi]
    exact ⟨rfl, rfl⟩
  refine ⟨fun i hi => ?_, ?_, ?_, ?_, fun i hi hb => ?_⟩
  . obtain ⟨⟨hpos, hlt⟩, hbits, hgen, hobject, hnames⟩ := h.free_spare i hi
    rw [if_pos hlt]
    refine ⟨⟨hpos, Nat.lt_of_lt_of_le hlt hle⟩, hbits, hgen, hobject, fun n hn => ?_⟩
    rw [(hsame (by omega) hn).1, (hsame (by omega) hn).2]
    exact hnames n hn
  . rintro i ⟨hge, hlt⟩
    rw [if_neg (Nat.not_lt.2 hge)]
    refine ⟨⟨by omega, hlt⟩, rfl, by decide, rfl, fun n hn => ?_⟩
    rw [hn, if_pos ⟨hge, hlt⟩, if_pos ⟨hge, hlt⟩]
    exact ⟨rfl, rfl⟩
  . exact fun i hi => if_neg (Nat.not_lt.2 hi.1)
  . exact fun i hi hin => absurd (h.free_range i hin).2 (Nat.not_lt.2 hi.1)
  . have hlt : i < size ↔ i < osize := by omega
    refine ((h.used i hi fun hf => hf).resize hlt).congr (fun hi => ?_) (fun _ hi => ?_) fun n hn => hsame hb hn
    . rw [if_pos (hlt.mp hi)]
    . rw [if_pos (hlt.mp hi)]

end Layout

end Ipc
