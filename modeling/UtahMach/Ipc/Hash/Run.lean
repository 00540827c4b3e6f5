import UtahMach.Ipc.Hash.Lemmas

/-!
This module contains runs of calls on the reverse hash table of a space.
-/

namespace Ipc

open Function (update update_of_ne update_self)

inductive HashOp where
  | store (index : Nat) (e : Entry)
  | insert (index : Nat) (e : Entry)
  | delete (index : Nat)

namespace HashOp

def step (s : Space) : HashOp → Option Space
  | store index e => some (s.setTable index e)
  | insert index e => ipcHashLocalInsert (s.setTable index e) e.ieObject index
  | delete index => ipcHashLocalDelete s (s.isTable index).ieObject index

def apply (recs : Nat → Option Nat) : HashOp → Nat → Option Nat
  | store _ _ => recs
  | insert index e => update recs index (some e.ieObject)
  | delete index => update recs index none

def Allowed (size : Nat) (recs : Nat → Option Nat) : HashOp → Prop
  | store index e => ∀ obj, recs index = some obj → e.ieObject = obj
  | insert index e => (0 < index ∧ index < size) ∧ recs index = none ∧ e.ieObject ≠ ioNull ∧
      ∀ i, recs i ≠ some e.ieObject
  | delete index => recs index ≠ none

def AllAllowed (size : Nat) (recs : Nat → Option Nat) : List HashOp → Prop
  | [] => True
  | op :: ops => op.Allowed size recs ∧ AllAllowed size (op.apply recs) ops

end HashOp

structure Records (size : Nat) (recs : Nat → Option Nat) (s : Space) : Prop where
  size_eq : s.isTableSize = size
  size_pos : 0 < size
  hash : LocalHash s fun i => recs i ≠ none
  object : ∀ i obj, recs i = some obj → (s.isTable i).ieObject = obj ∧ obj ≠ ioNull
  inj : ∀ i j obj, recs i = some obj → recs j = some obj → i = j

variable {s : Space} {size : Nat} {recs : Nat → Option Nat}

theorem Records.setTable (h : Records size recs s) {index : Nat}
    (he : ∀ obj, recs index = some obj → e.ieObject = obj) : Records size recs (s.setTable index e) := by
  have hobject : ∀ i obj, recs i = some obj → ((s.setTable index e).isTable i).ieObject = obj := by
    intro i obj hi
    simp only [Space.setTable]
    split
    . next heq => exact he obj (heq ▸ hi)
    . exact (h.object i obj hi).1
  refine { h with hash := h.hash.congr (fun _ => Iff.rfl) ?_, object := ?_ }
  . intro i hi
    obtain ⟨obj, hobj⟩ := Option.ne_none_iff_exists'.mp hi
    simp only [Space.home, hobject i obj hobj, (h.object i obj hobj).1]
    rfl
  . intro i obj hi
    exact ⟨hobject i obj hi, (h.object i obj hi).2⟩

theorem HashOp.step_spec (h : Records size recs s) {op : HashOp} (hop : op.Allowed size recs)
    : ∃ s', op.step s = some s' ∧ Records size (op.apply recs) s' := by
  cases op with
  | store index e => exact ⟨_, rfl, h.setTable hop⟩
  | insert index e =>
    obtain ⟨⟨hpos, hlt⟩, hnone, hobj, hnew⟩ := hop
    have hs : Records size recs (s.setTable index e) := h.setTable (by simp [hnone])
    have hself : ((s.setTable index e).isTable index).ieObject = e.ieObject := by simp [Space.setTable]
    obtain ⟨isIndex, hins, hwf⟩ := localInsert_spec hs.hash hpos (by rw [hs.size_eq]; exact hlt) (by simp [hnone])
      (by rw [hself]; exact hobj)
    rw [hself] at hins
    refine ⟨_, hins, hs.size_eq, hs.size_pos, hwf.congr ?_ (fun _ _ => rfl), ?_, ?_⟩
    . intro i
      by_cases heq : i = index
      . simp [heq, apply]
      . simp [heq, apply, update_of_ne]
    . intro i obj hi
      by_cases heq : i = index
      . rw [heq, apply, update_self, Option.some.injEq] at hi
        rw [← hi, heq]
        exact ⟨hself, hobj⟩
      . rw [apply, update_of_ne heq] at hi
        exact hs.object i obj hi
    . intro i j obj hi hj
      simp only [apply, Function.update_apply] at hi hj
      split at hi <;> split at hj
      . next hi' hj' => rw [hi', hj']
      . exact absurd (hj.trans hi.symm) (hnew j)
      . exact absurd (hi.trans hj.symm) (hnew i)
      . exact h.inj i j obj hi hj
  | delete index =>
    obtain ⟨obj, hobj⟩ := Option.ne_none_iff_exists'.mp hop
    obtain ⟨hself, hne⟩ := h.object index obj hobj
    obtain ⟨isIndex, hdel, hwf⟩ := localDelete_spec h.hash hop (by rw [hself]; exact hne)
    have hsub : ∀ i obj, update recs index none i = some obj → recs i = some obj := by
      intro i obj hi
      rw [Function.update_apply] at hi
      split at hi
      . contradiction
      . exact hi
    refine ⟨_, hdel, h.size_eq, h.size_pos, hwf.congr ?_ (fun _ _ => rfl), ?_, ?_⟩
    . intro i
      by_cases heq : i = index
      . simp [heq, apply]
      . simp [heq, apply, update_of_ne]
    . intro i obj hi
      exact h.object i obj (hsub i obj hi)
    . intro i j obj hi hj
      exact h.inj i j obj (hsub i obj hi) (hsub j obj hj)

theorem HashOp.run_spec (h : Records size recs s) (ops : List HashOp) (hops : AllAllowed size recs ops)
    : ∃ s', ops.foldlM step s = some s' ∧ Records size (ops.foldl apply recs) s' := by
  induction ops generalizing s recs with
  | nil => exact ⟨s, rfl, h⟩
  | cons op ops ih =>
    obtain ⟨s1, hstep, h1⟩ := step_spec h hops.1
    obtain ⟨s2, hrun, h2⟩ := ih h1 hops.2
    exact ⟨s2, by simp [List.foldlM_cons, hstep, hrun], h2⟩

structure Findable (s : Space) (recs : Nat → Option Nat) : Prop where
  found : ∀ index obj, recs index = some obj →
    ipcHashLocalLookup s obj = some (some (machPortMake index (s.isTable index).ieBits.gen, .table index))
  absent : ∀ obj, obj ≠ ioNull → (∀ index, recs index ≠ some obj) → ipcHashLocalLookup s obj = some none
  slot : ∀ index, recs index ≠ none → ∃! i, i < s.isTableSize ∧ s.isIndex i = index

theorem Records.findable (h : Records size recs s) : Findable s recs where
  found := by
    intro index obj hrec
    obtain ⟨hself, hne⟩ := h.object index obj hrec
    have hlook := h.hash.lookup_record (r := index) (by simp [hrec]) (fun i => (s.isTable i).ieObject == obj)
      (by simp [hself]) (by
        intro i hi hp
        obtain ⟨obj', hobj'⟩ := Option.ne_none_iff_exists'.mp hi
        have heq := (h.object i obj' hobj').1
        simp only [beq_iff_eq] at hp
        exact h.inj i index obj (by rw [hobj', ← heq, hp]) hrec)
    rw [Space.home, hself] at hlook
    simp [ipcHashLocalLookup, hne, hlook]
  absent := by
    intro obj hne hno
    have hlt : ihLocalHash obj s.isTableSize < s.isTableSize := Nat.mod_lt _ (by rw [h.size_eq]; exact h.size_pos)
    have hlook := h.hash.lookup_absent hlt (fun i => (s.isTable i).ieObject == obj) (by
        intro i hi
        obtain ⟨obj', hobj'⟩ := Option.ne_none_iff_exists'.mp hi
        simp only [(h.object i obj' hobj').1, beq_eq_false_iff_ne]
        rintro rfl
        exact hno i hobj')
    simp [ipcHashLocalLookup, hne, hlook]
  slot := by
    intro index hrec
    obtain ⟨i, hi, heq⟩ := h.hash.complete index hrec
    refine ⟨i, ⟨hi, heq⟩, ?_⟩
    rintro j ⟨hj, heq'⟩
    have hpos := (h.hash.range index hrec).1
    exact h.hash.inj j i hj hi (by omega) (by rw [heq, heq'])

theorem hash_run (s : Space) (hsize : 0 < s.isTableSize) (hempty : s.isIndex = fun _ => 0) (ops : List HashOp)
    (hops : HashOp.AllAllowed s.isTableSize (fun _ => none) ops)
    : ∃ s', ops.foldlM HashOp.step s = some s' ∧ Findable s' (ops.foldl HashOp.apply fun _ => none) := by
  have hinit : Records s.isTableSize (fun _ => none) s := by
    refine ⟨rfl, hsize, ?_, nofun, nofun⟩
    have hwf : LinearProbe.WF s.isTableSize s.home (fun _ => False) fun _ => 0 := .init
    rw [LocalHash, hempty]
    exact hwf.congr (by simp) (fun _ _ => rfl)
  obtain ⟨s', hrun, hrecs⟩ := HashOp.run_spec hinit ops hops
  exact ⟨s', hrun, hrecs.findable⟩

def clumpOps : List HashOp := [.insert 1 ⟨.ofGen 0, 64, 0⟩, .insert 2 ⟨.ofGen 0, 256, 0⟩, .delete 1]

theorem hash_run_clump : HashOp.AllAllowed 3 (fun _ => none) clumpOps ∧
      ∃ s', clumpOps.foldlM HashOp.step { ipcSpaceCreate 7 15 0 with isTableSize := 3 } = some s' ∧
        Findable s' (clumpOps.foldl HashOp.apply fun _ => none) := by
  have hops : HashOp.AllAllowed 3 (fun _ => none) clumpOps := by
    simp [clumpOps, HashOp.AllAllowed, HashOp.Allowed, HashOp.apply, ioNull, Function.update_apply]
  exact ⟨hops, hash_run _ (by decide) rfl clumpOps hops⟩

end Ipc
