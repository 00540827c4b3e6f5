import UtahMach.Data.Splay.Traverse
import UtahMach.Ipc.Entry.Basic

/-!
This module contains the splay trees of entries as sets of names, under any sequence of calls.
-/

namespace Ipc

open Function (update update_self update_of_ne)
open Splay (SplayTree Sorted visit)
open Splay.SplayTree

inductive SplayOp (α : Type) where
  | lookup (splay name : Nat)
  | insert (splay name : Nat) (entry : α)
  | delete (splay name : Nat)
  | split (splay name small : Nat)
  | join (splay small : Nat)

namespace SplayOp

def step (trees : Nat → SplayTree Nat α) : SplayOp α → Nat → SplayTree Nat α
  | lookup splay name => update trees splay ((trees splay).lookup name).2
  | insert splay name entry => update trees splay ((trees splay).insert name entry)
  | delete splay name => update trees splay ((trees splay).delete machPortLargest name)
  | split splay name small =>
    update (update trees splay ((trees splay).split name).1) small ((trees splay).split name).2
  | join splay small =>
    update (update trees splay (.join machPortSmallest (trees splay) (trees small))) small
      { trees small with root := .nil }

def apply (sets : Nat → Nat → Option α) : SplayOp α → Nat → Nat → Option α
  | lookup _ _ => sets
  | insert splay name entry => update sets splay (update (sets splay) name (some entry))
  | delete splay name => update sets splay (update (sets splay) name none)
  | split splay name small =>
    update (update sets splay fun n => if n < name then none else sets splay n) small
      fun n => if n < name then sets splay n else none
  | join splay small => update (update sets splay fun n => (sets splay n).or (sets small n)) small fun _ => none

def Allowed (sets : Nat → Nat → Option α) : SplayOp α → Prop
  | lookup _ _ => True
  | insert splay name _ => name ≤ machPortLargest ∧ sets splay name = none
  | delete splay name => sets splay name ≠ none
  | split splay _ small => splay ≠ small
  | join splay small => splay ≠ small ∧ ∀ a b, sets small a ≠ none → sets splay b ≠ none → a < b

def AllAllowed (sets : Nat → Nat → Option α) : List (SplayOp α) → Prop
  | [] => True
  | op :: ops => op.Allowed sets ∧ AllAllowed (op.apply sets) ops

end SplayOp

def ipcSplayTreeBounds (s : SplayTree Nat α) (name : Nat) : (Nat × Nat) × SplayTree Nat α :=
  let ((lower, upper), s) := s.bounds name
  ((lower.getD machPortLargest, upper.getD machPortSmallest), s)

structure IsSplayTree (s : SplayTree Nat α) : Prop where
  wf : s.WF
  names : ∀ e ∈ s.toList, e.1 ≤ machPortLargest

structure Holds (s : SplayTree Nat α) (set : Nat → Option α) : Prop extends IsSplayTree s where
  mem : ∀ n e, (n, e) ∈ s.toList ↔ set n = some e

variable {s : SplayTree Nat α} {set : Nat → Option α} {trees : Nat → SplayTree Nat α} {sets : Nat → Nat → Option α}

theorem Holds.get?_eq (h : Holds s set) : s.get? = set := by
  funext n
  apply Option.ext
  intro e
  rw [get?_eq_some_iff h.wf, h.mem]

theorem IsSplayTree.holds (h : IsSplayTree s) (hget : s.get? = set) : Holds s set := by
  refine ⟨h, ?_⟩
  intro n e
  rw [← hget, get?_eq_some_iff h.wf]

theorem holds_nil (h : s.root = .nil) : Holds s fun _ => none := by
  have hlist := toList_of_root_eq_nil h
  refine ⟨⟨⟨?_, fun hne => absurd h hne⟩, ?_⟩, ?_⟩ <;> simp [hlist, Sorted]

theorem Holds.update_all (h : ∀ t, Holds (trees t) (sets t)) (k : Nat) (hk : Holds s set) (t : Nat)
    : Holds (update trees k s t) (update sets k set t) := by
  by_cases heq : t = k
  . subst heq
    rw [update_self, update_self]
    exact hk
  . rw [update_of_ne heq, update_of_ne heq]
    exact h t

theorem Holds.insert (h : Holds s set) {name : Nat} (hle : name ≤ machPortLargest) (hnone : set name = none) (entry : α)
    : Holds (s.insert name entry) (update set name (some entry)) := by
  rw [← h.get?_eq] at hnone
  obtain ⟨hwf, hperm⟩ := insert_spec h.wf hnone entry
  apply IsSplayTree.holds
  . refine ⟨hwf, ?_⟩
    intro e he
    rcases List.mem_cons.mp (hperm.mem_iff.mp he) with rfl | hin
    . exact hle
    . exact h.names e hin
  . funext n
    rw [get?_of_perm h.wf hwf hperm, h.get?_eq, Function.update_apply]

theorem Holds.delete (h : Holds s set) {name : Nat} (hsome : set name ≠ none)
    : Holds (s.delete machPortLargest name) (update set name none) := by
  obtain ⟨v, hv⟩ := Option.ne_none_iff_exists'.mp hsome
  rw [← h.get?_eq] at hv
  obtain ⟨hwf, hperm⟩ := delete_spec machPortLargest h.wf hv h.names
  apply IsSplayTree.holds
  . refine ⟨hwf, ?_⟩
    intro e he
    exact h.names e (hperm.mem_iff.mpr (List.mem_cons_of_mem _ he))
  . funext n
    rw [get?_erase_of_perm hwf h.wf hperm, h.get?_eq, Function.update_apply]

theorem Holds.split (h : Holds s set) (name : Nat)
    : Holds (s.split name).1 (fun n => if n < name then none else set n) ∧
        Holds (s.split name).2 (fun n => if n < name then set n else none) := by
  obtain ⟨hrest, hsmall, hlist, hlt, hge⟩ := split_spec h.wf name
  have hnames := h.names
  have hmem := h.mem
  simp only [hlist, List.mem_append] at hnames hmem
  have habove : ∀ n e, n < name → (n, e) ∉ (s.split name).1.toList :=
    fun n e hn hin => absurd (hge _ hin) (Nat.not_le_of_lt hn)
  have hbelow : ∀ n e, ¬ n < name → (n, e) ∉ (s.split name).2.toList := fun n e hn hin => hn (hlt _ hin)
  refine ⟨⟨⟨hrest, fun e he => hnames e (Or.inr he)⟩, ?_⟩, ⟨hsmall, fun e he => hnames e (Or.inl he)⟩, ?_⟩
  . intro n e
    split
    . next hn => simp [habove n e hn]
    . next hn => simpa [hbelow n e hn] using hmem n e
  . intro n e
    split
    . next hn => simpa [habove n e hn] using hmem n e
    . next hn => simp [hbelow n e hn]

theorem Holds.join (h : Holds s set) {small : SplayTree Nat α} (hsmall : Holds small set')
    (hlt : ∀ a b, set' a ≠ none → set b ≠ none → a < b)
    : Holds (.join machPortSmallest s small) fun n => (set n).or (set' n) := by
  have hlt' : ∀ a ∈ small.toList, ∀ b ∈ s.toList, a.1 < b.1 := by
    intro a ha b hb
    apply hlt
    . simp [(hsmall.mem a.1 a.2).mp ha]
    . simp [(h.mem b.1 b.2).mp hb]
  obtain ⟨hwf, hlist⟩ := join_spec machPortSmallest h.wf hsmall.wf hlt' (fun e _ => Nat.zero_le e.1)
  refine ⟨⟨hwf, ?_⟩, ?_⟩
  . intro e he
    rw [hlist, List.mem_append] at he
    exact he.elim (hsmall.names e) (h.names e)
  . intro n e
    rw [hlist, List.mem_append, h.mem, hsmall.mem, Option.or_eq_some_iff]
    constructor
    . rintro (hin | hin)
      . -- No name is in both trees.
        refine Or.inr ⟨?_, hin⟩
        by_contra hne
        exact absurd (hlt n n (by simp [hin]) hne) (Nat.lt_irrefl n)
      . exact Or.inl hin
    . rintro (hin | ⟨-, hin⟩)
      . exact Or.inr hin
      . exact Or.inl hin

theorem SplayOp.step_spec (h : ∀ t, Holds (trees t) (sets t)) {op : SplayOp α} (hop : op.Allowed sets) (t : Nat)
    : Holds (op.step trees t) (op.apply sets t) := by
  cases op with
  | lookup splay name =>
    obtain ⟨-, hwf, hlist⟩ := SplayTree.lookup_spec (h splay).wf name
    have hs : Holds ((trees splay).lookup name).2 (sets splay) := by
      refine ⟨⟨hwf, ?_⟩, ?_⟩ <;> rw [hlist]
      . exact (h splay).names
      . exact (h splay).mem
    have hall := Holds.update_all h splay hs t
    rw [Function.update_eq_self] at hall
    exact hall
  | insert splay name entry => exact Holds.update_all h splay ((h splay).insert hop.1 hop.2 entry) t
  | delete splay name => exact Holds.update_all h splay ((h splay).delete hop) t
  | split splay name small =>
    obtain ⟨hrest, hsmall⟩ := (h splay).split name
    exact Holds.update_all (Holds.update_all h splay hrest) small hsmall t
  | join splay small =>
    have hjoin := (h splay).join (h small) hop.2
    exact Holds.update_all (Holds.update_all h splay hjoin) small (holds_nil rfl) t

theorem SplayOp.run_spec (h : ∀ t, Holds (trees t) (sets t)) (ops : List (SplayOp α)) (hops : AllAllowed sets ops)
    (t : Nat) : Holds (ops.foldl step trees t) (ops.foldl apply sets t) := by
  induction ops generalizing trees sets with
  | nil => exact h t
  | cons op ops ih => exact ih (step_spec h hops.1) hops.2

theorem splay_run (ops : List (SplayOp α)) (hops : SplayOp.AllAllowed (fun _ _ => none) ops) (t : Nat)
    : Holds (ops.foldl SplayOp.step (fun _ => .init 0) t) (ops.foldl SplayOp.apply (fun _ _ => none) t) ∧
        ∀ n, ((ops.foldl SplayOp.step (fun _ => .init 0) t).lookup n).1 =
          ops.foldl SplayOp.apply (fun _ _ => none) t n := by
  have h := SplayOp.run_spec (fun _ => holds_nil (s := .init 0) rfl) ops hops t
  refine ⟨h, ?_⟩
  intro n
  rw [(SplayTree.lookup_spec h.wf n).1, h.get?_eq]

def splitOps : List (SplayOp Char) := [.insert 0 5 'a', .insert 0 3 'b', .lookup 0 4, .split 0 4 1, .delete 0 5]

theorem splay_run_splitOps : SplayOp.AllAllowed (fun _ _ => none) splitOps ∧
      ∀ n, ((splitOps.foldl SplayOp.step (fun _ => .init 0) 1).lookup n).1 =
        splitOps.foldl SplayOp.apply (fun _ _ => none) 1 n := by
  have h : SplayOp.AllAllowed (fun _ _ => none) splitOps := by
    simp [splitOps, SplayOp.AllAllowed, SplayOp.Allowed, SplayOp.apply, machPortLargest]
  exact ⟨h, (splay_run splitOps h 1).2⟩

def answer (delete : Nat → Bool) (visited : List (Nat × α)) (n : Nat) (e : α) : List (Nat × α) × Bool :=
  (visited ++ [(n, e)], delete visited.length)

def ipcSplayTraverse (delete : Nat → Bool) (s : SplayTree Nat α) : Option (List (Nat × α) × SplayTree Nat α) :=
  Splay.traverse machPortLargest (answer delete) [] s

theorem visit_spec (delete : Nat → Bool) (visited xs : List (Nat × α))
    : (visit (answer delete) visited xs).1 = visited ++ xs ∧
        ∀ e, e ∈ (visit (answer delete) visited xs).2 ↔ ∃ i, xs[i]? = some e ∧ delete (visited.length + i) = false := by
  induction xs generalizing visited with
  | nil => simp [visit]
  | cons x xs ih =>
    obtain ⟨hvisited, hkept⟩ := ih (visited ++ [x])
    simp only [visit, answer, hvisited, List.append_assoc, List.singleton_append, true_and]
    intro e
    have hrest : (∃ i, xs[i]? = some e ∧ delete (visited.length + (i + 1)) = false) ↔
        e ∈ (visit (answer delete) (visited ++ [x]) xs).2 := by
      rw [hkept]
      simp only [List.length_append, List.length_singleton, Nat.add_assoc, Nat.add_comm 1]
    rw [← Nat.or_exists_add_one]
    simp only [List.getElem?_cons_succ, List.getElem?_cons_zero, hrest, Nat.add_zero, Option.some.injEq]
    by_cases hd : delete visited.length = true
    . simp [hd]
    . simp [hd, eq_comm (a := e)]

theorem splay_traverse (s : { s : SplayTree Nat α // IsSplayTree s }) (delete : Nat → Bool)
    : ∃ s', ipcSplayTraverse delete s.1 = some (s.1.toList, s') ∧ Sorted s.1.toList ∧ IsSplayTree s' ∧
        ∀ e, e ∈ s'.toList ↔ ∃ i, s.1.toList[i]? = some e ∧ delete i = false := by
  obtain ⟨s, h⟩ := s
  obtain ⟨hvisited, hkept⟩ := visit_spec delete [] s.toList
  obtain ⟨s', htraverse, hwf, hlist⟩ := Splay.traverse_spec machPortLargest (answer delete) h.wf h.names []
  rw [hvisited] at htraverse
  simp only [← hlist, List.length_nil, Nat.zero_add] at hkept
  refine ⟨s', htraverse, h.wf.sorted, ⟨hwf, ?_⟩, hkept⟩
  intro e he
  obtain ⟨i, hi, -⟩ := (hkept e).mp he
  exact h.names e (List.mem_of_getElem? hi)

def twoNames : SplayTree Nat Char := [SplayOp.insert 0 5 'a', .insert 0 3 'b'].foldl SplayOp.step (fun _ => .init 0) 0

theorem isSplayTree_twoNames : IsSplayTree twoNames := by
  have hops : SplayOp.AllAllowed (fun _ _ => none) [SplayOp.insert 0 5 'a', .insert 0 3 'b'] := by
    simp [SplayOp.AllAllowed, SplayOp.Allowed, SplayOp.apply, machPortLargest]
  exact (SplayOp.run_spec (fun _ => holds_nil (s := .init 0) rfl) _ hops 0).toIsSplayTree

theorem splay_traverse_twoNames : ∃ s', ipcSplayTraverse (· == 0) twoNames = some ([(3, 'b'), (5, 'a')], s') ∧
    IsSplayTree s' ∧ (5, 'a') ∈ s'.toList := by
  obtain ⟨s', htraverse, -, hs', hmem⟩ := splay_traverse ⟨twoNames, isSplayTree_twoNames⟩ (· == 0)
  exact ⟨s', htraverse, hs', (hmem _).mpr ⟨1, rfl, rfl⟩⟩

end Ipc
