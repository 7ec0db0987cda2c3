import GraphPlan.Proofs.QueryTree.Arena
import Mathlib.Data.List.Perm.Subperm

namespace GraphPlan.QueryTree

/-- What a walk from the root has visited, and what it has on its stack. -/
structure Walking (t : QueryTree) (visited stack : List NodeId) : Prop where
  distinct : (visited ++ stack).Nodup
  inRange : ∀ id ∈ visited ++ stack, id < t.size
  root : rootId ∈ visited ++ stack
  /-- Parents come first. -/
  parent : ∀ (id p : NodeId) (e : Entry), id ∈ visited ++ stack → t.entries[id]? = some e →
    e.parent = some p → p ∈ visited
  /-- Nothing that hangs on a visited node is forgotten. -/
  below : ∀ (id : NodeId) (e : Entry), id ∈ visited → t.entries[id]? = some e →
    ∀ c ∈ e.children ++ e.recursions, c ∈ visited ++ stack

section

variable {t : QueryTree} {visited stack : List NodeId} {id : NodeId} {e : Entry}

theorem walking_start (hw : t.WellFormed) : Walking t [] [rootId] where
  distinct := by simp
  inRange := by
    intro id hm
    obtain ⟨e, he, -⟩ := hw.root
    cases List.mem_singleton.mp hm
    exact (List.getElem?_eq_some_iff.mp he).1
  root := List.mem_singleton_self rootId
  parent := by
    intro id p e hm he hp
    exact absurd (List.mem_singleton.mp hm) (hw.parent_lt he hp).1
  below := by
    intro id e hm
    cases hm

theorem mem_listed_iff {c : NodeId} :
    c ∈ e.children ++ e.recursions ↔ ∃ recursive, c ∈ e.listed recursive := by
  simp [Entry.listed]

/-- What hangs on the node at hand has not been seen yet. -/
theorem Walking.notMem_of_hanging (hw : t.WellFormed) (h : Walking t visited (id :: stack))
    (he : t.entries[id]? = some e) {c : NodeId} (hc : c ∈ e.children ++ e.recursions) :
    c ∉ visited ++ id :: stack ∧ (e.children ++ e.recursions).count c = 1 := by
  obtain ⟨recursive, hl⟩ := mem_listed_iff.mp hc
  obtain ⟨f, hf, hp, -⟩ := hw.of_listed he hl
  constructor
  · intro hm
    have hv : id ∈ visited := h.parent c id f hm hf hp
    exact (List.nodup_append.mp h.distinct).2.2 id hv id List.mem_cons_self rfl
  · rw [hw.count_listed hf he, if_pos hp]

/-- One visit. -/
theorem Walking.step (hw : t.WellFormed) (h : Walking t visited (id :: stack))
    (he : t.entries[id]? = some e) :
    Walking t (visited ++ [id]) (e.children ++ e.recursions ++ stack) := by
  have hmem : ∀ x, x ∈ (visited ++ [id]) ++ (e.children ++ e.recursions ++ stack) ↔
      x ∈ visited ++ id :: stack ∨ x ∈ e.children ++ e.recursions := by
    intro x
    simp only [List.mem_append, List.mem_cons, List.not_mem_nil, or_false]
    tauto
  constructor
  · rw [List.nodup_iff_count]
    intro x
    have hold : (visited ++ id :: stack).count x ≤ 1 := List.nodup_iff_count.mp h.distinct x
    have hsum : ((visited ++ [id]) ++ (e.children ++ e.recursions ++ stack)).count x =
        (visited ++ id :: stack).count x + (e.children ++ e.recursions).count x := by
      simp only [List.count_append, List.count_cons, List.count_nil]
      omega
    by_cases hx : x ∈ e.children ++ e.recursions
    · obtain ⟨hn, hone⟩ := h.notMem_of_hanging hw he hx
      have hzero : (visited ++ id :: stack).count x = 0 := List.count_eq_zero.mpr hn
      omega
    · have hzero : (e.children ++ e.recursions).count x = 0 := List.count_eq_zero.mpr hx
      omega
  · intro x hx
    rcases (hmem x).mp hx with hx | hx
    · exact h.inRange x hx
    · obtain ⟨recursive, hl⟩ := mem_listed_iff.mp hx
      exact hw.inRange id e recursive he x hl
  · exact (hmem rootId).mpr (.inl h.root)
  · intro x p f hx hf hp
    rcases (hmem x).mp hx with hx | hx
    · exact List.mem_append_left _ (h.parent x p f hx hf hp)
    · obtain ⟨recursive, hl⟩ := mem_listed_iff.mp hx
      obtain ⟨f', hf', hp', -⟩ := hw.of_listed he hl
      cases hf.symm.trans hf'
      cases hp.symm.trans hp'
      exact List.mem_append_right _ (List.mem_singleton_self id)
  · intro x f hx hf c hc
    rw [hmem]
    rcases List.mem_append.mp hx with hx | hx
    · exact .inl (h.below x f hx hf c hc)
    · cases List.mem_singleton.mp hx
      cases hf.symm.trans he
      exact .inr hc

theorem Walking.length_le (h : Walking t visited stack) : visited.length + stack.length ≤ t.size := by
  have hsub : visited ++ stack ⊆ List.range t.size := fun id hm => List.mem_range.mpr (h.inRange id hm)
  have hle := (h.distinct.subperm hsub).length_le
  simpa using hle

/-- A walk that may visit as many nodes as there are left comes to its end. -/
theorem Walking.run (hw : t.WellFormed) {visits : Nat} (h : Walking t visited stack)
    (hv : t.size ≤ visits + visited.length) :
    ∃ ids, t.walk visits stack = .ok ids ∧ Walking t (visited ++ ids) [] := by
  induction visits generalizing visited stack with
  | zero =>
    cases stack with
    | nil => exact ⟨[], rfl, by simpa using h⟩
    | cons id stack =>
      have hle := h.length_le
      rw [List.length_cons] at hle
      omega
  | succ visits ih =>
    cases stack with
    | nil => exact ⟨[], rfl, by simpa using h⟩
    | cons id stack =>
      have hlt : id < t.size := h.inRange id (List.mem_append_right _ List.mem_cons_self)
      have he : t.entries[id]? = some (t.entries.get ⟨id, hlt⟩) := List.getElem?_eq_getElem hlt
      have hlen : t.size ≤ visits + (visited ++ [id]).length := by
        rw [List.length_append, List.length_singleton]
        omega
      obtain ⟨ids, hr, hend⟩ := ih (h.step hw he) hlen
      refine ⟨id :: ids, ?_, by simpa using hend⟩
      rw [walk, entry_ok.mpr he]
      simp only [hr, Except.map]

/-- When the stack is empty, all nodes have been visited. -/
theorem Walking.mem_of_lt (hw : t.WellFormed) (h : Walking t visited []) (id : NodeId)
    (hlt : id < t.size) : id ∈ visited := by
  induction id using Nat.strongRecOn with
  | _ id ih =>
    by_cases hroot : id = rootId
    · rw [hroot]
      simpa using h.root
    · obtain ⟨p, f, hp, hf, hlisted⟩ := hw.exists_hanging hlt hroot
      simpa using h.below p f (ih p hp (Nat.lt_trans hp hlt)) hf id hlisted

end

/-- A walk that may visit all nodes visits each of them once. -/
theorem WellFormed.walk_perm {t : QueryTree} (hw : t.WellFormed) {visits : Nat}
    (hv : t.size ≤ visits) :
    ∃ ids, t.walk visits [rootId] = .ok ids ∧ ids.Perm (List.range t.size) := by
  have hlen : t.size ≤ visits + ([] : List NodeId).length := hv
  obtain ⟨ids, hr, hend⟩ := (walking_start hw).run hw hlen
  rw [List.nil_append] at hend
  have hdistinct : ids.Nodup := by simpa using hend.distinct
  refine ⟨ids, hr, (List.perm_ext_iff_of_nodup hdistinct List.nodup_range).mpr fun id => ?_⟩
  rw [List.mem_range]
  constructor
  · intro hm
    exact hend.inRange id (by simpa using hm)
  · intro hlt
    exact hend.mem_of_lt hw id hlt

theorem WellFormed.checkPlace_ok {t : QueryTree} (hw : t.WellFormed) {id : NodeId} (hid : id < t.size) :
    t.checkPlace id = .ok () := by
  have he : t.entries[id]? = some (t.entries.get ⟨id, hid⟩) := List.getElem?_eq_getElem hid
  generalize t.entries.get ⟨id, hid⟩ = e at he
  have hchildren : e.children.forM t.checkChild = .ok () := by
    apply forM_ok
    intro child hm
    obtain ⟨f, hf, -, hrec, -⟩ := hw.of_listed he (show child ∈ e.listed false from hm)
    rw [checkChild, entry_ok.mpr hf]
    simp [bind, Except.bind, hrec, pure, Except.pure]
  have hrecursions : e.recursions.forM t.checkRecursion = .ok () := by
    apply forM_ok
    intro recursion hm
    obtain ⟨f, hf, -, hrec, -⟩ := hw.of_listed he (show recursion ∈ e.listed true from hm)
    rw [checkRecursion, entry_ok.mpr hf]
    simp [bind, Except.bind, hrec, pure, Except.pure]
  rw [checkPlace, entry_ok.mpr he]
  show (e.children.forM t.checkChild).bind _ = _
  rw [hchildren]
  exact hrecursions

theorem WellFormed.checkShape_ok {t : QueryTree} (hw : t.WellFormed) : t.checkShape = .ok () := by
  obtain ⟨e, he, hrole, hparent⟩ := hw.root
  obtain ⟨ids, hids, hperm⟩ := hw.walk_perm (Nat.le_succ t.size)
  have hsubtree : t.subtree rootId = .ok ids := hids
  rw [checkShape, entry_ok.mpr he, hsubtree]
  simp only [bind, Except.bind, hparent, hrole]
  apply forM_ok
  intro id hm
  exact hw.checkPlace_ok (List.mem_range.mp (hperm.subset hm))

/-- Whatever the builders have been called with, a tree is well formed, so that its shape passes the check. Its
nodes are all below its root, and the flag of a node is the one that the block which leads to it implies. A
further call that fails names a node that is not there, and leaves the tree exactly as it was; one that answers
changes the entry of that node and adds the new one, and nothing else. -/
theorem after_wellFormed (location : Location) (relation : String) (calls : List Call) :
    let t := (start location relation).after calls
    t.WellFormed ∧ t.checkShape = .ok () ∧
    (∃ ids, t.subtree rootId = .ok ids ∧ ids.Perm (List.range t.size)) ∧
    (∀ e ∈ t.entries, e.node.isOptional = match e.node.role with
      | .root => false
      | .traverse traverse => traverse.optional || traverse.withinOptional
      | .recurse recurse => recurse.withinOptional) ∧
    ∀ (call : Call) (u : QueryTree),
      (∀ e, call.run t = (.error e, u) → t.size ≤ call.place ∧ e = t.outside call.place ∧ u = t) ∧
      (∀ answer, call.run t = (.ok answer, u) → call.place < t.size ∧ answer = call.answer t.size ∧
        Differs t u call.place (fun e => call.change t.size e) call.added) := by
  intro t
  have hw : t.WellFormed := ((Built.start location relation).after calls).wellFormed
  refine ⟨hw, hw.checkShape_ok, hw.walk_perm (Nat.le_succ t.size), ?_, ?_⟩
  · intro e hm
    obtain ⟨id, he⟩ := List.mem_iff_getElem?.mp hm
    rw [hw.optional id e he]
    cases e.node.role <;> rfl
  · intro call u
    constructor
    · intro e hrun
      rw [call.run_eq] at hrun
      split at hrun
      · cases hrun
      · next hout =>
        cases hrun
        exact ⟨Nat.le_of_not_lt hout, rfl, rfl⟩
    · intro answer hrun
      rw [call.run_eq] at hrun
      split at hrun
      · next hlt =>
        cases hrun
        exact ⟨hlt, rfl, differs_of_modify hlt rfl⟩
      · cases hrun

/-- A cub below an animal, and a recursion below a node of some other tree. -/
def cubCalls : List Call :=
  [.child 0 ((Location.root "Animal").descend "out_Cub") "animal" ⟨.outward, "cub", true, false⟩,
    .recursion 7 ((Location.root "Animal").descend "out_Kin") "animal" ⟨.outward, "kin", 2, false⟩,
    .select 1 ⟨"name", "cub_name"⟩]

/-- The recursion below the foreign node has left no node behind, and no more does another such call. -/
theorem after_wellFormed_cub :
    let t := (start (.root "Animal") "animal").after cubCalls
    t.size = 2 ∧ t.WellFormed ∧ t.entries.map (·.node.isOptional) = [false, true] ∧
      (∃ e u, (Call.recursion 7 (.root "Animal") "animal" ⟨.outward, "kin", 2, false⟩).run t =
        (.error e, u) ∧ e = t.outside 7 ∧ u = t) ∧
      ∃ u, (Call.select 0 ⟨"name", "name"⟩).run t = (.ok none, u) ∧
        Differs t u 0 (fun e => { e with node.selections := e.node.selections ++ [⟨"name", "name"⟩] })
          [] := by
  intro t
  obtain ⟨hw, -, -, -, hcalls⟩ := after_wellFormed (.root "Animal") "animal" cubCalls
  refine ⟨rfl, hw, rfl, ⟨_, _, rfl, ?_⟩, _, rfl, ?_⟩
  · exact ((hcalls (.recursion 7 (.root "Animal") "animal" ⟨.outward, "kin", 2, false⟩) _).1 _ rfl).2
  · exact ((hcalls (.select 0 ⟨"name", "name"⟩) _).2 none rfl).2.2

end GraphPlan.QueryTree
