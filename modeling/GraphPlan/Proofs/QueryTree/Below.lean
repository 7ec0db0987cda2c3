import GraphPlan.Proofs.QueryTree.Arena

namespace GraphPlan

theorem OrderedTree.group_trunk_node (t : OrderedTree) : t.group.trunk.node = t.node := by
  cases t
  rfl

namespace QueryTree

theorem below_ok {t : QueryTree} {depth : Nat} {id : NodeId} {sub : OrderedTree}
    (h : t.below depth id = .ok sub) :
    ∃ n e children recursions, depth = n + 1 ∧ t.entries[id]? = some e ∧
      (e.children.mapM fun child => t.below n child >>= asChild) = .ok children ∧
      (e.recursions.mapM fun recursion => t.below n recursion >>= asRecursion) = .ok recursions ∧
      sub = .mk e.node children recursions := by
  cases depth with
  | zero => cases h
  | succ n =>
    rw [below] at h
    obtain ⟨e, he, h⟩ := bind_ok h
    obtain ⟨children, hc, h⟩ := bind_ok h
    obtain ⟨recursions, hr, h⟩ := bind_ok h
    cases h
    exact ⟨n, e, children, recursions, rfl, entry_ok.mp he, hc, hr, rfl⟩

theorem asChild_ok {t child : OrderedTree} (h : asChild t = .ok child) :
    child = t ∧ t.node.isRecursive = false := by
  unfold asChild at h
  split at h
  · cases h
  · next hrole =>
    cases h
    exact ⟨rfl, Bool.eq_false_iff.mpr hrole⟩

theorem asRecursion_ok {t : OrderedTree} {p : Recurse × OrderedTree} (h : asRecursion t = .ok p) :
    p.2 = t ∧ t.node.role = .recurse p.1 := by
  unfold asRecursion at h
  split at h
  · next recurse hrole =>
    cases h
    exact ⟨rfl, hrole⟩
  · cases h

/-- Where no node is reached by a recursion, all nodes are in one group. -/
theorem below_recursions_eq_nil {t : QueryTree} (ht : ∀ e ∈ t.entries, e.node.isRecursive = false)
    {depth : Nat} {id : NodeId} {sub : OrderedTree} (h : t.below depth id = .ok sub) :
    sub.group.recursions = [] := by
  induction depth generalizing id sub with
  | zero => cases h
  | succ depth ih =>
    obtain ⟨n, e, children, recursions, hn, _, hc, hr, rfl⟩ := below_ok h
    obtain rfl := Nat.succ.inj hn
    have hnone : recursions = [] := by
      apply List.eq_nil_iff_forall_not_mem.mpr
      intro p hp
      obtain ⟨child, _, hchild⟩ := exists_of_mem_mapM hr hp
      obtain ⟨c, hbelow, hrole⟩ := bind_ok hchild
      obtain ⟨_, e', _, _, _, he', _, _, rfl⟩ := below_ok hbelow
      have hnode : e'.node.role = .recurse p.1 := (asRecursion_ok hrole).2
      have hfalse := ht e' (List.mem_of_getElem? he')
      simp [Node.isRecursive, hnode] at hfalse
    have hbelow : ∀ c ∈ children, c.group.recursions = [] := by
      intro c hm
      obtain ⟨child, _, hchild⟩ := exists_of_mem_mapM hc hm
      obtain ⟨c', hbelow, hrole⟩ := bind_ok hchild
      rw [(asChild_ok hrole).1]
      exact ih hbelow
    have hgroups : ∀ cs : List OrderedTree, (∀ c ∈ cs, c.group.recursions = []) →
        (OrderedTree.groups cs).flatMap Group.recursions = [] := by
      intro cs hcs
      induction cs with
      | nil => rfl
      | cons c cs ihc =>
        rw [OrderedTree.groups, List.flatMap_cons, hcs c List.mem_cons_self,
          ihc fun x hx => hcs x (List.mem_cons_of_mem c hx)]
        rfl
    rw [hnone, OrderedTree.group, Group.recursions, hgroups children hbelow]
    rfl

end QueryTree

end GraphPlan
