import GraphPlan.Proofs.Emission.Outputs

namespace GraphPlan

/-- The root and the recursions head groups. -/
def Node.isHead (n : Node) : Bool :=
  match n.role with
  | .traverse _ => false
  | _ => true

theorem Node.isHead_eq_false {n : Node} (hr : n.isRecursive = false) (hroot : n.role ≠ .root) :
    n.isHead = false := by
  unfold Node.isRecursive at hr
  unfold Node.isHead
  cases h : n.role with
  | root => exact absurd h hroot
  | traverse _ => rfl
  | recurse _ => simp [h] at hr

theorem Node.isHead_of_recursive {n : Node} (hr : n.isRecursive = true) : n.isHead = true := by
  unfold Node.isRecursive at hr
  unfold Node.isHead
  cases h : n.role <;> simp [h] at hr ⊢

/-- An ordinary child heads no group. -/
theorem QueryTree.HasChild.isHead {t : QueryTree} (hw : t.WellFormed) {a b : Node} (h : t.HasChild a b) :
    b.isHead = false := by
  obtain ⟨e, he, id, hid, f, hf, -, rfl, hrec⟩ := h
  obtain ⟨p, hp⟩ := List.mem_iff_getElem?.mp he
  have hlisted : id ∈ e.listed false := hid
  obtain ⟨f', hf', -, -, hroot, -⟩ := hw.of_listed hp hlisted
  cases hf.symm.trans hf'
  exact Node.isHead_eq_false hrec hroot

/-- The nearest node that heads a group, from a node upwards. -/
inductive QueryTree.Heads (t : QueryTree) (head : NodeId) : NodeId → Prop where
  | self {e : Entry} (he : t.entries[head]? = some e) (hr : e.node.isHead = true) : Heads t head head
  | child {id parent : NodeId} {e : Entry} (he : t.entries[id]? = some e)
      (hr : e.node.isHead = false) (hp : e.parent = some parent) (h : Heads t head parent) :
      Heads t head id

/-- A node is headed by no more than one. -/
theorem QueryTree.Heads.unique {t : QueryTree} {a b id : NodeId} (ha : t.Heads a id)
    (hb : t.Heads b id) : a = b := by
  induction ha with
  | self he hr =>
    cases hb with
    | self => rfl
    | child he' hr' =>
      cases he.symm.trans he'
      simp [hr] at hr'
  | child he hr hp _ ih =>
    cases hb with
    | self he' hr' =>
      cases he.symm.trans he'
      simp [hr] at hr'
    | child he' _ hp' hb =>
      cases he.symm.trans he'
      cases hp.symm.trans hp'
      exact ih hb

theorem QueryTree.Heads.isHead {t : QueryTree} {head id : NodeId} (h : t.Heads head id) :
    ∃ e, t.entries[head]? = some e ∧ e.node.isHead = true := by
  induction h with
  | self he hr => exact ⟨_, he, hr⟩
  | child _ _ _ _ ih => exact ih

theorem QueryTree.Heads.lt_size {t : QueryTree} {head id : NodeId} (h : t.Heads head id) :
    id < t.size := by
  cases h with
  | self he => exact (List.getElem?_eq_some_iff.mp he).1
  | child he => exact (List.getElem?_eq_some_iff.mp he).1

/-- A recursion with all that is below it, and the node that it hangs on. -/
structure Hook where
  parent : NodeId
  recurse : Recurse
  tree : Numbered

/-- The recursion stands in the row with all that is below it. -/
structure Hook.InRow (t : QueryTree) (h : Hook) : Prop where
  role : h.tree.node.role = .recurse h.recurse
  tree : h.tree.Placed t

namespace Numbered

mutual

/-- The recursions that hang on the nodes of the first group, with the nodes that they hang on. -/
def hooks : Numbered → List Hook
  | mk id _ children recursions => recursions.map (fun r => ⟨id, r.1, r.2⟩) ++ hooksEach children

def hooksEach : List Numbered → List Hook
  | [] => []
  | n :: ns => hooks n ++ hooksEach ns

end

mutual

/-- The ids of the first group, each before those of its children. -/
def trunkIds : Numbered → List NodeId
  | mk id _ children _ => id :: trunkIdsEach children

def trunkIdsEach : List Numbered → List NodeId
  | [] => []
  | n :: ns => trunkIds n ++ trunkIdsEach ns

end

mutual

theorem hooks_hanging (n : Numbered) : n.hooks.map (fun h => (h.recurse, h.tree)) = n.hanging := by
  cases n with
  | mk id node children recursions =>
    have hchildren := hooksEach_hanging children
    simp [hooks, hanging, hchildren, Function.comp_def]

theorem hooksEach_hanging (ns : List Numbered) :
    (hooksEach ns).map (fun h => (h.recurse, h.tree)) = hangingEach ns := by
  cases ns with
  | nil => rfl
  | cons n ns =>
    have hn := hooks_hanging n
    have hns := hooksEach_hanging ns
    simp only [hooksEach, hangingEach, List.map_append, hn, hns]

end

/-- The recursions that follow a group, in terms of what hangs on it. -/
theorem recursions_hooks (n : Numbered) :
    n.erase.group.recursions = n.hooks.map fun h => (h.recurse, h.tree.erase.group) := by
  rw [recursions_erase, ← hooks_hanging, List.map_map]
  rfl

mutual

theorem hoisted_erase (n : Numbered) : n.erase.hoisted = n.hooks.map fun h => h.tree.erase := by
  cases n with
  | mk id node children recursions =>
    have hchildren := hoistedEach_eraseEach children
    rw [erase, eraseThrough_eq, OrderedTree.hoisted, hchildren, hooks]
    simp [Function.comp_def]

theorem hoistedEach_eraseEach (ns : List Numbered) :
    OrderedTree.hoistedEach (eraseEach ns) = (hooksEach ns).map fun h => h.tree.erase := by
  cases ns with
  | nil => rfl
  | cons n ns =>
    have hn := hoisted_erase n
    have hns := hoistedEach_eraseEach ns
    simp only [eraseEach, OrderedTree.hoistedEach, hooksEach, List.map_append, hn, hns]

end

mutual

/-- A tree has the ids of its first group and those below what hangs on it. -/
theorem trunkIds_perm (n : Numbered) : (n.trunkIds ++ n.hooks.flatMap (·.tree.ids)).Perm n.ids := by
  cases n with
  | mk id node children recursions =>
    have hchildren := trunkIdsEach_perm children
    have hown : (recursions.map fun r => (⟨id, r.1, r.2⟩ : Hook)).flatMap (·.tree.ids) =
        idsThrough recursions := by
      rw [idsThrough_eq, List.flatMap_map]
    rw [trunkIds, hooks, ids, List.flatMap_append, hown]
    refine List.perm_iff_count.mpr fun x => ?_
    have hcount := hchildren.count_eq x
    simp only [List.cons_append, List.count_cons, List.count_append] at hcount ⊢
    omega

theorem trunkIdsEach_perm (ns : List Numbered) :
    (trunkIdsEach ns ++ (hooksEach ns).flatMap (·.tree.ids)).Perm (idsEach ns) := by
  cases ns with
  | nil => exact .refl _
  | cons n ns =>
    have hn := trunkIds_perm n
    have hns := trunkIdsEach_perm ns
    rw [trunkIdsEach, hooksEach, idsEach, List.flatMap_append]
    refine List.perm_iff_count.mpr fun x => ?_
    have hcount := hn.count_eq x
    have hcounts := hns.count_eq x
    simp only [List.count_append] at hcount hcounts ⊢
    omega

end

mutual

/-- The ordinary children of the first group, each with its parent. -/
def steps : Numbered → List (NodeId × NodeId)
  | mk id _ children _ => children.map (fun c => (id, c.id)) ++ stepsEach children

def stepsEach : List Numbered → List (NodeId × NodeId)
  | [] => []
  | n :: ns => steps n ++ stepsEach ns

end

mutual

theorem mem_steps_of_mem_trunkIds (n : Numbered) : ∀ id ∈ n.trunkIds,
    id = n.id ∨ ∃ p, (p, id) ∈ n.steps := by
  cases n with
  | mk root node children recursions =>
    intro id hid
    rcases List.mem_cons.mp hid with rfl | hid
    · exact .inl rfl
    · rcases mem_steps_of_mem_trunkIdsEach children id hid with ⟨c, hc, rfl⟩ | ⟨p, hp⟩
      · exact .inr ⟨root, List.mem_append_left _ (List.mem_map_of_mem hc)⟩
      · exact .inr ⟨p, List.mem_append_right _ hp⟩

theorem mem_steps_of_mem_trunkIdsEach (ns : List Numbered) : ∀ id ∈ trunkIdsEach ns,
    (∃ n ∈ ns, id = n.id) ∨ ∃ p, (p, id) ∈ stepsEach ns := by
  cases ns with
  | nil => simp [trunkIdsEach]
  | cons n ns =>
    intro id hid
    rcases List.mem_append.mp hid with hid | hid
    · rcases mem_steps_of_mem_trunkIds n id hid with rfl | ⟨p, hp⟩
      · exact .inl ⟨n, List.mem_cons_self, rfl⟩
      · exact .inr ⟨p, List.mem_append_left _ hp⟩
    · rcases mem_steps_of_mem_trunkIdsEach ns id hid with ⟨m, hm, rfl⟩ | ⟨p, hp⟩
      · exact .inl ⟨m, List.mem_cons_of_mem n hm, rfl⟩
      · exact .inr ⟨p, List.mem_append_right _ hp⟩

end

section

variable {t : QueryTree}

mutual

theorem Placed.steps {n : Numbered} (h : n.Placed t) : ∀ s ∈ n.steps,
    ∃ f, t.entries[s.1]? = some f ∧ s.2 ∈ f.children := by
  cases n with
  | mk id node children recursions =>
    obtain ⟨⟨f, hf, -, hchildren, -⟩, hplaced, -⟩ := h
    intro s hs
    rcases List.mem_append.mp hs with hs | hs
    · obtain ⟨c, hc, rfl⟩ := List.mem_map.mp hs
      refine ⟨f, hf, ?_⟩
      rw [hchildren]
      exact List.mem_map_of_mem hc
    · exact PlacedEach.steps hplaced s hs

theorem PlacedEach.steps {ns : List Numbered} (h : PlacedEach t ns) : ∀ s ∈ stepsEach ns,
    ∃ f, t.entries[s.1]? = some f ∧ s.2 ∈ f.children := by
  cases ns with
  | nil => simp [stepsEach]
  | cons n ns =>
    intro s hs
    rcases List.mem_append.mp hs with hs | hs
    · exact Placed.steps h.1 s hs
    · exact PlacedEach.steps h.2 s hs

end

mutual

/-- What hangs on a group is listed by one of its nodes. -/
theorem Placed.hooks {n : Numbered} (h : n.Placed t) : ∀ k ∈ n.hooks, k.InRow t ∧
    k.parent ∈ n.trunkIds ∧ ∃ f, t.entries[k.parent]? = some f ∧ k.tree.id ∈ f.recursions := by
  cases n with
  | mk id node children recursions =>
    obtain ⟨⟨f, hf, -, -, hrecursions⟩, hplaced, hthrough⟩ := h
    have hbelow := PlacedEach.hooks hplaced
    intro k hk
    rcases List.mem_append.mp hk with hk | hk
    · obtain ⟨r, hr, rfl⟩ := List.mem_map.mp hk
      obtain ⟨hrole, htree⟩ := placedThrough_iff.mp hthrough r hr
      refine ⟨⟨hrole, htree⟩, List.mem_cons_self, f, hf, ?_⟩
      rw [hrecursions]
      exact List.mem_map_of_mem hr
    · obtain ⟨hk, hparent, hlisted⟩ := hbelow k hk
      exact ⟨hk, List.mem_cons_of_mem _ hparent, hlisted⟩

theorem PlacedEach.hooks {ns : List Numbered} (h : PlacedEach t ns) : ∀ k ∈ hooksEach ns,
    k.InRow t ∧ k.parent ∈ trunkIdsEach ns ∧
      ∃ f, t.entries[k.parent]? = some f ∧ k.tree.id ∈ f.recursions := by
  cases ns with
  | nil => simp [hooksEach]
  | cons n ns =>
    have hn := Placed.hooks h.1
    have hns := PlacedEach.hooks h.2
    intro k hk
    rcases List.mem_append.mp hk with hk | hk
    · obtain ⟨hk, hparent, hlisted⟩ := hn k hk
      exact ⟨hk, List.mem_append_left _ hparent, hlisted⟩
    · obtain ⟨hk, hparent, hlisted⟩ := hns k hk
      exact ⟨hk, List.mem_append_right _ hparent, hlisted⟩

end

mutual

/-- Whoever heads the topmost node of a group heads all of its nodes, and none of the others is a head. -/
theorem Placed.heads {n : Numbered} (h : n.Placed t) (hw : t.WellFormed) {head : NodeId}
    (hn : t.Heads head n.id) : ∀ id ∈ n.trunkIds, t.Heads head id ∧
      (id = n.id ∨ ∃ e, t.entries[id]? = some e ∧ e.node.isHead = false) := by
  cases n with
  | mk root node children recursions =>
    obtain ⟨⟨f, hf, -, hchildren, -⟩, hplaced, -⟩ := h
    have hordinary : ∀ c ∈ children, t.Heads head c.id ∧
        ∃ e, t.entries[c.id]? = some e ∧ e.node.isHead = false := by
      intro c hc
      have hlisted : c.id ∈ f.listed false := by
        show c.id ∈ f.children
        rw [hchildren]
        exact List.mem_map_of_mem hc
      obtain ⟨e, he, hparent, hrec, hroot, -⟩ := hw.of_listed hf hlisted
      have hhead := Node.isHead_eq_false hrec hroot
      exact ⟨.child he hhead hparent hn, e, he, hhead⟩
    intro id hid
    rcases List.mem_cons.mp hid with rfl | hid
    · exact ⟨hn, .inl rfl⟩
    · obtain ⟨hheads, hnot⟩ := PlacedEach.heads hplaced hw hordinary id hid
      exact ⟨hheads, .inr hnot⟩

theorem PlacedEach.heads {ns : List Numbered} (h : PlacedEach t ns) (hw : t.WellFormed) {head : NodeId}
    (hns : ∀ n ∈ ns, t.Heads head n.id ∧ ∃ e, t.entries[n.id]? = some e ∧ e.node.isHead = false) :
    ∀ id ∈ trunkIdsEach ns, t.Heads head id ∧
      ∃ e, t.entries[id]? = some e ∧ e.node.isHead = false := by
  cases ns with
  | nil => simp [trunkIdsEach]
  | cons n ns =>
    obtain ⟨hn, hnot⟩ := hns n List.mem_cons_self
    have hfirst := Placed.heads h.1 hw hn
    have hrest := PlacedEach.heads h.2 hw fun m hm => hns m (List.mem_cons_of_mem n hm)
    intro id hid
    rcases List.mem_append.mp hid with hid | hid
    · obtain ⟨hheads, rfl | hnot'⟩ := hfirst id hid
      · exact ⟨hheads, hnot⟩
      · exact ⟨hheads, hnot'⟩
    · exact hrest id hid

end

end

end Numbered

/-- A recursion heads its own group, and its parent is the node that it hangs on. -/
theorem Hook.InRow.entry {t : QueryTree} {k : Hook} (h : k.InRow t) (hw : t.WellFormed) {f : Entry}
    (hf : t.entries[k.parent]? = some f) (hk : k.tree.id ∈ f.recursions) :
    ∃ e, t.entries[k.tree.id]? = some e ∧ e.node = k.tree.node ∧ e.parent = some k.parent ∧
      t.Heads k.tree.id k.tree.id := by
  obtain ⟨e, he, hnode⟩ := h.tree.lookup
  have hlisted : k.tree.id ∈ f.listed true := hk
  obtain ⟨e', he', hparent, hrec, -⟩ := hw.of_listed hf hlisted
  cases he.symm.trans he'
  exact ⟨e, he, hnode, hparent, .self he (Node.isHead_of_recursive hrec)⟩

end GraphPlan
