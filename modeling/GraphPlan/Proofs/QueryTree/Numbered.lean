import GraphPlan.Proofs.QueryTree.Coverage

namespace GraphPlan

inductive Numbered where
  | mk (id : NodeId) (node : Node) (children : List Numbered) (recursions : List (Recurse × Numbered))

namespace Numbered

def id : Numbered → NodeId
  | mk id _ _ _ => id

def node : Numbered → Node
  | mk _ node _ _ => node

mutual

/-- The tree without its ids. -/
def erase : Numbered → OrderedTree
  | mk _ node children recursions => .mk node (eraseEach children) (eraseThrough recursions)

def eraseEach : List Numbered → List OrderedTree
  | [] => []
  | n :: ns => erase n :: eraseEach ns

def eraseThrough : List (Recurse × Numbered) → List (Recurse × OrderedTree)
  | [] => []
  | (r, n) :: ns => (r, erase n) :: eraseThrough ns

end

mutual

/-- All ids of a tree, each before those that hang on it. -/
def ids : Numbered → List NodeId
  | mk id _ children recursions => id :: (idsEach children ++ idsThrough recursions)

def idsEach : List Numbered → List NodeId
  | [] => []
  | n :: ns => ids n ++ idsEach ns

def idsThrough : List (Recurse × Numbered) → List NodeId
  | [] => []
  | (_, n) :: ns => ids n ++ idsThrough ns

end

/-- The entry of a node, given what hangs on it. -/
def Entered (t : QueryTree) (id : NodeId) (node : Node) (children recursions : List NodeId) : Prop :=
  ∃ e, t.entries[id]? = some e ∧ e.node = node ∧ e.children = children ∧ e.recursions = recursions

mutual

/-- Every node of the tree is the entry of its id, with what hangs on it in the same order. -/
def Placed (t : QueryTree) : Numbered → Prop
  | mk id node children recursions =>
    Entered t id node (children.map Numbered.id) (recursions.map (·.2.id)) ∧
      PlacedEach t children ∧ PlacedThrough t recursions

def PlacedEach (t : QueryTree) : List Numbered → Prop
  | [] => True
  | n :: ns => Placed t n ∧ PlacedEach t ns

def PlacedThrough (t : QueryTree) : List (Recurse × Numbered) → Prop
  | [] => True
  | (r, n) :: ns => n.node.role = .recurse r ∧ Placed t n ∧ PlacedThrough t ns

end

/-- The tree is the one that the row shows from its root. -/
structure Lays (n : Numbered) (t : QueryTree) : Prop where
  root : n.id = QueryTree.rootId
  placed : n.Placed t

section

variable {t : QueryTree}

@[simp] theorem erase_node (n : Numbered) : n.erase.node = n.node := by
  cases n
  rfl

theorem placedEach_iff {ns : List Numbered} : PlacedEach t ns ↔ ∀ n ∈ ns, n.Placed t := by
  induction ns with
  | nil => simp [PlacedEach]
  | cons n ns ih => simp [PlacedEach, ih]

theorem placedThrough_iff {ns : List (Recurse × Numbered)} :
    PlacedThrough t ns ↔ ∀ p ∈ ns, p.2.node.role = .recurse p.1 ∧ p.2.Placed t := by
  induction ns with
  | nil => simp [PlacedThrough]
  | cons p ns ih => simp [PlacedThrough, ih, and_assoc]

theorem Placed.lookup {n : Numbered} (h : n.Placed t) :
    ∃ e, t.entries[n.id]? = some e ∧ e.node = n.node := by
  cases n with
  | mk id node children recursions =>
    obtain ⟨e, he, hnode, -⟩ := h.1
    exact ⟨e, he, hnode⟩

theorem eraseEach_eq (ns : List Numbered) : eraseEach ns = ns.map erase := by
  induction ns with
  | nil => rfl
  | cons n ns ih => rw [eraseEach, ih, List.map_cons]

theorem eraseThrough_eq (ns : List (Recurse × Numbered)) :
    eraseThrough ns = ns.map fun p => (p.1, p.2.erase) := by
  induction ns with
  | nil => rfl
  | cons p ns ih => rw [eraseThrough, ih, List.map_cons]

theorem eq_map_of_mapM {α β : Type} {f : α → Except Error β} {g : α → β} {xs : List α} {ys : List β}
    (h : xs.mapM f = .ok ys) (hf : ∀ x ∈ xs, ∀ y, f x = .ok y → y = g x) : ys = xs.map g := by
  have hall := mapM_ok h
  clear h
  induction hall with
  | nil => rfl
  | @cons x y xs ys hx _ ih =>
    rw [List.map_cons, ← hf x List.mem_cons_self y hx, ← ih]
    intro z hz
    exact hf z (List.mem_cons_of_mem x hz)

/-- What is read below an id is the tree that is placed there. -/
theorem Placed.below_eq {n : Numbered} (h : n.Placed t) {depth : Nat} {sub : OrderedTree}
    (hb : t.below depth n.id = .ok sub) : sub = n.erase := by
  induction depth generalizing n sub with
  | zero => cases hb
  | succ depth ih =>
    obtain ⟨d, e, subs, rsubs, hd, he, hc, hr, rfl⟩ := QueryTree.below_ok hb
    obtain rfl := Nat.succ.inj hd
    cases n with
    | mk id node children recursions =>
      obtain ⟨⟨f, hf, hnode, hchildren, hrecursions⟩, hplaced, hthrough⟩ := h
      cases he.symm.trans hf
      rw [hchildren, List.mapM_map] at hc
      rw [hrecursions, List.mapM_map] at hr
      have hsubs : subs = children.map erase := by
        apply eq_map_of_mapM hc
        intro c hm sub hread
        obtain ⟨sub', hbelow, hchild⟩ := bind_ok hread
        obtain ⟨rfl, -⟩ := QueryTree.asChild_ok hchild
        exact ih (placedEach_iff.mp hplaced c hm) hbelow
      have hrsubs : rsubs = recursions.map fun p => (p.1, p.2.erase) := by
        apply eq_map_of_mapM hr
        intro p hm sub hread
        obtain ⟨hrole, hp⟩ := placedThrough_iff.mp hthrough p hm
        obtain ⟨sub', hbelow, hrecursion⟩ := bind_ok hread
        obtain ⟨rfl, hrole'⟩ := QueryTree.asRecursion_ok hrecursion
        have hsub := ih hp hbelow
        rw [hsub, erase_node, hrole] at hrole'
        obtain ⟨r, s⟩ := sub
        cases hrole'
        cases hsub
        rfl
      rw [hnode, hsubs, hrsubs, erase, eraseEach_eq, eraseThrough_eq]

theorem Lays.ordered_eq {n : Numbered} (h : n.Lays t) (hw : t.WellFormed) :
    t.ordered = .ok n.erase := by
  obtain ⟨tree, ho⟩ := hw.exists_ordered
  have hb : t.below t.size n.id = .ok tree := by
    rw [h.root]
    exact ho
  rw [ho, h.placed.below_eq hb]

theorem exists_map_eq {α β : Type} {f : α → β} {P : α → Prop} {ys : List β}
    (h : ∀ y ∈ ys, ∃ x, f x = y ∧ P x) : ∃ xs : List α, xs.map f = ys ∧ ∀ x ∈ xs, P x := by
  induction ys with
  | nil => exact ⟨[], rfl, by simp⟩
  | cons y ys ih =>
    obtain ⟨x, hx, hp⟩ := h y List.mem_cons_self
    obtain ⟨xs, hxs, hps⟩ := ih fun z hz => h z (List.mem_cons_of_mem y hz)
    refine ⟨x :: xs, by rw [List.map_cons, hx, hxs], ?_⟩
    intro z hz
    rcases List.mem_cons.mp hz with hz | hz
    · rw [hz]
      exact hp
    · exact hps z hz

/-- As for the ordered form, the number of nodes that come after a node bounds the depth below it. -/
theorem exists_placed (hw : t.WellFormed) {depth : Nat} {id : NodeId} {e : Entry}
    (he : t.entries[id]? = some e) (hd : t.size ≤ id + depth) :
    ∃ n : Numbered, n.id = id ∧ n.node = e.node ∧ n.Placed t := by
  induction depth generalizing id e with
  | zero =>
    have hlt : id < t.size := (List.getElem?_eq_some_iff.mp he).1
    exact absurd hlt (Nat.not_lt.mpr hd)
  | succ depth ih =>
    have hlisted : ∀ (recursive : Bool) (c : NodeId), c ∈ e.listed recursive →
        ∃ n : Numbered, n.id = c ∧ n.node.isRecursive = recursive ∧ n.Placed t := by
      intro recursive c hc
      obtain ⟨f, hf, -, hrec, -, hlt⟩ := hw.of_listed he hc
      have hstep : id + (depth + 1) ≤ c + depth := by
        rw [Nat.add_comm depth 1, ← Nat.add_assoc]
        exact Nat.add_le_add_right hlt depth
      obtain ⟨n, hid, hnode, hp⟩ := ih hf (Nat.le_trans hd hstep)
      rw [← hnode] at hrec
      exact ⟨n, hid, hrec, hp⟩
    obtain ⟨children, hchildren, hplaced⟩ := exists_map_eq (hlisted false)
    have hthrough : ∀ c ∈ e.recursions, ∃ p : Recurse × Numbered, p.2.id = c ∧
        p.2.node.role = .recurse p.1 ∧ p.2.Placed t := by
      intro c hc
      obtain ⟨n, hid, hrec, hp⟩ := hlisted true c hc
      unfold Node.isRecursive at hrec
      split at hrec
      · next r hrole => exact ⟨(r, n), hid, hrole, hp⟩
      · cases hrec
    obtain ⟨recursions, hrecursions, hroles⟩ := exists_map_eq hthrough
    refine ⟨.mk id e.node children recursions, rfl, rfl, ?_⟩
    refine ⟨⟨e, he, rfl, hchildren.symm, hrecursions.symm⟩, ?_, placedThrough_iff.mpr hroles⟩
    exact placedEach_iff.mpr fun n hn => (hplaced n hn).2

theorem exists_lays (hw : t.WellFormed) : ∃ n : Numbered, n.Lays t := by
  obtain ⟨e, he, -⟩ := hw.root
  obtain ⟨n, hid, -, hp⟩ := exists_placed hw he (show t.size ≤ QueryTree.rootId + t.size by omega)
  exact ⟨n, hid, hp⟩

theorem idsEach_eq (ns : List Numbered) : idsEach ns = ns.flatMap ids := by
  induction ns with
  | nil => rfl
  | cons n ns ih => rw [idsEach, ih, List.flatMap_cons]

theorem idsThrough_eq (ns : List (Recurse × Numbered)) : idsThrough ns = ns.flatMap (·.2.ids) := by
  induction ns with
  | nil => rfl
  | cons p ns ih => rw [idsThrough, ih, List.flatMap_cons]

theorem ids_eq (n : Numbered) : n.ids = n.id :: n.ids.tail := by
  cases n
  rfl

theorem id_mem_ids (n : Numbered) : n.id ∈ n.ids := by
  rw [ids_eq]
  exact List.mem_cons_self

mutual

theorem Placed.visits {n : Numbered} (h : n.Placed t) : t.Visits [n.id] n.ids := by
  cases n with
  | mk id node children recursions =>
    obtain ⟨⟨e, he, -, hchildren, hrecursions⟩, hplaced, hthrough⟩ := h
    refine QueryTree.Visits.cons ?_ he
    rw [hchildren, hrecursions]
    exact (PlacedEach.visits hplaced).append (PlacedThrough.visits hthrough)

theorem PlacedEach.visits {ns : List Numbered} (h : PlacedEach t ns) :
    t.Visits (ns.map Numbered.id) (idsEach ns) := by
  cases ns with
  | nil => exact QueryTree.visits_nil
  | cons n ns => exact (Placed.visits h.1).append (PlacedEach.visits h.2)

theorem PlacedThrough.visits {ns : List (Recurse × Numbered)} (h : PlacedThrough t ns) :
    t.Visits (ns.map (·.2.id)) (idsThrough ns) := by
  cases ns with
  | nil => exact QueryTree.visits_nil
  | cons p ns => exact (Placed.visits h.2.1).append (PlacedThrough.visits h.2.2)

end

theorem Lays.ids_perm {n : Numbered} (h : n.Lays t) (hw : t.WellFormed) :
    n.ids.Perm (List.range t.size) := by
  have hv := h.placed.visits
  rw [h.root] at hv
  exact hv.perm_range hw

end

mutual

/-- The recursions that hang on the nodes of the first group. -/
def hanging : Numbered → List (Recurse × Numbered)
  | mk _ _ children recursions => recursions ++ hangingEach children

def hangingEach : List Numbered → List (Recurse × Numbered)
  | [] => []
  | n :: ns => hanging n ++ hangingEach ns

end

theorem groups_eq (ts : List OrderedTree) : OrderedTree.groups ts = ts.map OrderedTree.group := by
  induction ts with
  | nil => rfl
  | cons t ts ih => rw [OrderedTree.groups, ih, List.map_cons]

theorem recursionGroups_eq (ts : List (Recurse × OrderedTree)) :
    OrderedTree.recursionGroups ts = ts.map fun p => (p.1, p.2.group) := by
  induction ts with
  | nil => rfl
  | cons p ts ih => rw [OrderedTree.recursionGroups, ih, List.map_cons]

theorem trunk_erase (id : NodeId) (node : Node) (children : List Numbered)
    (recursions : List (Recurse × Numbered)) :
    (mk id node children recursions).erase.group.trunk =
      .mk node (recursions.map (·.2.node)) (children.map (·.erase.group.trunk)) := by
  rw [erase, eraseEach_eq, eraseThrough_eq, OrderedTree.group, groups_eq, recursionGroups_eq]
  show Branch.mk node _ _ = _
  simp [OrderedTree.group_trunk_node, Function.comp_def]

mutual

theorem recursions_erase (n : Numbered) :
    n.erase.group.recursions = n.hanging.map fun p => (p.1, p.2.erase.group) := by
  cases n with
  | mk id node children recursions =>
    rw [erase, eraseThrough_eq, OrderedTree.group, recursionGroups_eq, hanging, List.map_append,
      ← recursions_eraseEach children]
    simp [Group.recursions, Function.comp_def]

theorem recursions_eraseEach (ns : List Numbered) :
    (OrderedTree.groups (eraseEach ns)).flatMap Group.recursions =
      (hangingEach ns).map fun p => (p.1, p.2.erase.group) := by
  cases ns with
  | nil => rfl
  | cons n ns =>
    rw [eraseEach, OrderedTree.groups, List.flatMap_cons, recursions_erase n, recursions_eraseEach ns,
      hangingEach, List.map_append]

end

mutual

/-- A node and what hangs on its group share no id. -/
theorem hanging_subperm (n : Numbered) : (n.id :: n.hanging.flatMap (·.2.ids)).Subperm n.ids := by
  cases n with
  | mk id node children recursions =>
    apply (List.subperm_cons id).mpr
    rw [hanging, List.flatMap_append, ← idsThrough_eq]
    exact (List.perm_append_comm.subperm).trans
      ((hangingEach_subperm children).append (List.Subperm.refl _))

theorem hangingEach_subperm (ns : List Numbered) :
    ((hangingEach ns).flatMap (·.2.ids)).Subperm (idsEach ns) := by
  cases ns with
  | nil => exact List.Subperm.refl _
  | cons n ns =>
    rw [hangingEach, List.flatMap_append, idsEach]
    have hn := (List.sublist_cons_self n.id _).subperm.trans (hanging_subperm n)
    exact hn.append (hangingEach_subperm ns)

end

theorem hangingEach_eq (ns : List Numbered) : hangingEach ns = ns.flatMap hanging := by
  induction ns with
  | nil => rfl
  | cons n ns ih => rw [hangingEach, ih, List.flatMap_cons]

section

variable {t : QueryTree}

theorem PlacedThrough.append {ns ms : List (Recurse × Numbered)} (hn : PlacedThrough t ns)
    (hm : PlacedThrough t ms) : PlacedThrough t (ns ++ ms) := by
  apply placedThrough_iff.mpr
  intro p hp
  rcases List.mem_append.mp hp with hp | hp
  · exact placedThrough_iff.mp hn p hp
  · exact placedThrough_iff.mp hm p hp

mutual

theorem Placed.hanging {n : Numbered} (h : n.Placed t) : PlacedThrough t n.hanging := by
  cases n with
  | mk id node children recursions => exact h.2.2.append (PlacedEach.hanging h.2.1)

theorem PlacedEach.hanging {ns : List Numbered} (h : PlacedEach t ns) :
    PlacedThrough t (hangingEach ns) := by
  cases ns with
  | nil => trivial
  | cons n ns => exact (Placed.hanging h.1).append (PlacedEach.hanging h.2)

end

end

/-- The ids of the recursions that hang on the first group. -/
def hangingIds (n : Numbered) : List NodeId := n.hanging.map (·.2.id)

theorem hangingIds_mk (id : NodeId) (node : Node) (children : List Numbered)
    (recursions : List (Recurse × Numbered)) :
    (mk id node children recursions).hangingIds =
      recursions.map (·.2.id) ++ children.flatMap hangingIds := by
  rw [hangingIds, hanging, List.map_append, hangingEach_eq, List.map_flatMap]
  rfl

theorem ids_sublist_of_mem {ns : List Numbered} {n : Numbered} (h : n ∈ ns) :
    n.ids.Sublist (idsEach ns) := by
  rw [idsEach_eq]
  exact List.sublist_flatten_of_mem (List.mem_map_of_mem h)

theorem map_id_sublist (ns : List Numbered) : (ns.map id).Sublist (idsEach ns) := by
  induction ns with
  | nil => exact List.Sublist.refl _
  | cons n ns ih =>
    rw [List.map_cons, idsEach, ids_eq]
    exact (ih.trans (List.sublist_append_right _ _)).cons_cons _

theorem nodup_hanging {n : Numbered} (h : n.ids.Nodup) :
    (n.id :: n.hanging.flatMap (·.2.ids)).Nodup := by
  obtain ⟨ids, hperm, hsub⟩ := n.hanging_subperm
  exact hperm.nodup_iff.mp (h.sublist hsub)

theorem nodup_hangingIds {n : Numbered} (h : n.ids.Nodup) : n.hangingIds.Nodup := by
  have hall := (List.nodup_cons.mp (nodup_hanging h)).2
  have hsub := map_id_sublist (n.hanging.map Prod.snd)
  rw [idsEach_eq, List.map_map, List.flatMap_map] at hsub
  exact hall.sublist hsub

/-- What hangs on a group is a smaller tree with other ids. -/
theorem of_mem_hanging {n : Numbered} (h : n.ids.Nodup) {p : Recurse × Numbered}
    (hp : p ∈ n.hanging) :
    p.2.ids.Nodup ∧ n.id ∉ p.2.ids ∧ p.2.ids ⊆ n.ids ∧ p.2.ids.length < n.ids.length := by
  have hsub : p.2.ids.Sublist (n.hanging.flatMap (·.2.ids)) :=
    List.sublist_flatten_of_mem (List.mem_map_of_mem hp)
  have hall := n.hanging_subperm
  obtain ⟨hid, hnodup⟩ := List.nodup_cons.mp (nodup_hanging h)
  refine ⟨hnodup.sublist hsub, fun hm => hid (hsub.subset hm), ?_, ?_⟩
  · intro i hi
    exact hall.subset (List.mem_cons_of_mem _ (hsub.subset hi))
  · have hlen := hall.length_le
    rw [List.length_cons] at hlen
    have hle := hsub.length_le
    omega

end Numbered

end GraphPlan
