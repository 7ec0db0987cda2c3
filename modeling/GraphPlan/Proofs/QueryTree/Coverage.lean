import GraphPlan.Proofs.QueryTree.Below
import GraphPlan.Proofs.QueryTree.Walk

namespace GraphPlan

namespace OrderedTree

mutual

/-- All nodes of a tree, each before what hangs on it. -/
def nodes : OrderedTree → List Node
  | mk node children recursions => node :: (nodesBelow children ++ nodesThrough recursions)

def nodesBelow : List OrderedTree → List Node
  | [] => []
  | t :: ts => nodes t ++ nodesBelow ts

def nodesThrough : List (Recurse × OrderedTree) → List Node
  | [] => []
  | (_, t) :: ts => nodes t ++ nodesThrough ts

end

theorem nodesBelow_eq (ts : List OrderedTree) : nodesBelow ts = ts.flatMap nodes := by
  induction ts with
  | nil => rfl
  | cons t ts ih => rw [nodesBelow, ih, List.flatMap_cons]

theorem nodesThrough_eq (ts : List (Recurse × OrderedTree)) :
    nodesThrough ts = ts.flatMap (·.2.nodes) := by
  induction ts with
  | nil => rfl
  | cons p ts ih => rw [nodesThrough, ih, List.flatMap_cons]

section

variable (joined : Node → Node → Prop)

mutual

/-- Children are joined to their parents, and recursions lead to nodes that are reached by recursions. -/
def Proper : OrderedTree → Prop
  | mk node children recursions => ProperBelow node children ∧ ProperThrough recursions

def ProperBelow (parent : Node) : List OrderedTree → Prop
  | [] => True
  | t :: ts => joined parent t.node ∧ Proper t ∧ ProperBelow parent ts

def ProperThrough : List (Recurse × OrderedTree) → Prop
  | [] => True
  | (_, t) :: ts => t.node.isRecursive = true ∧ Proper t ∧ ProperThrough ts

end

end

end OrderedTree

namespace Branch

mutual

/-- The nodes of a group, each before its children. -/
def nodes : Branch → List Node
  | mk node _ children => node :: nodesEach children

def nodesEach : List Branch → List Node
  | [] => []
  | b :: bs => nodes b ++ nodesEach bs

end

mutual

/-- The recursions that hang on the nodes of a group. -/
def hangings : Branch → List Node
  | mk _ hanging children => hanging ++ hangingsEach children

def hangingsEach : List Branch → List Node
  | [] => []
  | b :: bs => hangings b ++ hangingsEach bs

end

theorem nodes_eq (b : Branch) : b.nodes = b.node :: b.nodes.tail := by
  cases b
  rfl

section

variable (joined : Node → Node → Prop)

mutual

/-- The children of a group are joined to their parents. -/
def Joined : Branch → Prop
  | mk node _ children => JoinedEach node children

def JoinedEach (parent : Node) : List Branch → Prop
  | [] => True
  | b :: bs => joined parent b.node ∧ Joined b ∧ JoinedEach parent bs

end

end

end Branch

namespace Group

mutual

/-- The nodes of a group and of those that follow it. -/
def nodes : Group → List Node
  | mk trunk recursions => trunk.nodes ++ nodesEach recursions

def nodesEach : List (Recurse × Group) → List Node
  | [] => []
  | (_, g) :: gs => nodes g ++ nodesEach gs

end

theorem nodesEach_append (gs hs : List (Recurse × Group)) :
    nodesEach (gs ++ hs) = nodesEach gs ++ nodesEach hs := by
  induction gs with
  | nil => rfl
  | cons p gs ih => simp [nodesEach, ih]

section

variable (joined : Node → Node → Prop)

mutual

/-- A group is followed by the recursions that hang on its nodes, and these head the groups that follow. -/
def Proper : Group → Prop
  | mk trunk recursions => trunk.hangings = recursions.map (·.2.trunk.node) ∧ trunk.Joined joined ∧
    ProperEach recursions

def ProperEach : List (Recurse × Group) → Prop
  | [] => True
  | (_, g) :: gs => g.trunk.node.isRecursive = true ∧ Proper g ∧ ProperEach gs

end

end

theorem properEach_append {joined : Node → Node → Prop} {gs hs : List (Recurse × Group)}
    (hg : ProperEach joined gs) (hh : ProperEach joined hs) : ProperEach joined (gs ++ hs) := by
  induction gs with
  | nil => exact hh
  | cons p gs ih => exact ⟨hg.1, hg.2.1, ih hg.2.2⟩

end Group

namespace OrderedTree

/-- The nodes of the first group of each tree, and then those of all that follow. -/
def divided (gs : List Group) : List Node :=
  Branch.nodesEach (gs.map Group.trunk) ++ Group.nodesEach (gs.flatMap Group.recursions)

mutual

/-- Division into groups keeps all nodes. -/
theorem nodes_group (t : OrderedTree) : t.group.nodes.Perm t.nodes := by
  cases t with
  | mk node children recursions =>
    have hc := nodes_groups children
    have hr := nodesEach_recursionGroups recursions
    simp only [group, Group.nodes, Branch.nodes, Group.nodesEach_append, nodes, List.cons_append]
    refine List.Perm.cons _ ?_
    -- What hangs on the node itself stands between its children and what hangs on them.
    calc Branch.nodesEach ((groups children).map Group.trunk) ++
          (Group.nodesEach (recursionGroups recursions) ++
            Group.nodesEach ((groups children).flatMap Group.recursions))
        _ = Branch.nodesEach ((groups children).map Group.trunk) ++
            Group.nodesEach (recursionGroups recursions) ++
            Group.nodesEach ((groups children).flatMap Group.recursions) := by
          rw [List.append_assoc]
        List.Perm _ (divided (groups children) ++ Group.nodesEach (recursionGroups recursions)) := by
          unfold divided
          rw [List.append_assoc, List.append_assoc]
          exact List.Perm.append_left _ List.perm_append_comm
        List.Perm _ (nodesBelow children ++ nodesThrough recursions) := hc.append hr

theorem nodes_groups (ts : List OrderedTree) : (divided (groups ts)).Perm (nodesBelow ts) := by
  cases ts with
  | nil => exact .refl _
  | cons t ts =>
    have ht := nodes_group t
    have hts := nodes_groups ts
    cases hg : t.group with
    | mk trunk recursions =>
      rw [hg, Group.nodes] at ht
      simp only [divided, groups, hg, List.map_cons, List.flatMap_cons, Branch.nodesEach,
        Group.nodesEach_append, Group.trunk, Group.recursions, nodesBelow] at hts ⊢
      refine List.Perm.trans ?_ (ht.append hts)
      rw [List.append_assoc, List.append_assoc]
      refine List.Perm.append_left _ ?_
      rw [← List.append_assoc, ← List.append_assoc]
      exact List.perm_append_comm.append_right _

theorem nodesEach_recursionGroups (ts : List (Recurse × OrderedTree)) :
    (Group.nodesEach (recursionGroups ts)).Perm (nodesThrough ts) := by
  cases ts with
  | nil => exact .refl _
  | cons p ts =>
    obtain ⟨r, t⟩ := p
    simp only [recursionGroups, Group.nodesEach, nodesThrough]
    exact (nodes_group t).append (nodesEach_recursionGroups ts)

end

section

variable {joined : Node → Node → Prop}

mutual

theorem Proper.group {t : OrderedTree} (h : t.Proper joined) : t.group.Proper joined := by
  cases t with
  | mk node children recursions =>
    obtain ⟨hhang, hjoined, heach⟩ := ProperBelow.groups h.1
    have hr := ProperThrough.recursionGroups h.2
    refine ⟨?_, hjoined, Group.properEach_append hr heach⟩
    simp only [Branch.hangings, hhang, List.map_append]

theorem ProperBelow.groups {parent : Node} {ts : List OrderedTree}
    (h : ProperBelow joined parent ts) :
    Branch.hangingsEach ((groups ts).map Group.trunk) =
        ((groups ts).flatMap Group.recursions).map (·.2.trunk.node) ∧
      Branch.JoinedEach joined parent ((groups ts).map Group.trunk) ∧
      Group.ProperEach joined ((groups ts).flatMap Group.recursions) := by
  cases ts with
  | nil => exact ⟨rfl, trivial, trivial⟩
  | cons t ts =>
    obtain ⟨hparent, ht, hts⟩ := h
    have hg := ht.group
    have hnode := t.group_trunk_node
    obtain ⟨hhang, hjoined, heach⟩ := ProperBelow.groups hts
    cases hgroup : t.group with
    | mk trunk recursions =>
      rw [hgroup] at hg hnode
      obtain ⟨hh, hj, he⟩ := hg
      simp only [groups, hgroup, List.map_cons, List.flatMap_cons, Branch.hangingsEach,
        Group.trunk, Group.recursions, List.map_append, hh, hhang, true_and]
      refine ⟨⟨?_, hj, hjoined⟩, Group.properEach_append he heach⟩
      rw [show trunk.node = t.node from hnode]
      exact hparent

theorem ProperThrough.recursionGroups {ts : List (Recurse × OrderedTree)}
    (h : ProperThrough joined ts) : Group.ProperEach joined (recursionGroups ts) := by
  cases ts with
  | nil => trivial
  | cons p ts =>
    obtain ⟨r, t⟩ := p
    obtain ⟨hrole, ht, hts⟩ := h
    refine ⟨?_, ht.group, ProperThrough.recursionGroups hts⟩
    rw [group_trunk_node]
    exact hrole

end

end

end OrderedTree

namespace QueryTree

section

variable {t : QueryTree}

theorem asChild_of_role {sub : OrderedTree} (hr : sub.node.isRecursive = false) :
    asChild sub = .ok sub := by
  simp [asChild, hr]

theorem asRecursion_of_role {sub : OrderedTree} (hr : sub.node.isRecursive = true) :
    ∃ p, asRecursion sub = .ok p := by
  unfold asRecursion
  unfold Node.isRecursive at hr
  cases hrole : sub.node.role with
  | root => simp [hrole] at hr
  | traverse traverse => simp [hrole] at hr
  | recurse recurse => exact ⟨_, rfl⟩

/-- What hangs on a node comes after it, so the number of nodes that come after a node bounds the depth
of the tree below it. -/
theorem WellFormed.exists_below (hw : t.WellFormed) {depth : Nat} {id : NodeId} {e : Entry}
    (he : t.entries[id]? = some e) (hd : t.size ≤ id + depth) :
    ∃ sub, t.below depth id = .ok sub ∧ sub.node = e.node := by
  induction depth generalizing id e with
  | zero =>
    have hlt : id < t.size := (List.getElem?_eq_some_iff.mp he).1
    exact absurd hlt (Nat.not_lt.mpr hd)
  | succ depth ih =>
    have hlisted : ∀ (recursive : Bool) (c : NodeId), c ∈ e.listed recursive →
        ∃ sub, t.below depth c = .ok sub ∧ sub.node.isRecursive = recursive := by
      intro recursive c hc
      obtain ⟨f, hf, -, hrec, -, hlt⟩ := hw.of_listed he hc
      have hle : t.size ≤ c + depth := by
        have hstep : id + (depth + 1) ≤ c + depth := by
          rw [Nat.add_comm depth 1, ← Nat.add_assoc]
          exact Nat.add_le_add_right hlt depth
        exact Nat.le_trans hd hstep
      obtain ⟨sub, hsub, hnode⟩ := ih hf hle
      exact ⟨sub, hsub, hnode ▸ hrec⟩
    obtain ⟨children, hchildren⟩ : ∃ children,
        (e.children.mapM fun child => t.below depth child >>= asChild) = .ok children := by
      refine exists_mapM_ok fun c hc => ?_
      obtain ⟨sub, hsub, hrec⟩ := hlisted false c hc
      exact ⟨sub, by rw [hsub]; exact asChild_of_role hrec⟩
    obtain ⟨recursions, hrecursions⟩ : ∃ recursions,
        (e.recursions.mapM fun recursion => t.below depth recursion >>= asRecursion) =
          .ok recursions := by
      refine exists_mapM_ok fun c hc => ?_
      obtain ⟨sub, hsub, hrec⟩ := hlisted true c hc
      obtain ⟨p, hp⟩ := asRecursion_of_role hrec
      exact ⟨p, by rw [hsub]; exact hp⟩
    refine ⟨.mk e.node children recursions, ?_, rfl⟩
    rw [below, entry_ok.mpr he]
    simp only [bind, Except.bind] at hchildren hrecursions ⊢
    rw [hchildren, hrecursions]
    rfl

theorem WellFormed.exists_ordered (hw : t.WellFormed) : ∃ ordered, t.ordered = .ok ordered := by
  obtain ⟨e, he, -⟩ := hw.root
  obtain ⟨ordered, ho, -⟩ := hw.exists_below he (show t.size ≤ rootId + t.size from Nat.le_add_left ..)
  exact ⟨ordered, ho⟩

theorem properBelow_of_forall {joined : Node → Node → Prop} {parent : Node} {ts : List OrderedTree}
    (h : ∀ c ∈ ts, joined parent c.node ∧ c.Proper joined) :
    OrderedTree.ProperBelow joined parent ts := by
  induction ts with
  | nil => trivial
  | cons c ts ih =>
    obtain ⟨hparent, hc⟩ := h c List.mem_cons_self
    exact ⟨hparent, hc, ih fun x hx => h x (List.mem_cons_of_mem c hx)⟩

theorem properThrough_of_forall {joined : Node → Node → Prop} {ts : List (Recurse × OrderedTree)}
    (h : ∀ p ∈ ts, p.2.node.isRecursive = true ∧ p.2.Proper joined) :
    OrderedTree.ProperThrough joined ts := by
  induction ts with
  | nil => trivial
  | cons p ts ih =>
    obtain ⟨hrole, hp⟩ := h p List.mem_cons_self
    exact ⟨hrole, hp, ih fun x hx => h x (List.mem_cons_of_mem p hx)⟩

/-- The second node is an ordinary child of the first. -/
def HasChild (t : QueryTree) (parent child : Node) : Prop :=
  ∃ e ∈ t.entries, ∃ id ∈ e.children, ∃ f, t.entries[id]? = some f ∧ e.node = parent ∧
    f.node = child ∧ child.isRecursive = false

theorem below_proper {depth : Nat} {id : NodeId} {sub : OrderedTree}
    (h : t.below depth id = .ok sub) : sub.Proper t.HasChild := by
  induction depth generalizing id sub with
  | zero => cases h
  | succ depth ih =>
    obtain ⟨n, e, children, recursions, hn, he, hc, hr, rfl⟩ := below_ok h
    obtain rfl := Nat.succ.inj hn
    refine ⟨properBelow_of_forall fun c hm => ?_, properThrough_of_forall fun p hm => ?_⟩
    · obtain ⟨child, hchild, hread⟩ := exists_of_mem_mapM hc hm
      obtain ⟨c', hbelow, hrole⟩ := bind_ok hread
      obtain ⟨rfl, hrole⟩ := asChild_ok hrole
      refine ⟨?_, ih hbelow⟩
      obtain ⟨_, f, _, _, _, hf, _, _, rfl⟩ := below_ok hbelow
      exact ⟨e, List.mem_of_getElem? he, child, hchild, f, hf, rfl, rfl, hrole⟩
    · obtain ⟨child, -, hread⟩ := exists_of_mem_mapM hr hm
      obtain ⟨c', hbelow, hrole⟩ := bind_ok hread
      obtain ⟨rfl, hrole⟩ := asRecursion_ok hrole
      exact ⟨by simp [Node.isRecursive, hrole], ih hbelow⟩

def node? (t : QueryTree) (id : NodeId) : Option Node := t.entries[id]?.map Entry.node

/-- A walk from the first ids goes over the second ids first. -/
def Visits (t : QueryTree) (starts ids : List NodeId) : Prop :=
  ∀ visits stack, t.walk (ids.length + visits) (starts ++ stack) = (t.walk visits stack).map (ids ++ ·)

theorem visits_nil : t.Visits [] [] := by
  intro visits stack
  simp only [List.length_nil, Nat.zero_add, List.nil_append]
  cases t.walk visits stack <;> rfl

theorem Visits.append {starts starts' ids ids' : List NodeId} (h : t.Visits starts ids)
    (h' : t.Visits starts' ids') : t.Visits (starts ++ starts') (ids ++ ids') := by
  intro visits stack
  rw [List.length_append, Nat.add_assoc, List.append_assoc, h, h']
  cases t.walk visits stack with
  | error e => rfl
  | ok rest => simp [Except.map]

theorem Visits.cons {id : NodeId} {e : Entry} {ids : List NodeId}
    (h : t.Visits (e.children ++ e.recursions) ids) (he : t.entries[id]? = some e) :
    t.Visits [id] (id :: ids) := by
  intro visits stack
  have hlen : (id :: ids).length + visits = ids.length + visits + 1 := by
    rw [List.length_cons]
    omega
  rw [hlen, List.singleton_append, walk, entry_ok.mpr he]
  simp only
  rw [h]
  cases t.walk visits stack <;> rfl

/-- From the root of a well-formed row, a walk goes over each id once. -/
theorem Visits.perm_range {ids : List NodeId} (h : t.Visits [rootId] ids) (hw : t.WellFormed) :
    ids.Perm (List.range t.size) := by
  have hend : t.walk (ids.length + t.size) [rootId] = .ok ids := by
    have hwalk := h t.size []
    rw [List.append_nil] at hwalk
    rw [hwalk]
    simp [walk, Except.map]
  obtain ⟨ids', hids', hperm⟩ := hw.walk_perm (Nat.le_add_left t.size ids.length)
  cases hend.symm.trans hids'
  exact hperm

/-- A walk from these ids goes over these nodes first. -/
def Covers (t : QueryTree) (starts : List NodeId) (nodes : List Node) : Prop :=
  ∃ ids, ids.map t.node? = nodes.map some ∧ t.Visits starts ids

theorem covers_nil : t.Covers [] [] := ⟨[], rfl, visits_nil⟩

theorem Covers.append {starts starts' : List NodeId} {nodes nodes' : List Node}
    (h : t.Covers starts nodes) (h' : t.Covers starts' nodes') :
    t.Covers (starts ++ starts') (nodes ++ nodes') := by
  obtain ⟨ids, hids, hvisits⟩ := h
  obtain ⟨ids', hids', hvisits'⟩ := h'
  exact ⟨ids ++ ids', by simp [hids, hids'], hvisits.append hvisits'⟩

theorem Covers.cons {id : NodeId} {e : Entry} (he : t.entries[id]? = some e) {nodes : List Node}
    (h : t.Covers (e.children ++ e.recursions) nodes) : t.Covers [id] (e.node :: nodes) := by
  obtain ⟨ids, hids, hvisits⟩ := h
  exact ⟨id :: ids, by simp [hids, node?, he], hvisits.cons he⟩

/-- The trees below a list of ids are gone over one after the other, whatever is kept along with each. -/
theorem covers_mapM {α : Type} {keep : OrderedTree → Except Error α} {tree : α → OrderedTree}
    (hkeep : ∀ sub a, keep sub = .ok a → tree a = sub) {depth : Nat}
    (hbelow : ∀ id sub, t.below depth id = .ok sub → t.Covers [id] sub.nodes) {ids : List NodeId}
    {kept : List α} (h : (ids.mapM fun id => t.below depth id >>= keep) = .ok kept) :
    t.Covers ids (kept.flatMap fun a => (tree a).nodes) := by
  have hall := mapM_ok h
  clear h
  induction hall with
  | nil => exact covers_nil
  | cons hread _ ih =>
    obtain ⟨sub, hsub, hk⟩ := bind_ok hread
    rw [List.flatMap_cons, hkeep sub _ hk]
    exact (hbelow _ sub hsub).append ih

theorem covers_below {depth : Nat} {id : NodeId} {sub : OrderedTree}
    (h : t.below depth id = .ok sub) : t.Covers [id] sub.nodes := by
  induction depth generalizing id sub with
  | zero => cases h
  | succ depth ih =>
    obtain ⟨n, e, children, recursions, hn, he, hc, hr, rfl⟩ := below_ok h
    obtain rfl := Nat.succ.inj hn
    have hchildren := covers_mapM (fun _ _ hk => (asChild_ok hk).1) (fun _ _ => ih) hc
    have hrecursions := covers_mapM (fun _ _ hk => (asRecursion_ok hk).1) (fun _ _ => ih) hr
    rw [OrderedTree.nodes, OrderedTree.nodesBelow_eq, OrderedTree.nodesThrough_eq]
    exact Covers.cons he (hchildren.append hrecursions)

theorem map_node?_range (t : QueryTree) :
    (List.range t.size).map t.node? = (t.entries.map Entry.node).map some := by
  apply List.ext_getElem
  · simp [size]
  · intro i hi hi'
    have hlt : i < t.entries.length := by simpa using hi'
    simp [node?, hlt]

/-- The ordered form of a well-formed row has each node of the row once. -/
theorem WellFormed.nodes_perm (hw : t.WellFormed) {ordered : OrderedTree}
    (ho : t.ordered = .ok ordered) : ordered.nodes.Perm (t.entries.map Entry.node) := by
  obtain ⟨ids, hids, hvisits⟩ := covers_below ho
  have hperm := hvisits.perm_range hw
  have hmap := hperm.map t.node?
  rw [hids, map_node?_range] at hmap
  exact (List.map_perm_map_iff fun _ _ h => Option.some.inj h).mp hmap

end

end QueryTree

end GraphPlan
