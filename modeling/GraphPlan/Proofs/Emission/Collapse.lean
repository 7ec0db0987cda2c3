import GraphPlan.Proofs.Emission.Derivation

namespace GraphPlan.Sql

/-- A node and its table under the name that it has been given. -/
structure NamedNode where
  node : Node
  table : BoundTable

namespace BoundBranch

def head (b : BoundBranch) : NamedNode := ⟨b.node, b.table⟩

mutual

/-- The nodes of a group, each before its children. -/
def nodes : BoundBranch → List NamedNode
  | mk node table _ children => ⟨node, table⟩ :: nodesEach children

def nodesEach : List BoundBranch → List NamedNode
  | [] => []
  | b :: bs => nodes b ++ nodesEach bs

end

mutual

/-- The recursions that hang on the nodes of a group, with the labels of their links. -/
def hangings : BoundBranch → List (Node × String)
  | mk _ _ hanging children => hanging ++ hangingsEach children

def hangingsEach : List BoundBranch → List (Node × String)
  | [] => []
  | b :: bs => hangings b ++ hangingsEach bs

end

mutual

/-- The ordinary children of a group, each after its parent. -/
def joints : BoundBranch → List (NamedNode × NamedNode)
  | mk node table _ children => children.map (fun c => (⟨node, table⟩, c.head)) ++ jointsEach children

def jointsEach : List BoundBranch → List (NamedNode × NamedNode)
  | [] => []
  | b :: bs => joints b ++ jointsEach bs

end

theorem nodesEach_eq (bs : List BoundBranch) : nodesEach bs = bs.flatMap nodes := by
  induction bs with
  | nil => rfl
  | cons b bs ih => rw [nodesEach, ih, List.flatMap_cons]

theorem nodes_eq (b : BoundBranch) : b.nodes = b.head :: b.nodes.tail := by
  cases b
  rfl

/-- Nodes and what is below them, taken apart. -/
theorem heads_append_perm (bs : List BoundBranch) :
    (bs.map head ++ bs.flatMap (·.nodes.tail)).Perm (bs.flatMap nodes) := by
  induction bs with
  | nil => exact .refl _
  | cons b bs ih =>
    rw [List.map_cons, List.flatMap_cons, List.flatMap_cons, b.nodes_eq, List.cons_append,
      List.cons_append, List.tail_cons]
    refine List.Perm.cons _ ?_
    calc bs.map head ++ (b.nodes.tail ++ bs.flatMap (·.nodes.tail))
        _ = bs.map head ++ b.nodes.tail ++ bs.flatMap (·.nodes.tail) := by rw [List.append_assoc]
        List.Perm _ (b.nodes.tail ++ bs.map head ++ bs.flatMap (·.nodes.tail)) :=
          List.perm_append_comm.append_right _
        List.Perm _ (b.nodes.tail ++ bs.flatMap nodes) := by
          rw [List.append_assoc]
          exact ih.append_left _

mutual

/-- Every node of a group but its head is joined to its parent once. -/
theorem joints_perm (b : BoundBranch) : (b.joints.map Prod.snd).Perm b.nodes.tail := by
  cases b with
  | mk node table hanging children =>
    rw [joints, nodes, List.tail_cons, nodesEach_eq, List.map_append, List.map_map]
    exact ((jointsEach_perm children).append_left _).trans (heads_append_perm children)

theorem jointsEach_perm (bs : List BoundBranch) :
    ((jointsEach bs).map Prod.snd).Perm (bs.flatMap (·.nodes.tail)) := by
  cases bs with
  | nil => exact .refl _
  | cons b bs =>
    rw [jointsEach, List.map_append, List.flatMap_cons]
    exact (joints_perm b).append (jointsEach_perm bs)

end

/-- The names that the nodes of a group put their fields out under. -/
def selected (b : BoundBranch) : List String :=
  b.nodes.flatMap fun x => x.node.selections.map Selection.label

theorem hangingsEach_eq (bs : List BoundBranch) : hangingsEach bs = bs.flatMap hangings := by
  induction bs with
  | nil => rfl
  | cons b bs ih => rw [hangingsEach, ih, List.flatMap_cons]

theorem jointsEach_eq (bs : List BoundBranch) : jointsEach bs = bs.flatMap joints := by
  induction bs with
  | nil => rfl
  | cons b bs ih => rw [jointsEach, ih, List.flatMap_cons]

theorem selected_mk (node : Node) (table : BoundTable) (hanging : List (Node × String))
    (children : List BoundBranch) : (mk node table hanging children).selected =
      node.selections.map Selection.label ++ children.flatMap selected := by
  simp only [selected, nodes, nodesEach_eq, List.flatMap_cons, List.flatMap_assoc]
  rfl

end BoundBranch

def clauses (catalog : Catalog) (parent child : NamedNode) : List JoinClause :=
  catalog.joins parent.node child.node parent.table child.table

/-- How often the way from a parent to a child comes to the table of the child. -/
def arrivals (catalog : Catalog) (parent child : NamedNode) : Nat :=
  (clauses catalog parent child).countP (·.table = child.table)

/-- Why a child is not joined to its parent. -/
inductive Unjoined (catalog : Catalog) (parent child : NamedNode) : EmitFault → Prop
  | noClauses (h : clauses catalog parent child = []) :
    Unjoined catalog parent child (.noClauses parent.node.location child.node.location)
  | reachedTwice (h : 1 < arrivals catalog parent child) :
    Unjoined catalog parent child (.reachedTwice child.node.location)
  | neverReached (hc : clauses catalog parent child ≠ []) (h : arrivals catalog parent child = 0) :
    Unjoined catalog parent child (.neverReached parent.node.location child.node.location)

theorem Unjoined.arrivals_ne {catalog : Catalog} {parent child : NamedNode} {fault : EmitFault}
    (h : Unjoined catalog parent child fault) : arrivals catalog parent child ≠ 1 := by
  cases h with
  | noClauses h => simp [arrivals, h]
  | reachedTwice h => omega
  | neverReached _ h => omega

/-- The clauses must come to the table of the child once while its source is pending, and never after. -/
theorem joinClauses_ends (kind : JoinKind) (parent child : Node) (below : Relation)
    (clauses : List JoinClause) (pending : Option Source) (left : Source) :
    Ends (joinClauses kind parent child below clauses pending left)
      (fun _ => clauses.countP (·.table = below.table) = pending.toList.length)
      fun e => pending.toList.length < clauses.countP (·.table = below.table) ∧
          e = (EmitFault.reachedTwice child.location).error ∨
        pending.toList.length = 1 ∧ clauses.countP (·.table = below.table) = 0 ∧
          e = (EmitFault.neverReached parent.location child.location).error := by
  induction clauses generalizing pending left with
  | nil =>
    cases pending with
    | none => exact ends_ok rfl
    | some source => exact ends_error (.inr ⟨rfl, rfl, rfl⟩)
  | cons clause clauses ih =>
    unfold joinClauses
    split
    · next he =>
      rw [List.countP_cons_of_pos (by simpa using he)]
      cases pending with
      | none => exact ends_error (.inl ⟨Nat.succ_pos _, rfl⟩)
      | some source =>
        refine (ih none _).mono (fun _ hc => ?_) fun e hb => ?_
        · rw [hc]
          rfl
        · rcases hb with ⟨hlt, rfl⟩ | ⟨hnone, _⟩
          · exact .inl ⟨Nat.succ_lt_succ hlt, rfl⟩
          · cases hnone
    · next he =>
      rw [List.countP_cons_of_neg (by simpa using he)]
      exact ih pending _

theorem absorb_ends (setup : Setup) (parent : Node) (r : Relation) (child : Node) (below : Relation) :
    Ends (absorb setup parent r child below)
      (fun joined => arrivals setup.catalog ⟨parent, r.table⟩ ⟨child, below.table⟩ = 1 ∧
        joined.table = r.table ∧ joined.outputs = r.outputs ++ below.outputs ∧
        joined.links = r.links ++ below.links)
      fun e => ∃ fault, Unjoined setup.catalog ⟨parent, r.table⟩ ⟨child, below.table⟩ fault ∧
        e = fault.error := by
  unfold absorb
  split
  · next hnone => exact ends_error ⟨_, .noClauses hnone, rfl⟩
  · next hsome =>
    refine Ends.bind ((joinClauses_ends _ parent child below _ _ r.source).mono (fun _ hc => hc)
      fun e hb => ?_) fun source hc => ends_ok ⟨hc, rfl, rfl, rfl⟩
    rcases hb with ⟨hlt, rfl⟩ | ⟨_, hzero, rfl⟩
    · exact ⟨_, .reachedTwice hlt, rfl⟩
    · exact ⟨_, .neverReached hsome hzero, rfl⟩

theorem absorbAll_ends (setup : Setup) (parent : Node) (r : Relation)
    (below : List (Node × Relation)) :
    Ends (absorbAll setup parent r below)
      (fun joined =>
        (∀ p ∈ below, arrivals setup.catalog ⟨parent, r.table⟩ ⟨p.1, p.2.table⟩ = 1) ∧
        joined.table = r.table ∧ joined.outputs = r.outputs ++ below.flatMap (·.2.outputs) ∧
        joined.links = r.links ++ below.flatMap (·.2.links))
      fun e => ∃ p ∈ below, ∃ fault,
        Unjoined setup.catalog ⟨parent, r.table⟩ ⟨p.1, p.2.table⟩ fault ∧ e = fault.error := by
  induction below generalizing r with
  | nil => exact ends_ok ⟨by simp, rfl, by simp, by simp⟩
  | cons p below ih =>
    refine Ends.bind ((absorb_ends setup parent r p.1 p.2).mono (fun _ h => h) fun e he =>
      ⟨p, List.mem_cons_self, he⟩) fun next hnext => ?_
    obtain ⟨hone, ht, ho, hl⟩ := hnext
    refine (ih next).mono (fun joined hjoined => ?_) fun e he => ?_
    · obtain ⟨hall, ht', ho', hl'⟩ := hjoined
      rw [ht] at hall
      refine ⟨?_, ht'.trans ht, by rw [ho', ho]; simp, by rw [hl', hl]; simp⟩
      intro q hq
      rcases List.mem_cons.mp hq with rfl | hq
      · exact hone
      · exact hall q hq
    · obtain ⟨q, hq, he⟩ := he
      rw [ht] at he
      exact ⟨q, List.mem_cons_of_mem p hq, he⟩

/-- What a group needs to collapse. -/
structure BoundBranch.Collapses (catalog : Catalog) (b : BoundBranch) : Prop where
  edges : ∀ h ∈ b.hangings, ∃ edge, Edge.checked h.1 (catalog.edge h.1) = .ok edge
  conditions : ∀ x ∈ b.nodes, ∀ predicate ∈ x.node.predicates,
    ∃ term, catalog.condition x.node predicate x.table = .ok term
  joins : ∀ j ∈ b.joints, arrivals catalog j.1 j.2 = 1

/-- Why a group does not collapse. -/
inductive BoundBranch.Stuck (catalog : Catalog) (b : BoundBranch) : Error → Prop
  | edge {h : Node × String} {e : Error} (hm : h ∈ b.hangings)
    (he : Edge.checked h.1 (catalog.edge h.1) = .error e) : Stuck catalog b e
  | condition {x : NamedNode} {predicate : Expr} {e : Error} (hm : x ∈ b.nodes)
    (hp : predicate ∈ x.node.predicates)
    (he : catalog.condition x.node predicate x.table = .error e) : Stuck catalog b e
  | join {j : NamedNode × NamedNode} {fault : EmitFault} (hm : j ∈ b.joints)
    (hf : Unjoined catalog j.1 j.2 fault) : Stuck catalog b fault.error

/-- The relation that a group collapses to has its outputs and its links. -/
structure Relation.CollapsedFrom (r : Relation) (catalog : Catalog) (b : BoundBranch) : Prop where
  collapses : b.Collapses catalog
  table : r.table = b.table
  outputs : r.outputs.map Column.name = b.selected
  links : r.links.map Column.name = b.hangings.map Prod.snd

theorem ofNode_ends (setup : Setup) (node : Node) (table : BoundTable) :
    Ends (Relation.ofNode setup node table)
      (fun own => (∀ predicate ∈ node.predicates,
          ∃ term, setup.catalog.condition node predicate table = .ok term) ∧
        own.table = table ∧ own.outputs.map Column.name = node.selections.map Selection.label ∧
        own.links = [])
      fun e => ∃ predicate ∈ node.predicates,
        setup.catalog.condition node predicate table = .error e := by
  refine ⟨fun own h => ?_, fun e h => ?_⟩
  · obtain ⟨conditions, hc, h⟩ := bind_ok h
    cases h
    refine ⟨fun predicate hp => ?_, rfl, by simp, rfl⟩
    obtain ⟨term, -, ht⟩ := exists_mapM_of_mem hc hp
    exact ⟨term, ht⟩
  · rcases bind_error h with h | ⟨_, _, h⟩
    · exact mapM_error h
    · cases h

theorem linkTo_ends (setup : Setup) (r : Relation) (hanging : List (Node × String)) :
    Ends (r.linkTo setup hanging)
      (fun linked =>
        (∀ h ∈ hanging, ∃ edge, Edge.checked h.1 (setup.catalog.edge h.1) = .ok edge) ∧
        linked.table = r.table ∧ linked.outputs = r.outputs ∧
        linked.links.map Column.name = r.links.map Column.name ++ hanging.map Prod.snd)
      fun e => ∃ h ∈ hanging, Edge.checked h.1 (setup.catalog.edge h.1) = .error e := by
  induction hanging generalizing r with
  | nil => exact ends_ok ⟨by simp, rfl, rfl, by simp⟩
  | cons p hanging ih =>
    obtain ⟨recursion, label⟩ := p
    rw [Relation.linkTo]
    cases hedge : Edge.checked recursion (setup.catalog.edge recursion) with
    | error e => exact ends_error ⟨_, List.mem_cons_self, hedge⟩
    | ok edge =>
      refine (ih _).mono (fun linked hl => ?_) fun e he => ?_
      · obtain ⟨hall, ht, ho, hlinks⟩ := hl
        refine ⟨fun h hm => ?_, ht, ho, by simpa using hlinks⟩
        rcases List.mem_cons.mp hm with rfl | hm
        · exact ⟨edge, hedge⟩
        · exact hall h hm
      · obtain ⟨h, hm, he⟩ := he
        exact ⟨h, List.mem_cons_of_mem _ hm, he⟩

section

variable {catalog : Catalog} {node : Node} {table : BoundTable} {hanging : List (Node × String)}
  {children : List BoundBranch}

open BoundBranch

theorem mem_nodes_mk {x : NamedNode} : x ∈ (BoundBranch.mk node table hanging children).nodes ↔
    x = ⟨node, table⟩ ∨ ∃ b ∈ children, x ∈ b.nodes := by
  rw [nodes, nodesEach_eq, List.mem_cons, List.mem_flatMap]

theorem mem_hangings_mk {h : Node × String} :
    h ∈ (BoundBranch.mk node table hanging children).hangings ↔
      h ∈ hanging ∨ ∃ b ∈ children, h ∈ b.hangings := by
  rw [hangings, hangingsEach_eq, List.mem_append, List.mem_flatMap]

theorem mem_joints_mk {j : NamedNode × NamedNode} :
    j ∈ (BoundBranch.mk node table hanging children).joints ↔
      (∃ b ∈ children, j = (⟨node, table⟩, b.head)) ∨ ∃ b ∈ children, j ∈ b.joints := by
  simp only [joints, jointsEach_eq, List.mem_append, List.mem_flatMap, List.mem_map, eq_comm]

/-- What stops a child from collapsing stops its parent. -/
theorem BoundBranch.Stuck.of_child {b : BoundBranch} (hb : b ∈ children) {e : Error}
    (h : b.Stuck catalog e) : (BoundBranch.mk node table hanging children).Stuck catalog e := by
  cases h with
  | edge hm he => exact .edge (mem_hangings_mk.mpr (.inr ⟨b, hb, hm⟩)) he
  | condition hm hp he => exact .condition (mem_nodes_mk.mpr (.inr ⟨b, hb, hm⟩)) hp he
  | join hm hf => exact .join (mem_joints_mk.mpr (.inr ⟨b, hb, hm⟩)) hf

/-- A group collapses when its topmost node does its part and each child collapses. -/
theorem collapses_mk (hc : ∀ b ∈ children, b.Collapses catalog)
    (he : ∀ h ∈ hanging, ∃ edge, Edge.checked h.1 (catalog.edge h.1) = .ok edge)
    (hp : ∀ predicate ∈ node.predicates,
      ∃ term, catalog.condition node predicate table = .ok term)
    (hj : ∀ b ∈ children, arrivals catalog ⟨node, table⟩ b.head = 1) :
    (BoundBranch.mk node table hanging children).Collapses catalog where
  edges := by
    intro h hm
    rcases mem_hangings_mk.mp hm with hm | ⟨b, hb, hm⟩
    · exact he h hm
    · exact (hc b hb).edges h hm
  conditions := by
    intro x hm
    rcases mem_nodes_mk.mp hm with rfl | ⟨b, hb, hm⟩
    · exact hp
    · exact (hc b hb).conditions x hm
  joins := by
    intro j hm
    rcases mem_joints_mk.mp hm with ⟨b, hb, rfl⟩ | ⟨b, hb, hm⟩
    · exact hj b hb
    · exact (hc b hb).joins j hm

end

/-- Relations serve the branches that stand at the same places. -/
theorem collapsedFrom_flatMap {catalog : Catalog} {bs : List BoundBranch} {rs : List (Node × Relation)}
    (h : List.Forall₂ (fun b p => p.1 = b.node ∧ p.2.CollapsedFrom catalog b) bs rs) :
    (rs.flatMap (·.2.outputs)).map Column.name = bs.flatMap BoundBranch.selected ∧
    (rs.flatMap (·.2.links)).map Column.name =
      (bs.flatMap BoundBranch.hangings).map Prod.snd := by
  induction h with
  | nil => exact ⟨rfl, rfl⟩
  | cons hs _ ih => simp [hs.2.outputs, hs.2.links, ih.1, ih.2]

mutual

theorem relation_ends (setup : Setup) (b : BoundBranch) :
    Ends (b.relation setup) (·.CollapsedFrom setup.catalog b) (b.Stuck setup.catalog) := by
  cases b with
  | mk node table hanging children =>
    rw [BoundBranch.relation]
    refine Ends.bind ((relations_ends setup children).mono (fun _ h => h) fun e he => ?_)
      fun below hbelow => ?_
    · obtain ⟨b, hb, hs⟩ := he
      exact hs.of_child hb
    refine Ends.bind ((ofNode_ends setup node table).mono (fun _ h => h) fun e he => ?_)
      fun own hown => ?_
    · obtain ⟨predicate, hp, he⟩ := he
      exact .condition (mem_nodes_mk.mpr (.inl rfl)) hp he
    obtain ⟨hconditions, htable, houtputs, hnone⟩ := hown
    refine Ends.bind ((linkTo_ends setup own hanging).mono (fun _ h => h) fun e he => ?_)
      fun linked hlinked => ?_
    · obtain ⟨h, hm, he⟩ := he
      exact .edge (mem_hangings_mk.mpr (.inl hm)) he
    obtain ⟨hedges, htable', houtputs', hlinks⟩ := hlinked
    rw [htable] at htable'
    obtain ⟨hallOutputs, hallLinks⟩ := collapsedFrom_flatMap hbelow
    refine (absorbAll_ends setup node linked below).mono (fun joined hjoined => ?_) fun e he => ?_
    · obtain ⟨hone, ht, ho, hl⟩ := hjoined
      rw [htable'] at hone
      refine ⟨collapses_mk (fun b hb => ?_) hedges hconditions fun b hb => ?_, ht.trans htable', ?_, ?_⟩
      · obtain ⟨p, -, -, hs⟩ := forall₂_mem_left hbelow hb
        exact hs.collapses
      · obtain ⟨p, hp, hnode, hs⟩ := forall₂_mem_left hbelow hb
        have harrive := hone p hp
        rwa [hnode, hs.table] at harrive
      · rw [ho, List.map_append, hallOutputs, houtputs', houtputs, BoundBranch.selected_mk]
      · rw [hl, List.map_append, hallLinks, hlinks, hnone, BoundBranch.hangings,
          BoundBranch.hangingsEach_eq]
        simp
    · obtain ⟨p, hp, fault, hf, rfl⟩ := he
      obtain ⟨b, hb, hnode, hs⟩ := forall₂_mem_left hbelow.flip hp
      rw [htable', hnode, hs.table] at hf
      exact .join (mem_joints_mk.mpr (.inl ⟨b, hb, rfl⟩)) hf

theorem relations_ends (setup : Setup) (bs : List BoundBranch) :
    Ends (BoundBranch.relations setup bs)
      (List.Forall₂ (fun b p => p.1 = b.node ∧ p.2.CollapsedFrom setup.catalog b) bs)
      fun e => ∃ b ∈ bs, b.Stuck setup.catalog e := by
  cases bs with
  | nil => exact ends_ok .nil
  | cons b bs =>
    rw [BoundBranch.relations]
    refine Ends.bind ((relation_ends setup b).mono (fun _ h => h) fun e he =>
      ⟨b, List.mem_cons_self, he⟩) fun r hr => ?_
    refine Ends.bind ((relations_ends setup bs).mono (fun _ h => h) fun e he => ?_) fun rs hrs =>
      ends_ok (.cons ⟨rfl, hr⟩ hrs)
    obtain ⟨b', hb, hs⟩ := he
    exact ⟨b', List.mem_cons_of_mem b hb, hs⟩

end

end GraphPlan.Sql
