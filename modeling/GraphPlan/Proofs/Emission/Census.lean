import GraphPlan.Proofs.Emission.History
import GraphPlan.Proofs.Recursion.Reach
import Mathlib.Algebra.GroupWithZero.Nat

namespace GraphPlan

namespace Sql

/-- The recursions that were made are counted on the tree. -/
theorem Emission.countP_made {t : QueryTree} {setup : Setup} {statement : Statement} {root : Host}
    {ms : List Made} (h : Emission t setup statement root ms) (hb : t.Built) (p : Node → Bool) :
    ms.countP (fun m => p m.tree.node) = t.entries.countP fun e => p e.node && e.node.isRecursive := by
  have hcount := (h.nodes_perm hb).countP_eq p
  rw [List.countP_map, List.countP_filter, List.countP_map] at hcount
  exact hcount

theorem columns_of_check {s : Settings} (h : s.check = .ok ()) : s.depthColumn ≠ s.pathColumn := by
  unfold Settings.check at h
  split at h
  · cases h
  · split at h
    · cases h
    · split at h
      · cases h
      · next hne => exact hne

theorem Edge.columns_of_fault {edge : Edge} (h : edge.fault? = none) :
    edge.sourceColumn ≠ edge.sinkColumn := by
  unfold Edge.fault? at h
  cases edge with
  | direct source sink =>
    simp only at h
    split at h
    · cases h
    · split at h
      · cases h
      · next hne => exact hne
  | junction first second =>
    simp only at h
    split at h
    · cases h
    · split at h
      · cases h
      · split at h
        · cases h
        · next hne => exact fun heq => hne heq.symm

/-- The columns of a recursion that follow its edge: where a hop leads to, and where the recursion started. -/
def Edge.followed (edge : Edge) : Direction → String × String
  | .outward => (edge.sourceColumn, edge.sinkColumn)
  | .inward => (edge.sinkColumn, edge.sourceColumn)

theorem Edge.followed_ne {edge : Edge} (h : edge.fault? = none) (direction : Direction) :
    (edge.followed direction).1 ≠ (edge.followed direction).2 := by
  have hne := Edge.columns_of_fault h
  cases direction with
  | outward => exact hne
  | inward => exact fun heq => hne heq.symm

theorem track_followed (catalog : Catalog) (relation : String) (direction : Direction) (edge : Edge) :
    ((Track.ofEdge catalog relation direction edge).source,
      (Track.ofEdge catalog relation direction edge).sink) = edge.followed direction := by
  cases edge <;> cases direction <;> rfl

/-- The names that the recursive table of an edge has its columns under. -/
def Edge.columnNames (settings : Settings) (direction : Direction) (edge : Edge) : List String :=
  [(edge.followed direction).1, (edge.followed direction).2, settings.depthColumn, settings.pathColumn]

theorem Made.names_recursion (setup : Setup) (m : Made) :
    (m.recursion setup).anchor.names =
        (m.edge.columnNames setup.settings m.tie.hook.recurse.direction).map some ∧
      (m.recursion setup).step.names = (m.recursion setup).anchor.names := by
  have htrack := track_followed setup.catalog m.tree.node.relation m.tie.hook.recurse.direction m.edge
  rw [Edge.columnNames, ← htrack]
  exact ⟨rfl, rfl⟩

/-- Two pairs of different names are four different names where none is in both. -/
theorem nodup_four_iff {a b c d : String} (hab : a ≠ b) (hcd : c ≠ d) :
    [a, b, c, d].Nodup ↔ (a ≠ c ∧ a ≠ d) ∧ b ≠ c ∧ b ≠ d := by
  simp only [List.nodup_cons, List.mem_cons, List.not_mem_nil, or_false, not_or, not_false_eq_true,
    List.nodup_nil, and_true, hab, hcd, ne_eq, true_and]

theorem Emission.mem_ctes {t : QueryTree} {setup : Setup} {statement : Statement} {root : Host}
    {ms : List Made} (h : Emission t setup statement root ms) {c : Cte} (hc : c ∈ statement.ctes) :
    c = root.cte ∨ ∃ m ∈ ms, c = (m.recursion setup).cte ∨ c = m.cte := by
  rw [h.ctes] at hc
  rcases List.mem_cons.mp hc with rfl | hc
  · exact .inl rfl
  · obtain ⟨m, hm, hc⟩ := List.mem_flatMap.mp hc
    refine .inr ⟨m, hm, ?_⟩
    simpa [Made.ctes] using hc

/-- There are never more tables than aliases. -/
theorem Run.tables_le {t : QueryTree} {setup : Setup} {s last : Supply} {ms : List Made}
    (h : Run t setup s ms last) (hs : s.tables ≤ s.aliases) :
    ∀ m ∈ ms, m.start.tables ≤ m.start.aliases := by
  induction h with
  | done => simp
  | @step m ms last hm _ ih =>
    have hafter : (m.after setup).tables ≤ (m.after setup).aliases := by
      simp only [Made.after, Supply.add, Supply.advance]
      omega
    intro n hn
    rcases List.mem_cons.mp hn with rfl | hn
    · exact hs
    · exact ih hafter n hn

theorem Made.Sound.madeFor {t : QueryTree} {setup : Setup} {m : Made} (hm : m.Sound setup t)
    (hs : m.start.tables ≤ m.start.aliases) :
    (m.recursion setup).MadeFor setup m.tie.hook.recurse m.tree.node m.edge := by
  have hmade := m.start.recursion_madeFor hs m.tie.hook.recurse ⟨.named m.tie.host, m.tie.column.name⟩
    m.trunk m.edge hm.collapsed
  have hnode : m.trunk.node = m.tree.node := by
    rw [Host.trunk, OrderedTree.group_trunk_node, Numbered.erase_node]
  rwa [hnode] at hmade

theorem Emission.madeFor {t : QueryTree} {setup : Setup} {statement : Statement} {root : Host}
    {ms : List Made} (h : Emission t setup statement root ms) {m : Made} (hm : m ∈ ms) :
    (m.recursion setup).MadeFor setup m.tie.hook.recurse m.tree.node m.edge := by
  obtain ⟨last, hrun⟩ := h.run
  have hsize : root.settled.tables ≤ root.settled.aliases := by
    have hpos : 1 ≤ root.trunk.size := by
      cases root.trunk
      exact Nat.le_add_left 1 _
    simpa [Host.settled, Supply.add, Supply.advance, h.start, Supply.init] using hpos
  exact (hrun.sound m hm).madeFor (hrun.tables_le hsize m hm)

/-- The anchor and the step of a recursive table have the same four columns in the same order. The two that
follow the edge have different names, and so have the two that are set for depths and paths. Between these
pairs nothing is checked, so the four names are different just where none is in both pairs. -/
theorem emit_recursion_columns {settings : Settings} {catalog : Catalog} {tree : QueryTree}
    {statement : Statement} (hb : tree.Built) (h : emit settings catalog tree = .ok statement) {c : Cte}
    (hc : c ∈ statement.ctes) {anchor step : Select} {combinator : Combinator}
    (hbody : c.body = .compound anchor combinator step) :
    ∃ entry ∈ tree.entries, ∃ recurse edge, entry.node.role = .recurse recurse ∧
      catalog.edge entry.node = some edge ∧
      anchor.names = (edge.columnNames settings recurse.direction).map some ∧
      step.names = anchor.names ∧
      (edge.followed recurse.direction).1 ≠ (edge.followed recurse.direction).2 ∧
      settings.depthColumn ≠ settings.pathColumn ∧
      (anchor.names.Nodup ↔ ((edge.followed recurse.direction).1 ≠ settings.depthColumn ∧
          (edge.followed recurse.direction).1 ≠ settings.pathColumn) ∧
        (edge.followed recurse.direction).2 ≠ settings.depthColumn ∧
          (edge.followed recurse.direction).2 ≠ settings.pathColumn) := by
  obtain ⟨hcheck, _, root, ms, -, -, hemission⟩ := exists_emission hb h
  obtain ⟨_, hrun⟩ := hemission.run
  rcases hemission.mem_ctes hc with rfl | ⟨m, hm, rfl | rfl⟩
  · cases hbody
  · cases hbody
    have hsound := hrun.sound m hm
    obtain ⟨e, he, hnode⟩ := hsound.placed.lookup
    obtain ⟨hedge, hfault⟩ := checked_ok hsound.edge
    obtain ⟨hanchor, hstep⟩ := m.names_recursion ⟨catalog, settings, _⟩
    have hfollowed := Edge.followed_ne hfault m.tie.hook.recurse.direction
    have hset := columns_of_check hcheck
    refine ⟨e, List.mem_of_getElem? he, m.tie.hook.recurse, m.edge, hnode ▸ hsound.role, hnode ▸ hedge,
      hanchor, hstep, hfollowed, hset, ?_⟩
    have hinj : Function.Injective (some : String → Option String) := fun _ _ h => Option.some.inj h
    rw [hanchor, List.nodup_map_iff hinj, Edge.columnNames, nodup_four_iff hfollowed hset]
  · cases hbody

/-- The names of the anchors of recursive tables. -/
def Statement.recursionNames (s : Statement) : List (List (Option String)) :=
  s.ctes.filterMap fun c => match c.body with
    | .plain _ => none
    | .compound anchor _ _ => some anchor.names

theorem exists_recursion_of_names {s : Statement} {names : List (Option String)}
    (h : names ∈ s.recursionNames) :
    ∃ c ∈ s.ctes, ∃ anchor combinator step, c.body = .compound anchor combinator step ∧
      anchor.names = names := by
  obtain ⟨c, hc, hnames⟩ := List.mem_filterMap.mp h
  cases hbody : c.body with
  | plain => simp [hbody] at hnames
  | compound anchor combinator step =>
    simp only [hbody, Option.some.injEq] at hnames
    exact ⟨c, hc, anchor, combinator, step, hbody, hnames⟩

theorem emit_recursion_columns_herd : ∃ statement c anchor combinator step,
    emit .standard herdCatalog herdTree = .ok statement ∧ c ∈ statement.ctes ∧
    c.body = .compound anchor combinator step ∧ step.names = anchor.names ∧ anchor.names.Nodup := by
  have hnames : (emit .standard herdCatalog herdTree).toOption.map Statement.recursionNames =
      some [["parent_id", "id", "__depth_internal_name", "__path_internal_name"].map some] := by
    decide +kernel
  obtain ⟨statement, hemit, hnames⟩ := exists_statement hnames
  obtain ⟨c, hc, anchor, combinator, step, hbody, -⟩ := exists_recursion_of_names
    (hnames ▸ List.mem_singleton_self _)
  obtain ⟨_, _, recurse, edge, _, hedge, _, hstep, _, _, hnodup⟩ :=
    emit_recursion_columns herdTree_built hemit hc hbody
  refine ⟨statement, c, anchor, combinator, step, hemit, hc, hbody, hstep, hnodup.mpr ?_⟩
  cases hedge
  cases recurse.direction <;> decide

/-- Settings that pass their check, with a column of an edge for the depths. -/
def overlaid : Settings := { Settings.standard with depthColumn := "parent_id" }

theorem emit_recursion_repeats_column : ∃ statement c anchor combinator step,
    overlaid.check = .ok () ∧ emit overlaid herdCatalog herdTree = .ok statement ∧
    c ∈ statement.ctes ∧ c.body = .compound anchor combinator step ∧ ¬anchor.names.Nodup := by
  have hnames : (emit overlaid herdCatalog herdTree).toOption.map Statement.recursionNames =
      some [["parent_id", "id", "parent_id", "__path_internal_name"].map some] := by
    decide +kernel
  obtain ⟨statement, hemit, hnames⟩ := exists_statement hnames
  obtain ⟨c, hc, anchor, combinator, step, hbody, hanchor⟩ := exists_recursion_of_names
    (hnames ▸ List.mem_singleton_self _)
  have hcheck : overlaid.check = .ok () := (emitTree_of_emit hemit).1
  refine ⟨statement, c, anchor, combinator, step, hcheck, hemit, hc, hbody, ?_⟩
  rw [hanchor]
  decide

end Sql

/-- What a table is made for: the group that a node heads, or the recursion to it. -/
inductive Purpose where
  | group (node : Node)
  | recursion (node : Node)

/-- The part that stands for the purpose in the name of a table. -/
def Purpose.part : Purpose → String
  | group node => node.relation
  | recursion _ => "recursive"

/-- The node that the recursion leads to. -/
def Purpose.recursion? : Purpose → Option Node
  | group _ => none
  | recursion node => some node

namespace OrderedTree

/-- The tables of a tree: that of the group of its node, then for each recursion that is hoisted one for the
recursion and those of its own tree. -/
def tables (t : OrderedTree) : List Purpose :=
  .group t.node :: t.hoisted.attach.flatMap fun r => .recursion r.1.node :: r.1.tables
termination_by sizeOf t
decreasing_by exact sizeOf_lt_of_mem_hoisted r.2

theorem tables_eq (t : OrderedTree) :
    t.tables = .group t.node :: t.hoisted.flatMap fun r => .recursion r.node :: r.tables := by
  rw [tables]
  simp

/-- The two tables of a recursion. -/
def ownTables (t : OrderedTree) : List Purpose := [.recursion t.node, .group t.node]

theorem recursion_cons_tables (t : OrderedTree) :
    .recursion t.node :: t.tables = t.heads.flatMap ownTables := by
  have hbelow : (t.hoisted.flatMap fun r => .recursion r.node :: r.tables) =
      t.hoisted.flatMap fun r => r.heads.flatMap ownTables :=
    List.flatMap_congr fun r hr => recursion_cons_tables r
  rw [tables_eq, heads_eq, List.flatMap_cons, List.flatMap_assoc, hbelow]
  rfl
termination_by sizeOf t
decreasing_by exact sizeOf_lt_of_mem_hoisted hr

/-- There is a table for the recursion to each head but the first. -/
theorem recursions_tables (t : OrderedTree) :
    t.node :: t.tables.filterMap Purpose.recursion? = t.heads.map node := by
  have hcons : (.recursion t.node :: t.tables).filterMap Purpose.recursion? =
      t.node :: t.tables.filterMap Purpose.recursion? := rfl
  rw [← hcons, recursion_cons_tables, List.filterMap_flatMap, List.map_eq_flatMap]
  rfl

end OrderedTree

namespace Sql

/-- The body of a table is one for its purpose. That of a group starts from the table of its node. That of a
recursion goes on while the depth that the table itself has reached is below that of the recursion and the
next vertex is not on the path yet. -/
def Body.ShapedFor (setup : Setup) (name : String) : Purpose → Body → Prop
  | .group node, body => ∃ query, body = .plain query ∧
      query.source.first.map BoundTable.table = some (setup.catalog.table node.relation)
  | .recursion node, body => ∃ recurse anchor step next label items,
      node.role = .recurse recurse ∧ body = .compound anchor setup.combinator step ∧
      anchor.source.first.map BoundTable.table = some (setup.catalog.table node.relation) ∧
      step.projection = .labelled next label :: items ∧
      step.filter = some (.and
        [.compare .lt (.column (some name) setup.settings.depthColumn) (.int recurse.depth.toNat),
          .not (.like (.column (some name) setup.settings.pathColumn)
            (.concat [.text ("%" ++ setup.settings.pathDelimiter), .cast next setup.settings.castType,
              .text (setup.settings.pathDelimiter ++ "%")]))])

/-- The table that was made for a purpose, under its number. -/
structure Cte.MadeForPurpose (setup : Setup) (x : Purpose × Nat) (c : Cte) : Prop where
  name : c.name = numbered (setup.settings.cteStem ++ "_" ++ x.1.part) x.2
  recursive : c.recursive = c.body.isCompound
  body : Body.ShapedFor setup c.name x.1 c.body

section

variable {t : QueryTree} {setup : Setup}

theorem Host.Sound.first_table {h : Host} (hs : h.Sound t setup) :
    h.collapsed.source.first = some h.collapsed.table ∧
      h.collapsed.table.table = setup.catalog.table h.tree.node.relation := by
  have hmade := relation_madeOf hs.collapsed
  refine ⟨hmade.first.trans (congrArg some hmade.table.symm), ?_⟩
  rw [hmade.table, ← h.bound_node setup.catalog, Host.bound]
  cases h.trunk
  rfl

/-- The query of a group has the source of its relation. -/
theorem Host.query_source {h : Host} {r : Relation} (hq : r.query h.tree.node = .ok h.query) :
    h.query.source = r.source := by
  rw [(Relation.query_ok hq).2]

theorem Made.Sound.madeForPurpose {m : Made} (hm : m.Sound setup t) :
    List.Forall₂ (Cte.MadeForPurpose setup) (m.tree.erase.ownTables.zipIdx (m.start.tables + 1))
      (m.ctes setup) := by
  obtain ⟨hfirst, htable⟩ := hm.first_table
  have hsource := Host.query_source hm.query
  have hnode := m.tree.erase_node
  rw [OrderedTree.ownTables, hnode]
  refine .cons ⟨rfl, rfl, ?_⟩ (.cons ⟨hm.name, rfl, m.query, rfl, ?_⟩ .nil)
  · refine ⟨m.tie.hook.recurse, _, _, (m.recursion setup).next, _, _, hm.role, rfl, ?_, rfl, rfl⟩
    exact congrArg some htable
  · rw [hsource, Relation.enter, Relation.join, Source.first, hfirst]
    exact congrArg some htable

/-- Recursions that are emitted one after the other number their tables on. -/
theorem Run.madeForPurpose {s last : Supply} {ms : List Made} (h : Run t setup s ms last) :
    List.Forall₂ (Cte.MadeForPurpose setup)
      (((ms.map (·.tree.erase)).flatMap OrderedTree.ownTables).zipIdx (s.tables + 1))
      (ms.flatMap (Made.ctes setup)) := by
  induction h with
  | done => exact .nil
  | @step m ms last hm _ ih =>
    rw [List.map_cons, List.flatMap_cons, List.flatMap_cons, List.zipIdx_append]
    exact List.rel_append hm.madeForPurpose ih

end

/-- A tree with `r` recursions has `1 + 2 * r` tables: that of the root's group, then two for each recursion,
in the order of the tree, numbered from one. Those of recursions, and no others, are recursive, and there is one
for each recursion of the tree. -/
theorem emit_census {settings : Settings} {catalog : Catalog} {tree : QueryTree} {statement : Statement}
    (hb : tree.Built) (h : emit settings catalog tree = .ok statement) :
    ∃ combinator ordered,
      Combinator.ofName (settings.combinator.getD catalog.combinator) = .ok combinator ∧
      tree.ordered = .ok ordered ∧
      statement.ctes.length = 1 + 2 * tree.entries.countP (·.node.isRecursive) ∧
      List.Forall₂ (Cte.MadeForPurpose ⟨catalog, settings, combinator⟩) (ordered.tables.zipIdx 1)
        statement.ctes ∧
      (ordered.tables.filterMap Purpose.recursion?).Perm
        ((tree.entries.map Entry.node).filter Node.isRecursive) := by
  obtain ⟨-, combinator, root, ms, hcombinator, hordered, hemission⟩ := exists_emission hb h
  obtain ⟨last, hrun⟩ := hemission.run
  have hnodes := hemission.nodes_perm hb
  refine ⟨combinator, root.tree.erase, hcombinator, hordered, ?_, ?_, ?_⟩
  · have hcount := hemission.countP_made hb fun _ => true
    simp only [List.countP_true, Bool.true_and] at hcount
    rw [hemission.ctes, List.length_cons, List.length_flatMap, ← hcount]
    simp only [Made.ctes, List.length_cons, List.length_nil, List.map_const', List.sum_replicate_nat]
    omega
  · -- Its tables are those that a recursion to the root would have, without the first.
    have hheads := hemission.trees
    have htables := root.tree.erase.recursion_cons_tables
    rw [hheads, List.flatMap_cons, OrderedTree.ownTables] at htables
    have hpurposes := hrun.madeForPurpose
    rw [(List.cons.inj htables).2, hemission.ctes]
    refine .cons ⟨?_, rfl, root.query, rfl, ?_⟩ ?_
    · rw [root.tree.erase_node]
      exact hemission.name
    · obtain ⟨hfirst, htable⟩ := hemission.sound.first_table
      rw [Host.query_source hemission.query, hfirst, root.tree.erase_node]
      exact congrArg some htable
    · have hone : root.settled.tables = 1 := by
        simp [Host.settled, Supply.add, Supply.advance, hemission.start, Supply.init]
      rw [hone] at hpurposes
      exact hpurposes
  · have hrecursions := root.tree.erase.recursions_tables
    rw [hemission.trees, List.map_cons, List.map_map] at hrecursions
    simp only [Function.comp_def, Numbered.erase_node] at hrecursions
    rw [(List.cons.inj hrecursions).2]
    exact hnodes

theorem emit_census_sample : ∃ statement combinator ordered,
    emit .standard sampleCatalog sampleTree = .ok statement ∧ sampleTree.ordered = .ok ordered ∧
    statement.ctes.length = 5 ∧ sampleTree.entries.countP (·.node.isRecursive) = 2 ∧
    List.Forall₂ (Cte.MadeForPurpose ⟨sampleCatalog, .standard, combinator⟩) (ordered.tables.zipIdx 1)
      statement.ctes := by
  have hlength : (emit .standard sampleCatalog sampleTree).toOption.map (·.ctes.length) = some 5 := by
    decide +kernel
  obtain ⟨statement, hemit, hlength⟩ := exists_statement hlength
  obtain ⟨combinator, ordered, -, ho, hcount, hpurposes, -⟩ := emit_census sampleTree_built hemit
  exact ⟨statement, combinator, ordered, hemit, ho, hlength, by omega, hpurposes⟩

/-- The joins of a kind in all queries of a statement. -/
def Statement.countJoins (wanted : JoinKind) (s : Statement) : Nat :=
  (s.ctes.map (·.body.countJoins wanted)).sum + s.body.source.countJoins wanted

/-- The ways from parents to their ordinary children, under the names that these have in a statement. -/
def ways (catalog : Catalog) (t : OrderedTree) : List (NamedNode × NamedNode) :=
  (t.group.parts catalog).flatMap (·.trunk.joints)

/-- How many clauses the catalog gives for the ways. -/
def clauseCount (catalog : Catalog) (ways : List (NamedNode × NamedNode)) : Nat :=
  (ways.map fun j => (clauses catalog j.1 j.2).length).sum

theorem joinKind_eq_leftOuter {node : Node} : joinKind node = .leftOuter ↔ node.isOptional = true := by
  unfold joinKind
  cases node.isOptional <;> simp

theorem joinKind_eq_inner {node : Node} : joinKind node = .inner ↔ node.isOptional = false := by
  unfold joinKind
  cases node.isOptional <;> simp

/-- The ways that are joined in a kind. -/
def joinedAs (wanted : JoinKind) (ways : List (NamedNode × NamedNode)) : List (NamedNode × NamedNode) :=
  ways.filter fun j => joinKind j.2.node = wanted

theorem clauseCount_joinedAs_append (catalog : Catalog) (wanted : JoinKind)
    (xs ys : List (NamedNode × NamedNode)) :
    clauseCount catalog (joinedAs wanted (xs ++ ys)) =
      clauseCount catalog (joinedAs wanted xs) + clauseCount catalog (joinedAs wanted ys) := by
  simp only [joinedAs, clauseCount, List.filter_append, List.map_append, List.sum_append]

theorem countP_clauseJoints (catalog : Catalog) (wanted : JoinKind) (ways : List (NamedNode × NamedNode)) :
    (ways.flatMap (clauseJoints catalog)).countP (·.kind = wanted) =
      clauseCount catalog (joinedAs wanted ways) := by
  induction ways with
  | nil => rfl
  | cons j ways ih =>
    have hone : (clauseJoints catalog j).countP (·.kind = wanted) =
        clauseCount catalog (joinedAs wanted [j]) := by
      by_cases hkind : joinKind j.2.node = wanted
      · simp [clauseJoints, clauseCount, joinedAs, List.countP_map, Function.comp_def, hkind]
      · simp [clauseJoints, clauseCount, joinedAs, List.countP_map, Function.comp_def, hkind]
    have hjoined := clauseCount_joinedAs_append catalog wanted [j] ways
    rw [List.flatMap_cons, List.countP_append, hone, ih]
    exact hjoined.symm

section

variable {t : QueryTree} {setup : Setup}

theorem Host.Sound.countJoins {h : Host} (hs : h.Sound t setup) (wanted : JoinKind) :
    h.collapsed.source.countJoins wanted =
      clauseCount setup.catalog (joinedAs wanted (h.bound setup.catalog).joints) := by
  have hjoints := (relation_madeOf hs.collapsed).joints
  rw [Source.countJoins_eq, hjoints.countP_eq, countP_clauseJoints]

/-- A recursion has an inner join in its anchor, in its step, and where its vertices meet it. -/
theorem Made.Sound.countJoins_ctes {m : Made} (hm : m.Sound setup t) (wanted : JoinKind) :
    ((m.ctes setup).map (·.body.countJoins wanted)).sum =
      clauseCount setup.catalog (joinedAs wanted (m.bound setup.catalog).joints) +
        3 * if .inner = wanted then 1 else 0 := by
  have hown := Host.Sound.countJoins hm.toSound wanted
  have hsource := Host.query_source hm.query
  simp only [Made.ctes, Host.cte, Recursion.cte, Recursion.anchor, Recursion.step, Select.toSource,
    List.map_cons, List.map_nil, List.sum_cons, List.sum_nil, Body.countJoins, hsource, Relation.enter,
    Relation.join, Source.countJoins, hown]
  omega

theorem Run.countJoins_ctes {s last : Supply} {ms : List Made} (h : Run t setup s ms last)
    (wanted : JoinKind) :
    ((ms.flatMap (Made.ctes setup)).map (·.body.countJoins wanted)).sum =
      clauseCount setup.catalog (joinedAs wanted (ms.flatMap fun m => (m.bound setup.catalog).joints)) +
        3 * ms.length * if .inner = wanted then 1 else 0 := by
  induction h with
  | done => simp [clauseCount, joinedAs]
  | @step m ms last hm _ ih =>
    have hfirst := hm.countJoins_ctes wanted
    rw [List.flatMap_cons, List.flatMap_cons, List.map_append, List.sum_append, hfirst, ih,
      clauseCount_joinedAs_append, List.length_cons]
    split <;> omega

theorem Emission.countJoins {statement : Statement} {root : Host} {ms : List Made}
    (h : Emission t setup statement root ms) (wanted : JoinKind) :
    statement.countJoins wanted =
      clauseCount setup.catalog (joinedAs wanted (ways setup.catalog root.tree.erase)) +
        (3 * ms.length * if .inner = wanted then 1 else 0) +
        ms.countP (fun m => joinKind m.tree.node = wanted) := by
  obtain ⟨last, hrun⟩ := h.run
  have hroot := h.sound.countJoins wanted
  have hms := hrun.countJoins_ctes wanted
  have hbody : statement.body.source.countJoins wanted =
      ms.countP fun m => joinKind m.tree.node = wanted := by
    rw [Source.countJoins_eq, h.joints, List.countP_map]
    rfl
  have hways : ways setup.catalog root.tree.erase =
      (root.bound setup.catalog).joints ++ ms.flatMap fun m => (m.bound setup.catalog).joints := by
    rw [ways, h.parts, List.flatMap_cons, List.flatMap_map]
  have hfirst : root.cte.body.countJoins wanted = root.collapsed.source.countJoins wanted := by
    rw [← Host.query_source h.query]
    rfl
  rw [Statement.countJoins, h.ctes, List.map_cons, List.sum_cons, hbody, hfirst, hroot, hms, hways,
    clauseCount_joinedAs_append]
  omega

end

/-- The children of a group are the nodes that do not head one. -/
theorem Divided.ordinary {joined : Node → Node → Prop} {groups : List NamedGroup} {nodes : List Node}
    (hd : Divided joined groups nodes) (hh : ∀ g ∈ groups, g.trunk.node.isHead = true)
    (hj : ∀ a b, joined a b → b.isHead = false) :
    ((groups.flatMap (·.trunk.joints)).map (·.2.node)).Perm (nodes.filter (!·.isHead)) := by
  have hgroup : ∀ g ∈ groups, (g.trunk.joints.map (·.2.node)).Perm
      ((g.trunk.nodes.map NamedNode.node).filter (!·.isHead)) := by
    intro g hg
    have hothers := (hd.others g hg).map NamedNode.node
    rw [List.map_map] at hothers
    have hkept : ∀ n ∈ g.trunk.nodes.tail.map NamedNode.node, (!n.isHead) = true := by
      intro n hn
      obtain ⟨j, hjoint, rfl⟩ := List.mem_map.mp (hothers.mem_iff.mpr hn)
      simp [hj _ _ (hd.joints g hg j hjoint)]
    rw [g.trunk.nodes_eq, List.map_cons, List.filter_cons_of_neg (by simp [BoundBranch.head, hh g hg]),
      List.filter_eq_self.mpr hkept]
    exact hothers
  have hcovered := hd.covered.filter (!·.isHead)
  rw [List.filter_flatMap] at hcovered
  rw [List.map_flatMap]
  exact (List.Perm.flatMap_left groups hgroup).trans hcovered

/-- Every way from a parent to an ordinary child is joined clause by clause, once and in the kind of the
child. Each recursion has three inner joins of its own and one in its kind. -/
theorem emit_join_census {settings : Settings} {catalog : Catalog} {tree : QueryTree}
    {statement : Statement} (hb : tree.Built) (h : emit settings catalog tree = .ok statement) :
    ∃ ordered, tree.ordered = .ok ordered ∧
      (∀ j ∈ ways catalog ordered, tree.HasChild j.1.node j.2.node) ∧
      ((ways catalog ordered).map (·.2.node)).Perm
        ((tree.entries.map Entry.node).filter (!·.isHead)) ∧
      statement.countJoins .leftOuter =
        clauseCount catalog ((ways catalog ordered).filter (·.2.node.isOptional)) +
          tree.entries.countP (fun e => e.node.isOptional && e.node.isRecursive) ∧
      statement.countJoins .inner =
        clauseCount catalog ((ways catalog ordered).filter (!·.2.node.isOptional)) +
          3 * tree.entries.countP (·.node.isRecursive) +
          tree.entries.countP (fun e => !e.node.isOptional && e.node.isRecursive) := by
  obtain ⟨-, combinator, root, ms, -, hordered, hemission⟩ := exists_emission hb h
  have hw := hb.wellFormed
  obtain ⟨last, hrun⟩ := hemission.run
  obtain ⟨ordered, ho, -, hd⟩ := divided_of_built catalog hb
  cases ho.symm.trans hordered
  have hlength := hemission.countP_made hb fun _ => true
  simp only [List.countP_true, Bool.true_and] at hlength
  refine ⟨root.tree.erase, hordered, ?_, ?_, ?_, ?_⟩
  · intro j hj
    obtain ⟨g, hg, hj⟩ := List.mem_flatMap.mp hj
    exact hd.joints g hg j hj
  · refine hd.ordinary ?_ ?_
    · intro g hg
      rw [hemission.parts] at hg
      rcases List.mem_cons.mp hg with rfl | hg
      · rw [root.bound_node, Node.isHead, hemission.root_role hw]
      · obtain ⟨m, hm, rfl⟩ := List.mem_map.mp hg
        rw [m.bound_node, Node.isHead, (hrun.sound m hm).role]
    · exact fun a b hab => QueryTree.HasChild.isHead hw hab
  · have hcount := hemission.countJoins .leftOuter
    rw [hcount, ← hemission.countP_made hb Node.isOptional]
    simp [joinedAs, joinKind_eq_leftOuter]
  · have hcount := hemission.countJoins .inner
    rw [hcount, ← hlength, ← hemission.countP_made hb fun n => !n.isOptional]
    simp [joinedAs, joinKind_eq_inner]

theorem emit_join_census_sample : ∃ statement ordered,
    emit .standard sampleCatalog sampleTree = .ok statement ∧ sampleTree.ordered = .ok ordered ∧
    statement.countJoins .leftOuter = 3 ∧ statement.countJoins .inner = 9 ∧
    clauseCount sampleCatalog ((ways sampleCatalog ordered).filter (·.2.node.isOptional)) +
      sampleTree.entries.countP (fun e => e.node.isOptional && e.node.isRecursive) = 3 := by
  have hcounts : ((emit .standard sampleCatalog sampleTree).toOption.map fun statement =>
      (statement.countJoins .leftOuter, statement.countJoins .inner)) = some (3, 9) := by
    decide +kernel
  obtain ⟨statement, hemit, hcounts⟩ := exists_statement hcounts
  obtain ⟨houter, hinner⟩ := Prod.mk.inj hcounts
  obtain ⟨ordered, ho, -, -, hleft, -⟩ := emit_join_census sampleTree_built hemit
  exact ⟨statement, ordered, hemit, ho, houter, hinner, hleft.symm.trans houter⟩

end Sql

end GraphPlan
