import GraphPlan.Proofs.Emission.Links

namespace GraphPlan

namespace Branch

open Sql

mutual

/-- The table of a node is that of its relation, under the name of that table with a number. -/
theorem table_of_mem_bind (catalog : Catalog) (b : Branch) (aliases links : Nat) {x : NamedNode}
    (h : x ∈ (b.bind catalog aliases links).nodes) :
    ∃ n, x.table = (catalog.table x.node.relation).bind
      (numbered (catalog.table x.node.relation).name n) := by
  cases b with
  | mk node hanging children =>
    rw [bind, BoundBranch.nodes] at h
    rcases List.mem_cons.mp h with rfl | h
    · exact ⟨_, rfl⟩
    · exact table_of_mem_bindAll catalog children aliases links h

theorem table_of_mem_bindAll (catalog : Catalog) (bs : List Branch) (aliases links : Nat)
    {x : NamedNode} (h : x ∈ BoundBranch.nodesEach (bindAll catalog aliases links bs)) :
    ∃ n, x.table = (catalog.table x.node.relation).bind
      (numbered (catalog.table x.node.relation).name n) := by
  cases bs with
  | nil => cases h
  | cons b bs =>
    rw [bindAll, BoundBranch.nodesEach] at h
    rcases List.mem_append.mp h with h | h
    · exact table_of_mem_bind catalog b aliases links h
    · exact table_of_mem_bindAll catalog bs _ _ h

end

end Branch

namespace Sql

/-- Both sides of a join stay in its source, and the pending source comes into it. -/
theorem joinClauses_tables {kind : JoinKind} {parent child : Node} {below : Relation}
    {clauses : List JoinClause} {pending : Option Source} {left source : Source}
    (h : joinClauses kind parent child below clauses pending left = .ok source) :
    left.tables ++ pending.toList.flatMap Source.tables ⊆ source.tables := by
  induction clauses generalizing pending left with
  | nil =>
    cases pending with
    | none =>
      cases h
      simp
    | some _ => cases h
  | cons clause clauses ih =>
    unfold joinClauses at h
    split at h
    · cases pending with
      | none => cases h
      | some _ => simpa [Source.tables] using ih h
    · have hrest := ih h
      simp only [Source.tables, List.append_subset] at hrest ⊢
      exact ⟨hrest.1.1, hrest.2⟩

theorem absorbAll_tables {setup : Setup} {parent : Node} {r joined : Relation}
    {below : List (Node × Relation)} (h : absorbAll setup parent r below = .ok joined) :
    r.source.tables ++ below.flatMap (·.2.source.tables) ⊆ joined.source.tables := by
  induction below generalizing r with
  | nil =>
    cases h
    simp
  | cons p below ih =>
    obtain ⟨next, ha, h⟩ := bind_ok h
    obtain ⟨source, hs, rfl⟩ := absorb_ok ha
    have hfirst := joinClauses_tables hs
    have hrest := ih h
    simp only [Option.toList, List.flatMap_cons, List.flatMap_nil, List.append_nil,
      List.append_subset] at hfirst hrest ⊢
    exact ⟨List.Subset.trans hfirst.1 hrest.1, List.Subset.trans hfirst.2 hrest.1, hrest.2⟩

mutual

/-- The source of a group has the tables of all its nodes. -/
theorem relation_tables {setup : Setup} {b : BoundBranch} {r : Relation}
    (h : b.relation setup = .ok r) : b.nodes.map NamedNode.table ⊆ r.source.tables := by
  cases b with
  | mk node table hanging children =>
    obtain ⟨below, hbelow, h⟩ := bind_ok h
    obtain ⟨own, ho, h⟩ := bind_ok h
    obtain ⟨linked, hl, h⟩ := bind_ok h
    obtain ⟨conditions, -, ho⟩ := bind_ok ho
    cases ho
    obtain ⟨links, rfl, -⟩ := linkTo_links hl node
    have hchildren := relations_tables hbelow
    have hall := absorbAll_tables h
    simp only [Source.tables, List.append_subset] at hall
    rw [BoundBranch.nodes, List.map_cons, List.cons_subset]
    exact ⟨hall.1 (List.mem_singleton_self table), List.Subset.trans hchildren hall.2⟩

theorem relations_tables {setup : Setup} {bs : List BoundBranch} {rs : List (Node × Relation)}
    (h : BoundBranch.relations setup bs = .ok rs) :
    (BoundBranch.nodesEach bs).map NamedNode.table ⊆ rs.flatMap (·.2.source.tables) := by
  cases bs with
  | nil => simp [BoundBranch.nodesEach]
  | cons b bs =>
    obtain ⟨r, hr, h⟩ := bind_ok h
    obtain ⟨rs', hrs, h⟩ := bind_ok h
    cases h
    rw [BoundBranch.nodesEach, List.map_append, List.flatMap_cons]
    exact List.append_subset.mpr ⟨List.subset_append_of_subset_left _ (relation_tables hr),
      List.subset_append_of_subset_right _ (relations_tables hrs)⟩

end

/-- The names of a `Naming`, and those that recursions have besides: the alias of the distinct links that a
recursion starts from, and that of its edges. -/
structure Aliasing extends Naming where
  links : NodeId → String
  edges : NodeId → String

namespace Aliasing

/-- The aliases of all relations, then those of the links and edges of all recursions. -/
def aliases (t : QueryTree) (names : Aliasing) : List String :=
  (List.range t.size).map (fun id => (names.own id).qualifier) ++
    (t.idsWith Node.isRecursive).flatMap fun r => [names.links r, names.edges r]

/-- The query of a group is the table of a name. -/
def IsGroup (statement : Statement) (name : String) (query : Select) : Prop :=
  statement.cte? name = some ⟨name, false, .plain query⟩

/-- Where the names of a recursion along a track stand. -/
structure Repeats (statement : Statement) (names : Aliasing) (track : Track) (r : NodeId) : Prop where
  /-- A group has a column under the label of the recursion. The recursive table starts where the relation
  meets the distinct values of that column, and goes on along the edges. -/
  loop : ∃ c query anchor combinator step,
    IsGroup statement (names.table c) query ∧ some (names.label r) ∈ query.names ∧
    statement.cte? (names.loop r) = some ⟨names.loop r, true, .compound anchor combinator step⟩ ∧
    anchor.source = .join .inner (.table (names.own r)) (Select.toSource ⟨true,
      [.labelled ((BoundTable.named (names.table c)).column (names.label r)) Recursion.linkName],
      .table (.named (names.table c)), none⟩ (names.links r))
      (.equal ((names.own r).column track.base) (.column (some (names.links r)) Recursion.linkName)) ∧
    step.source = .join .inner (.table (track.edges.bind (names.edges r)))
      (.table (.named (names.loop r)))
      (.equal ((track.edges.bind (names.edges r)).column track.sink)
        ((BoundTable.named (names.loop r)).column track.source))
  /-- The group of the recursion has the column that leads back. -/
  back : ∃ query, IsGroup statement (names.table r) query ∧
    .labelled ((BoundTable.named (names.loop r)).column track.sink) (names.back r) ∈ query.projection
  /-- The two aliases are numbered. -/
  numbers : ∃ m n, names.links r = numbered Recursion.linkName m ∧
    names.edges r = numbered track.edges.name n

/-- Where a statement has the names. -/
structure LocatedIn (t : QueryTree) (catalog : Catalog) (statement : Statement) (names : Aliasing) : Prop
    extends names.toNaming.UsedIn t catalog statement where
  /-- The relation of a node is in the query of its group, under the name of its table with a number. -/
  relations : ∀ id node, t.node? id = some node → ∃ n head query,
    names.own id = (catalog.table node.relation).bind
      (numbered (catalog.table node.relation).name n) ∧
    t.Heads head id ∧ IsGroup statement (names.table head) query ∧
    names.own id ∈ query.source.tables
  recursions : ∀ r e recurse, t.entries[r]? = some e → e.node.role = .recurse recurse →
    ∃ edge, catalog.edge e.node = some edge ∧
      names.Repeats statement (Track.ofEdge catalog e.node.relation recurse.direction edge) r

/-- The names that an emission has given out. -/
structure GivenBy (setup : Setup) (root : Host) (ms : List Made) (names : Aliasing) : Prop
    extends names.toNaming.GivenBy setup root ms where
  links : ∀ m ∈ ms, names.links m.tree.id = (m.recursion setup).linkLabel
  edges : ∀ m ∈ ms, names.edges m.tree.id = (m.recursion setup).edges.qualifier

end Aliasing

open Aliasing

namespace Emission

variable {t : QueryTree} {setup : Setup} {statement : Statement} {root : Host} {ms : List Made}

theorem exists_aliasing (h : Emission t setup statement root ms) :
    ∃ names : Aliasing, names.GivenBy setup root ms := by
  have hmade := h.made_nodup
  obtain ⟨naming, hnaming⟩ := h.exists_naming
  obtain ⟨links, hlinks⟩ := exists_values "" _ (fun m => (m.recursion setup).linkLabel) hmade
  obtain ⟨edges, hedges⟩ := exists_values "" _ (fun m => (m.recursion setup).edges.qualifier) hmade
  exact ⟨⟨naming, links, edges⟩, hnaming, hlinks, hedges⟩

theorem isGroup (h : Emission t setup statement root ms) {names : Naming}
    (hr : names.GivenBy setup root ms) {x : Host} (hx : x ∈ hosts root ms) :
    IsGroup statement (names.table x.tree.id) x.query := by
  rw [hr.table x hx]
  exact h.cte?_hosts x hx

/-- The query of a group has all tables of its relation. -/
theorem tables_hosts (h : Emission t setup statement root ms) :
    ∀ x ∈ hosts root ms, x.collapsed.source.tables ⊆ x.query.source.tables := by
  refine h.forall_hosts ?_ fun m _ hm => ?_
  · rw [(Relation.query_ok h.query).2]
    exact List.Subset.refl _
  · rw [hm.query_back.1]
    exact List.subset_append_left ..

/-- No two aliases are the same: those of the nodes, group by group, and those of the recursions are all
that was given out. -/
theorem nodup_aliases (h : Emission t setup statement root ms) (hw : t.WellFormed) {names : Aliasing}
    (hr : names.GivenBy setup root ms) : (names.aliases t).Nodup := by
  have hnodes := h.aliases_perm hr.toGivenBy
  have hrecursions := (h.recursions_perm hw).flatMap_right fun r => [names.links r, names.edges r]
  rw [List.flatMap_map, List.flatMap_congr fun m hm => by rw [hr.links m hm, hr.edges m hm]]
    at hrecursions
  have hsplit := List.flatMap_append_perm ms (fun m => m.aliases setup.catalog) fun m =>
    [(m.recursion setup).linkLabel, (m.recursion setup).edges.qualifier]
  have hall : (names.aliases t).Perm
      (root.aliases setup.catalog ++ ms.flatMap (Made.given setup)) := by
    refine (hnodes.append hrecursions).symm.trans ?_
    rw [List.append_assoc]
    exact hsplit.append_left _
  exact hall.nodup_iff.mpr h.aliases_nodup

theorem repeats (h : Emission t setup statement root ms) {names : Aliasing}
    (hr : names.GivenBy setup root ms) {m : Made} (hm : m ∈ ms) :
    names.Repeats statement
      (Track.ofEdge setup.catalog m.tree.node.relation m.tie.hook.recurse.direction m.edge)
      m.tree.id := by
  obtain ⟨last, hrun⟩ := h.run
  have hown : m.toHost ∈ hosts root ms := List.mem_cons_of_mem _ (List.mem_map_of_mem hm)
  have hself := h.own_head hr.toGivenBy hown
  have hloop := hr.loop m hm
  have hlabel := hr.label m hm
  have hlinks := hr.links m hm
  have hedges := hr.edges m hm
  obtain ⟨x, hx, htie⟩ := h.exists_tied hm
  obtain ⟨hhost, -, hcolumn⟩ := Host.mem_ties htie
  rw [← hr.table x hx] at hhost
  constructor
  · refine ⟨x.tree.id, x.query, (m.recursion setup).anchor, setup.combinator,
      (m.recursion setup).step, h.isGroup hr.toGivenBy hx, ?_, ?_, ?_, ?_⟩
    · rw [hlabel]
      have hitem := (h.queried_hosts x hx).columns m.tie.column (List.mem_append_right _ hcolumn)
      exact List.mem_map_of_mem (f := Item.label) hitem
    · rw [hloop]
      exact h.cte?_recursion hm
    · rw [← hself, ← hhost, hlabel, hlinks]
      rfl
    · rw [hloop, hedges]
      rfl
  · refine ⟨m.query, h.isGroup hr.toGivenBy hown, ?_⟩
    rw [hloop, hr.back m hm]
    exact (hrun.sound m hm).query_back.2
  · exact ⟨_, _, hlinks, hedges⟩

theorem locatedIn (h : Emission t setup statement root ms) (hw : t.WellFormed) {names : Aliasing}
    (hr : names.GivenBy setup root ms) : names.LocatedIn t setup.catalog statement where
  toUsedIn := h.usedIn hw hr.toGivenBy
  relations := by
    intro id node hnode
    obtain ⟨x, hx, hid, hheads⟩ := h.exists_host hw (QueryTree.lt_size_of_node? hnode)
    obtain ⟨y, hy, hp⟩ := h.exists_aliased hx hid
    obtain ⟨n, hn⟩ := Branch.table_of_mem_bind setup.catalog x.trunk _ _ hy
    have hmem := relation_tables (h.sound_hosts x hx).collapsed (List.mem_map_of_mem hy)
    obtain ⟨rfl, -⟩ := h.own_of_mem hr.toGivenBy hx hp hnode
    exact ⟨n, x.tree.id, x.query, hn, hheads, h.isGroup hr.toGivenBy hx, h.tables_hosts x hx hmem⟩
  recursions := by
    intro r e recurse he hrole
    obtain ⟨last, hrun⟩ := h.run
    obtain ⟨m, hm, -, -, -, rfl, hnode, rfl, -⟩ := h.exists_madeAt hw he hrole
    rw [← hnode]
    exact ⟨m.edge, (checked_ok (hrun.sound m hm).edge).1, h.repeats hr hm⟩

end Emission

/-- All names that a statement is given are fresh. No two aliases of relations, links and edges are the same,
no two tables have one name, so that each is found under its own, and no two links have one label. -/
theorem emit_names_fresh {settings : Settings} {catalog : Catalog} {tree : QueryTree}
    {statement : Statement} (hb : tree.Built) (h : emit settings catalog tree = .ok statement) :
    ∃ names : Aliasing, names.LocatedIn tree catalog statement ∧ (names.aliases tree).Nodup ∧
      (names.tables tree).Nodup ∧ (names.labels tree).Nodup ∧ (statement.ctes.map Cte.name).Nodup ∧
      ∀ c ∈ statement.ctes, statement.cte? c.name = some c := by
  obtain ⟨-, combinator, root, ms, -, -, hemission⟩ := exists_emission hb h
  have hw := hb.wellFormed
  obtain ⟨names, hnames⟩ := hemission.exists_aliasing
  have hapart := hemission.apart hw hnames.toGivenBy
  exact ⟨names, hemission.locatedIn hw hnames, hemission.nodup_aliases hw hnames, hapart.tables,
    hapart.labels, hemission.names_nodup, fun c hc => hemission.cte?_eq hc⟩

/-- Relations are tables of their own names, and the edges are in a table that is named like an alias. -/
def lookalikes : Catalog :=
  { herdCatalog with
    table := fun relation => ⟨none, relation⟩
    edge := fun _ => some (.junction ⟨"link_4", "id", "animal_id"⟩ ⟨"link_4", "friend_id", "id"⟩) }

/-- Names that end like generated ones: `animal_1` beside `animal`, and relations that are called like the
recursive tables and the links. -/
def lookalikeTree : QueryTree :=
  (QueryTree.start (.root "Animal") "animal_1").after
    [.child 0 ((Location.root "Animal").descend "out_Friend") "animal" ⟨.outward, "friend", true, false⟩,
      .recursion 1 ((Location.root "Animal").descend "out_Kin") "recursive" ⟨.outward, "kin", 2, false⟩,
      .recursion 2 ((Location.root "Animal").descend "out_Link") "link" ⟨.inward, "link", 3, true⟩,
      .select 0 ⟨"name", "name"⟩, .select 3 ⟨"name", "link_name"⟩]

theorem emit_names_fresh_lookalikes : ∃ statement names,
    lookalikeTree.Built ∧
    emit { Settings.standard with cteStem := "animal_1" } lookalikes lookalikeTree = .ok statement ∧
    statement.ctes.map Cte.name = ["animal_1_animal_1_1", "animal_1_recursive_2",
      "animal_1_recursive_3", "animal_1_recursive_4", "animal_1_link_5"] ∧
    Aliasing.LocatedIn lookalikeTree lookalikes statement names ∧
    (names.aliases lookalikeTree).Nodup ∧ (names.aliases lookalikeTree).length = 8 ∧
    (names.tables lookalikeTree).Nodup ∧ (names.tables lookalikeTree).length = 5 ∧
    (names.labels lookalikeTree).Nodup ∧ (names.labels lookalikeTree).length = 4 := by
  have hbuilt : lookalikeTree.Built := (QueryTree.Built.start ..).after _
  have hctes : ((emit { Settings.standard with cteStem := "animal_1" } lookalikes
      lookalikeTree).toOption.map (·.ctes.map Cte.name)) = some ["animal_1_animal_1_1",
        "animal_1_recursive_2", "animal_1_recursive_3", "animal_1_recursive_4", "animal_1_link_5"] := by
    decide +kernel
  have hrecursions : lookalikeTree.idsWith Node.isRecursive = [2, 3] := by decide +kernel
  have hheads : lookalikeTree.idsWith Node.isHead = [0, 2, 3] := by decide +kernel
  have hsize : lookalikeTree.size = 4 := by decide +kernel
  obtain ⟨statement, hemit, hctes⟩ := exists_statement hctes
  obtain ⟨names, hlocated, haliases, htables, hlabels, -⟩ := emit_names_fresh hbuilt hemit
  refine ⟨statement, names, hbuilt, hemit, hctes, hlocated, haliases, ?_, htables, ?_, hlabels, ?_⟩
  · simp [Aliasing.aliases, hsize, hrecursions]
  · simp [Naming.tables, hheads, hrecursions]
  · simp [Naming.labels, hrecursions]

end Sql

end GraphPlan
