import GraphPlan.Proofs.Emission.Census
import GraphPlan.Proofs.Emission.Fresh

/-!
Recursions are linked to the nodes that they hang on, and to no others.

A recursion hangs on a node, and the group of that node has a table, headed by the nearest node upwards that
is the root or a recursion. The table has a column for the recursion, taken from the table of the node that
it hangs on; the recursion starts from the values of that column, and its own table leads back to them under
a label of its own; and the final query joins the two tables on the two columns. Which of the generated
names belong to which node is said by a `Naming`.
-/

namespace GraphPlan

/-- The ids of the nodes of a kind. -/
def QueryTree.idsWith (t : QueryTree) (p : Node → Bool) : List NodeId :=
  (List.range t.size).filter fun id => (t.node? id).any p

theorem QueryTree.mem_idsWith {t : QueryTree} {p : Node → Bool} {id : NodeId} :
    id ∈ t.idsWith p ↔ ∃ e, t.entries[id]? = some e ∧ p e.node = true := by
  simp only [idsWith, List.mem_filter, List.mem_range, Option.any_eq_true, node?,
    Option.map_eq_some_iff]
  constructor
  · rintro ⟨-, node, ⟨e, he, rfl⟩, hp⟩
    exact ⟨e, he, hp⟩
  · rintro ⟨e, he, hp⟩
    exact ⟨(List.getElem?_eq_some_iff.mp he).1, e.node, ⟨e, he, rfl⟩, hp⟩

theorem QueryTree.lt_size_of_node? {t : QueryTree} {id : NodeId} {node : Node}
    (h : t.node? id = some node) : id < t.size := by
  obtain ⟨e, he, -⟩ := Option.map_eq_some_iff.mp h
  exact (List.getElem?_eq_some_iff.mp he).1

theorem QueryTree.nodup_idsWith (t : QueryTree) (p : Node → Bool) : (t.idsWith p).Nodup :=
  List.nodup_range.filter _

namespace Sql

/-- The nodes of a group under their names, by id. -/
def Host.aliased (catalog : Catalog) (h : Host) : List (NodeId × NamedNode) :=
  h.tree.aliased catalog h.start.aliases h.start.links

/-- The table of a group has the columns of its relation, and starts and joins as it does. -/
structure Host.Queried (h : Host) : Prop where
  first : h.query.source.first = some h.collapsed.table
  joints : h.collapsed.source.joints ⊆ h.query.source.joints
  columns : ∀ c ∈ h.collapsed.outputs ++ h.collapsed.links, c.item ∈ h.query.projection
  names : h.query.names.Nodup

section

variable {t : QueryTree} {setup : Setup}

theorem Host.Sound.names {h : Host} (hs : h.Sound t setup) :
    List.Forall₂ (Numbered.Names t setup.catalog) h.tree.trunkIds (h.bound setup.catalog).nodes :=
  hs.placed.names setup.catalog h.start.aliases h.start.links

theorem Host.Sound.map_aliased {h : Host} (hs : h.Sound t setup) :
    (h.aliased setup.catalog).map Prod.fst = h.tree.trunkIds ∧
      (h.aliased setup.catalog).map Prod.snd = (h.bound setup.catalog).nodes := by
  have hlength := hs.names.length_eq
  exact ⟨List.map_fst_zip (Nat.le_of_eq hlength), List.map_snd_zip (Nat.le_of_eq hlength.symm)⟩

theorem Host.Sound.of_mem_aliased {h : Host} (hs : h.Sound t setup) {p : NodeId × NamedNode}
    (hp : p ∈ h.aliased setup.catalog) :
    t.node? p.1 = some p.2.node ∧ p.2.table.table = setup.catalog.table p.2.node.relation :=
  (List.forall₂_iff_zip.mp hs.names).2 hp

theorem Host.queried_of_query {h : Host} {r : Relation} (hq : r.query h.tree.node = .ok h.query)
    (hf : r.source.first = some h.collapsed.table)
    (hj : h.collapsed.source.joints ⊆ r.source.joints)
    (hc : h.collapsed.outputs ++ h.collapsed.links ⊆ r.outputs ++ r.links) : h.Queried := by
  obtain ⟨hrepeated, hquery⟩ := Relation.query_ok hq
  have hinj : Function.Injective (some : String → Option String) := fun _ _ h => Option.some.inj h
  have hnodup := (nodup_of_firstRepeated hrepeated).1.map hinj
  refine ⟨?_, ?_, ?_, ?_⟩
  · rw [hquery]
    exact hf
  · rw [hquery]
    exact hj
  · intro c hmem
    rw [hquery]
    exact List.mem_map_of_mem (hc hmem)
  · rw [names_query hq]
    exact hnodup

theorem Emission.queried_root {statement : Statement} {root : Host} {ms : List Made}
    (h : Emission t setup statement root ms) : root.Queried := by
  obtain ⟨hfirst, -⟩ := h.sound.first_table
  exact Host.queried_of_query h.query hfirst (List.Subset.refl _) (List.Subset.refl _)

theorem Made.Sound.queried {m : Made} (hm : m.Sound setup t) : m.toHost.Queried := by
  obtain ⟨hfirst, -⟩ := hm.first_table
  apply Host.queried_of_query hm.query hfirst
  · exact List.subset_append_left ..
  · rw [Relation.enter, Relation.join, ← List.append_assoc]
    exact List.subset_append_left ..

/-- The table of a recursion's group is joined to the recursion, and has the column that leads back. -/
theorem Made.Sound.query_back {m : Made} (hm : m.Sound setup t) :
    m.query.source = .join .inner m.collapsed.source (.table (m.recursion setup).previous)
      (m.recursion setup).arrival ∧
    .labelled (m.recursion setup).back m.back ∈ m.query.projection := by
  obtain ⟨-, hquery⟩ := Relation.query_ok hm.query
  rw [hquery]
  refine ⟨rfl, List.mem_map_of_mem (f := Column.item) (a := ⟨(m.recursion setup).back, m.back⟩) ?_⟩
  simp [Relation.enter]

theorem forall₂_through {α β γ : Type} {R : α → β → Prop} {S : β → γ → Prop} {as : List α} {bs : List β}
    {cs : List γ} (h : List.Forall₂ R as bs) (h' : List.Forall₂ S bs cs) :
    List.Forall₂ (fun a c => ∃ b, R a b ∧ S b c) as cs := by
  induction h generalizing cs with
  | nil =>
    cases h'
    exact .nil
  | cons hr _ ih =>
    cases h' with
    | cons hs hrest => exact .cons ⟨_, hr, hs⟩ (ih hrest)

/-- A recursion is tied by the column of its edge that the table of the node has that it hangs on. -/
theorem Host.Sound.tie {h : Host} (hs : h.Sound t setup) {x : Tie} (hx : x ∈ h.ties) :
    ∃ y edge, (x.hook.parent, y) ∈ h.aliased setup.catalog ∧
      Edge.checked x.hook.tree.node (setup.catalog.edge x.hook.tree.node) = .ok edge ∧
      x.column.term = y.table.column edge.linkColumn := by
  have hhung := hs.placed.hung setup.catalog h.start.aliases h.start.links
  have hlinks := (relation_madeOf hs.collapsed).links
  obtain ⟨p, hp, rfl⟩ := List.mem_map.mp hx
  obtain ⟨y, ⟨hparent, hnode⟩, edge, hedge, hcolumn⟩ :=
    List.forall₂_zip (forall₂_through hhung hlinks) hp
  rw [hnode] at hedge
  exact ⟨y.1, edge, hparent, hedge, congrArg Column.term hcolumn⟩

end

/-- The groups of a statement, that of the root first. -/
def hosts (root : Host) (ms : List Made) : List Host := root :: ms.map Made.toHost

namespace Emission

variable {t : QueryTree} {setup : Setup} {statement : Statement} {root : Host} {ms : List Made}

theorem forall_hosts (h : Emission t setup statement root ms) {P : Host → Prop} (hroot : P root)
    (hms : ∀ m ∈ ms, m.Sound setup t → P m.toHost) : ∀ x ∈ hosts root ms, P x := by
  obtain ⟨last, hrun⟩ := h.run
  intro x hx
  rcases List.mem_cons.mp hx with rfl | hx
  · exact hroot
  · obtain ⟨m, hm, rfl⟩ := List.mem_map.mp hx
    exact hms m hm (hrun.sound m hm)

theorem sound_hosts (h : Emission t setup statement root ms) : ∀ x ∈ hosts root ms, x.Sound t setup :=
  h.forall_hosts h.sound fun _ _ hm => hm.toSound

theorem queried_hosts (h : Emission t setup statement root ms) : ∀ x ∈ hosts root ms, x.Queried :=
  h.forall_hosts h.queried_root fun _ _ hm => hm.queried

theorem cte?_hosts (h : Emission t setup statement root ms) :
    ∀ x ∈ hosts root ms, statement.cte? x.name = some x.cte := by
  have hctes : ∀ x ∈ hosts root ms, x.cte ∈ statement.ctes := by
    rw [h.ctes]
    refine h.forall_hosts List.mem_cons_self fun m hm _ => ?_
    refine List.mem_cons_of_mem _ (List.mem_flatMap.mpr ⟨m, hm, ?_⟩)
    simp [Made.ctes]
  exact fun x hx => h.cte?_eq (hctes x hx)

theorem entry_hosts (h : Emission t setup statement root ms) (hw : t.WellFormed) :
    ∀ x ∈ hosts root ms, ∃ e, t.entries[x.tree.id]? = some e ∧ e.node = x.tree.node ∧
      e.node.isHead = true := by
  have hrole := h.root_role hw
  have hhead : ∀ x ∈ hosts root ms, x.tree.node.isHead = true := by
    refine h.forall_hosts ?_ fun m _ hm => ?_
    · rw [Node.isHead, hrole]
    · rw [Node.isHead, hm.role]
  intro x hx
  obtain ⟨e, he, hnode⟩ := (h.sound_hosts x hx).placed.lookup
  exact ⟨e, he, hnode, hnode ▸ hhead x hx⟩

theorem heads_hosts (h : Emission t setup statement root ms) (hw : t.WellFormed) :
    ∀ x ∈ hosts root ms, t.Heads x.tree.id x.tree.id := by
  intro x hx
  obtain ⟨e, he, -, hhead⟩ := h.entry_hosts hw x hx
  exact .self he hhead

theorem ids_hosts (h : Emission t setup statement root ms) :
    ((hosts root ms).flatMap (·.tree.trunkIds)).Perm (List.range t.size) := by
  rw [hosts, List.flatMap_cons, List.flatMap_map]
  exact h.ids

theorem keys_nodup (h : Emission t setup statement root ms) :
    ((hosts root ms).map (·.tree.id)).Nodup := by
  have hnodup := h.ids_hosts.nodup_iff.mpr List.nodup_range
  have hsplit := List.flatMap_append_perm (hosts root ms) (fun x => [x.tree.id]) (·.tree.trunkIds.tail)
  have hids : ∀ x : Host, [x.tree.id] ++ x.tree.trunkIds.tail = x.tree.trunkIds := by
    intro x
    cases x.tree
    rfl
  simp only [hids, ← List.map_eq_flatMap] at hsplit
  exact (hsplit.nodup_iff.mpr hnodup).of_append_left

theorem made_nodup (h : Emission t setup statement root ms) : (ms.map (·.tree.id)).Nodup := by
  have hkeys := h.keys_nodup
  rw [hosts, List.map_cons, List.map_map] at hkeys
  exact hkeys.tail

/-- Every node is in the group of its head. -/
theorem exists_host (h : Emission t setup statement root ms) (hw : t.WellFormed) {id : NodeId}
    (hid : id < t.size) : ∃ x ∈ hosts root ms, id ∈ x.tree.trunkIds ∧ t.Heads x.tree.id id := by
  have hmem := h.ids_hosts.mem_iff.mpr (List.mem_range.mpr hid)
  obtain ⟨x, hx, hid⟩ := List.mem_flatMap.mp hmem
  have hheads := (h.sound_hosts x hx).placed.heads hw (h.heads_hosts hw x hx) id hid
  exact ⟨x, hx, hid, hheads.1⟩

theorem exists_host_of_heads (h : Emission t setup statement root ms) (hw : t.WellFormed)
    {head id : NodeId} (hh : t.Heads head id) :
    ∃ x ∈ hosts root ms, x.tree.id = head ∧ id ∈ x.tree.trunkIds := by
  obtain ⟨x, hx, hid, hheads⟩ := h.exists_host hw hh.lt_size
  exact ⟨x, hx, hheads.unique hh, hid⟩

/-- The nodes that head groups are those of the groups that were made. -/
theorem heads_perm (h : Emission t setup statement root ms) (hw : t.WellFormed) :
    ((hosts root ms).map (·.tree.id)).Perm (t.idsWith Node.isHead) := by
  refine (List.perm_ext_iff_of_nodup h.keys_nodup (t.nodup_idsWith _)).mpr fun id => ?_
  rw [QueryTree.mem_idsWith, List.mem_map]
  constructor
  · rintro ⟨x, hx, rfl⟩
    obtain ⟨e, he, -, hhead⟩ := h.entry_hosts hw x hx
    exact ⟨e, he, hhead⟩
  · rintro ⟨e, he, hr⟩
    obtain ⟨x, hx, hid, -⟩ := h.exists_host_of_heads hw (.self he hr)
    exact ⟨x, hx, hid⟩

/-- What is recursive was made. -/
theorem exists_made (h : Emission t setup statement root ms) (hw : t.WellFormed) {id : NodeId}
    {e : Entry} (he : t.entries[id]? = some e) (hr : e.node.isRecursive = true) :
    ∃ m ∈ ms, m.tree.id = id := by
  obtain ⟨x, hx, rfl, -⟩ := h.exists_host_of_heads hw (.self he (Node.isHead_of_recursive hr))
  rcases List.mem_cons.mp hx with rfl | hx
  · obtain ⟨e', he', hnode, -⟩ := h.entry_hosts hw x hx
    cases he.symm.trans he'
    rw [hnode, Node.isRecursive, h.root_role hw] at hr
    cases hr
  · obtain ⟨m, hm, rfl⟩ := List.mem_map.mp hx
    exact ⟨m, hm, rfl⟩

theorem recursions_perm (h : Emission t setup statement root ms) (hw : t.WellFormed) :
    (ms.map (·.tree.id)).Perm (t.idsWith Node.isRecursive) := by
  obtain ⟨last, hrun⟩ := h.run
  refine (List.perm_ext_iff_of_nodup h.made_nodup (t.nodup_idsWith _)).mpr fun id => ?_
  rw [QueryTree.mem_idsWith, List.mem_map]
  constructor
  · rintro ⟨m, hm, rfl⟩
    have hsound := hrun.sound m hm
    obtain ⟨e, he, hnode⟩ := hsound.placed.lookup
    refine ⟨e, he, ?_⟩
    rw [hnode, Node.isRecursive, hsound.role]
  · rintro ⟨e, he, hr⟩
    exact h.exists_made hw he hr

end Emission

/-- Which of the generated names belong to a node: the name of its own table in the queries, that of the
table of the group that it heads, and, if it is a recursion, that of its recursive table, the label under
which the group that it hangs on has a column for it, and the label of its own column that leads back. -/
structure Naming where
  own : NodeId → BoundTable
  table : NodeId → String
  loop : NodeId → String
  label : NodeId → String
  back : NodeId → String

namespace Naming

/-- The tables of all groups, then the recursive ones. -/
def tables (t : QueryTree) (names : Naming) : List String :=
  (t.idsWith Node.isHead).map names.table ++ (t.idsWith Node.isRecursive).map names.loop

/-- The labels under which groups have columns for recursions, then those of the columns that lead back. -/
def labels (t : QueryTree) (names : Naming) : List String :=
  (t.idsWith Node.isRecursive).map names.label ++ (t.idsWith Node.isRecursive).map names.back

/-- No name belongs to two nodes. -/
structure Apart (t : QueryTree) (names : Naming) : Prop where
  aliases : ((List.range t.size).map fun id => (names.own id).qualifier).Nodup
  tables : (names.tables t).Nodup
  labels : (names.labels t).Nodup

/-- A query for the group of a head. It starts from the table of the head. It has the selections of each node
that is headed, from the node's own table, and joins the node's own table to that of its parent. -/
structure Collects (t : QueryTree) (catalog : Catalog) (names : Naming) (head : NodeId)
    (query : Select) : Prop where
  first : query.source.first = some (names.own head)
  columns : query.names.Nodup
  selections : ∀ id node, t.Heads head id → t.node? id = some node → ∀ s ∈ node.selections,
    .labelled (catalog.column s (names.own id)) s.label ∈ query.projection
  joins : ∀ id e p parent, t.Heads head id → t.entries[id]? = some e → e.node.isHead = false →
    e.parent = some p → t.node? p = some parent →
    clauseJoints catalog (⟨parent, names.own p⟩, ⟨e.node, names.own id⟩) ⊆ query.source.joints

/-- The names are those that the statement uses for the nodes. -/
structure UsedIn (t : QueryTree) (catalog : Catalog) (statement : Statement) (names : Naming) :
    Prop where
  relation : ∀ id node, t.node? id = some node → (names.own id).table = catalog.table node.relation
  groups : ∀ head, t.Heads head head → ∃ query,
    statement.cte? (names.table head) = some ⟨names.table head, false, .plain query⟩ ∧
      names.Collects t catalog head query

/-- A recursion `r` along an edge hangs on a node `p` of the group of `c`, and is linked to it. -/
structure Linked (statement : Statement) (names : Naming) (node : Node) (edge : Edge) (track : Track)
    (c p r : NodeId) : Prop where
  /-- The group has the column of the edge from the table of the node, under the label of the recursion. -/
  host : ∃ query, statement.cte? (names.table c) = some ⟨names.table c, false, .plain query⟩ ∧
    .labelled ((names.own p).column edge.linkColumn) (names.label r) ∈ query.projection
  /-- The recursion starts where its own table meets the distinct values under that label. -/
  start : ∃ anchor combinator step links,
    statement.cte? (names.loop r) = some ⟨names.loop r, true, .compound anchor combinator step⟩ ∧
    links ≠ (names.own r).qualifier ∧
    anchor.source = .join .inner (.table (names.own r))
      (Select.toSource ⟨true,
        [.labelled ((BoundTable.named (names.table c)).column (names.label r)) Recursion.linkName],
        .table (.named (names.table c)), none⟩ links)
      (.equal ((names.own r).column track.base) (.column (some links) Recursion.linkName))
  /-- The group of the recursion is joined to it where a vertex is reached, and has its way back. -/
  back : ∃ query below,
    statement.cte? (names.table r) = some ⟨names.table r, false, .plain query⟩ ∧
    query.source = .join .inner below (.table (.named (names.loop r)))
      (.equal ((names.own r).column track.base)
        ((BoundTable.named (names.loop r)).column track.source)) ∧
    below.first = some (names.own r) ∧
    .labelled ((BoundTable.named (names.loop r)).column track.sink) (names.back r) ∈ query.projection
  /-- The final query has the table of the recursion's group once. -/
  once : statement.body.source.tables.count (.named (names.table r)) = 1
  /-- There the two tables are joined on the two labels. -/
  joined : ⟨if node.isOptional then .leftOuter else .inner, some (.named (names.table c)),
    some (.named (names.table r)), .equal ((BoundTable.named (names.table c)).column (names.label r))
      ((BoundTable.named (names.table r)).column (names.back r))⟩ ∈ statement.body.source.joints

/-- The names that an emission has given out. -/
structure GivenBy (setup : Setup) (root : Host) (ms : List Made) (names : Naming) : Prop where
  own : ∀ x ∈ hosts root ms, ∀ p ∈ x.aliased setup.catalog, names.own p.1 = p.2.table
  table : ∀ x ∈ hosts root ms, names.table x.tree.id = x.name
  loop : ∀ m ∈ ms, names.loop m.tree.id = (m.recursion setup).cte.name
  label : ∀ m ∈ ms, names.label m.tree.id = m.tie.column.name
  back : ∀ m ∈ ms, names.back m.tree.id = m.back

end Naming

namespace Emission

variable {t : QueryTree} {setup : Setup} {statement : Statement} {root : Host} {ms : List Made}

theorem exists_naming (h : Emission t setup statement root ms) :
    ∃ names : Naming, names.GivenBy setup root ms := by
  have hmade := h.made_nodup
  have haliased : (((hosts root ms).flatMap (Host.aliased setup.catalog)).map Prod.fst).Nodup := by
    rw [List.map_flatMap,
      List.flatMap_congr fun x hx => (h.sound_hosts x hx).map_aliased.1]
    exact h.ids_hosts.nodup_iff.mpr List.nodup_range
  obtain ⟨own, hown⟩ := exists_values (.named "") Prod.fst (·.2.table) haliased
  obtain ⟨table, htable⟩ := exists_values "" _ Host.name h.keys_nodup
  obtain ⟨loop, hloop⟩ := exists_values "" _ (fun m => (m.recursion setup).cte.name) hmade
  obtain ⟨label, hlabel⟩ := exists_values "" _ (fun m => m.tie.column.name) hmade
  obtain ⟨back, hback⟩ := exists_values "" _ Made.back hmade
  refine ⟨⟨own, table, loop, label, back⟩, ?_, htable, hloop, hlabel, hback⟩
  exact fun x hx p hp => hown p (List.mem_flatMap.mpr ⟨x, hx, hp⟩)

/-- The aliases of the nodes are those of the groups. -/
theorem aliases_perm (h : Emission t setup statement root ms) {names : Naming}
    (hr : names.GivenBy setup root ms) :
    (root.aliases setup.catalog ++ ms.flatMap fun m => m.aliases setup.catalog).Perm
      ((List.range t.size).map fun id => (names.own id).qualifier) := by
  have hqualifiers : ∀ x ∈ hosts root ms,
      x.tree.trunkIds.map (fun id => (names.own id).qualifier) = x.aliases setup.catalog := by
    intro x hx
    obtain ⟨hids, hnodes⟩ := (h.sound_hosts x hx).map_aliased
    rw [Host.aliases, ← hids, ← hnodes, List.map_map, List.map_map]
    exact List.map_congr_left fun p hp => congrArg BoundTable.qualifier (hr.own x hx p hp)
  have hperm := h.ids_hosts.map fun id => (names.own id).qualifier
  rw [List.map_flatMap, List.flatMap_congr hqualifiers, hosts, List.flatMap_cons,
    List.flatMap_map] at hperm
  exact hperm

theorem apart (h : Emission t setup statement root ms) (hw : t.WellFormed) {names : Naming}
    (hr : names.GivenBy setup root ms) : names.Apart t := by
  have hrecursions := h.recursions_perm hw
  have hheads := h.heads_perm hw
  constructor
  · refine (h.aliases_perm hr).nodup_iff.mp ?_
    have hsplit := List.flatMap_append_perm ms (fun m => m.aliases setup.catalog) fun m =>
      [(m.recursion setup).linkLabel, (m.recursion setup).edges.qualifier]
    have hfirst := (hsplit.append_left (root.aliases setup.catalog)).nodup_iff.mpr h.aliases_nodup
    rw [← List.append_assoc] at hfirst
    exact hfirst.of_append_left
  · have hperm := (hheads.map names.table).append (hrecursions.map names.loop)
    refine hperm.nodup_iff.mp ?_
    simp only [List.map_map, Function.comp_def]
    rw [List.map_congr_left hr.table, List.map_congr_left hr.loop, hosts, List.map_cons, List.map_map]
    exact h.tables_nodup
  · have hperm := (hrecursions.map names.label).append (hrecursions.map names.back)
    refine hperm.nodup_iff.mp ?_
    simp only [List.map_map, Function.comp_def]
    rw [List.map_congr_left hr.label, List.map_congr_left hr.back]
    exact h.labels_nodup

/-- A group has all the nodes that its head heads. -/
theorem mem_trunkIds_of_heads (h : Emission t setup statement root ms) (hw : t.WellFormed) {x : Host}
    (hx : x ∈ hosts root ms) {id : NodeId} (hh : t.Heads x.tree.id id) : id ∈ x.tree.trunkIds := by
  obtain ⟨y, hy, hkey, hid⟩ := h.exists_host_of_heads hw hh
  cases List.inj_on_of_nodup_map h.keys_nodup hy hx hkey
  exact hid

/-- The name of a node of a group is its own. -/
theorem own_of_mem (h : Emission t setup statement root ms) {names : Naming}
    (hr : names.GivenBy setup root ms) {x : Host} (hx : x ∈ hosts root ms) {id : NodeId} {y : NamedNode}
    (hp : (id, y) ∈ x.aliased setup.catalog) {node : Node} (hn : t.node? id = some node) :
    y = ⟨node, names.own id⟩ ∧ y.table.table = setup.catalog.table node.relation := by
  obtain ⟨hnode, htable⟩ := (h.sound_hosts x hx).of_mem_aliased hp
  have hown := hr.own x hx (id, y) hp
  cases hnode.symm.trans hn
  rw [hown]
  exact ⟨rfl, htable⟩

theorem exists_aliased (h : Emission t setup statement root ms) {x : Host} (hx : x ∈ hosts root ms)
    {id : NodeId} (hid : id ∈ x.tree.trunkIds) :
    ∃ y ∈ (x.bound setup.catalog).nodes, (id, y) ∈ x.aliased setup.catalog := by
  obtain ⟨hids, hnodes⟩ := (h.sound_hosts x hx).map_aliased
  rw [← hids] at hid
  obtain ⟨⟨_, y⟩, hp, rfl⟩ := List.mem_map.mp hid
  refine ⟨y, ?_, hp⟩
  rw [← hnodes]
  exact List.mem_map_of_mem hp

theorem own_head (h : Emission t setup statement root ms) {names : Naming}
    (hr : names.GivenBy setup root ms) {x : Host} (hx : x ∈ hosts root ms) :
    x.collapsed.table = names.own x.tree.id := by
  have hhead := x.tree.head_mem_aliased setup.catalog x.start.aliases x.start.links
  rw [(relation_madeOf (h.sound_hosts x hx).collapsed).table]
  exact (hr.own x hx _ hhead).symm

theorem collects (h : Emission t setup statement root ms) (hw : t.WellFormed) {names : Naming}
    (hr : names.GivenBy setup root ms) {x : Host} (hx : x ∈ hosts root ms) :
    names.Collects t setup.catalog x.tree.id x.query := by
  have hsound := h.sound_hosts x hx
  have hqueried := h.queried_hosts x hx
  have hmade := relation_madeOf hsound.collapsed
  refine ⟨?_, hqueried.names, ?_, ?_⟩
  · rw [hqueried.first, h.own_head hr hx]
  · intro id node hheads hnode s hs
    obtain ⟨y, hy, hp⟩ := h.exists_aliased hx (h.mem_trunkIds_of_heads hw hx hheads)
    obtain ⟨rfl, -⟩ := h.own_of_mem hr hx hp hnode
    refine hqueried.columns ⟨setup.catalog.column s (names.own id), s.label⟩
      (List.mem_append_left _ ?_)
    rw [hmade.outputs]
    exact List.mem_flatMap.mpr ⟨_, hy, List.mem_map_of_mem hs⟩
  · intro id e p parent hheads he hnot hparent hnode
    have hchild : t.node? id = some e.node := by simp [QueryTree.node?, he]
    -- The node is no head, so it is a step below another of the group, which must be its parent.
    rcases x.tree.mem_steps_of_mem_trunkIds id (h.mem_trunkIds_of_heads hw hx hheads) with rfl | ⟨q, hq⟩
    · obtain ⟨e', he', -, hhead⟩ := h.entry_hosts hw x hx
      cases he.symm.trans he'
      simp [hhead] at hnot
    · obtain ⟨f, hf, hlisted⟩ := hsound.placed.steps (q, id) hq
      have hlisted : id ∈ f.listed false := hlisted
      obtain ⟨e', he', hparent', -⟩ := hw.of_listed hf hlisted
      cases he.symm.trans he'
      cases hparent.symm.trans hparent'
      obtain ⟨j, hj, hfrom, hto⟩ := forall₂_mem_left
        (hsound.placed.nodesOfSteps setup.catalog x.start.aliases x.start.links) hq
      obtain ⟨hfrom, -⟩ := h.own_of_mem hr hx hfrom hnode
      obtain ⟨hto, -⟩ := h.own_of_mem hr hx hto hchild
      rw [← hfrom, ← hto]
      intro joint hjoint
      refine hqueried.joints (hmade.joints.mem_iff.mpr ?_)
      exact List.mem_flatMap.mpr ⟨j, hj, hjoint⟩

theorem usedIn (h : Emission t setup statement root ms) (hw : t.WellFormed) {names : Naming}
    (hr : names.GivenBy setup root ms) : names.UsedIn t setup.catalog statement where
  relation := by
    intro id node hnode
    obtain ⟨x, hx, hid, -⟩ := h.exists_host hw (QueryTree.lt_size_of_node? hnode)
    obtain ⟨y, -, hp⟩ := h.exists_aliased hx hid
    obtain ⟨rfl, htable⟩ := h.own_of_mem hr hx hp hnode
    exact htable
  groups := by
    intro head hheads
    obtain ⟨x, hx, rfl, -⟩ := h.exists_host_of_heads hw hheads
    refine ⟨x.query, ?_, h.collects hw hr hx⟩
    rw [hr.table x hx]
    exact h.cte?_hosts x hx

theorem exists_tied (h : Emission t setup statement root ms) {m : Made} (hm : m ∈ ms) :
    ∃ x ∈ hosts root ms, m.tie ∈ x.ties := by
  have htie := h.tied.mem_iff.mp (List.mem_map_of_mem hm)
  rcases List.mem_append.mp htie with htie | htie
  · exact ⟨root, List.mem_cons_self, htie⟩
  · obtain ⟨n, hn, htie⟩ := List.mem_flatMap.mp htie
    exact ⟨n.toHost, List.mem_cons_of_mem _ (List.mem_map_of_mem hn), htie⟩

/-- The alias of the distinct links that a recursion starts from is not that of its table. -/
theorem linkLabel_ne (h : Emission t setup statement root ms) {m : Made} (hm : m ∈ ms) :
    (m.recursion setup).linkLabel ≠ m.collapsed.table.qualifier := by
  obtain ⟨last, hrun⟩ := h.run
  have hnodup := (m.numbers_given setup).nodup
  have hmade := relation_madeOf (hrun.sound m hm).collapsed
  rw [Made.given, Host.aliases, (m.bound setup.catalog).nodes_eq] at hnodup
  intro heq
  rw [hmade.table] at heq
  simp [BoundBranch.head, heq] at hnodup

/-- The table of a group has the column through which a recursion is tied to it. -/
theorem tie_mem (h : Emission t setup statement root ms) {names : Naming}
    (hr : names.GivenBy setup root ms) {m : Made} (hm : m ∈ ms) {x : Host} (hx : x ∈ hosts root ms)
    (htie : m.tie ∈ x.ties) {parent : Node} (hp : t.node? m.tie.hook.parent = some parent) :
    .labelled ((names.own m.tie.hook.parent).column m.edge.linkColumn) m.tie.column.name ∈
      x.query.projection := by
  obtain ⟨last, hrun⟩ := h.run
  have hsound := hrun.sound m hm
  obtain ⟨y, edge, hy, hedge, hterm⟩ := (h.sound_hosts x hx).tie htie
  rw [← hsound.tree, hsound.edge] at hedge
  cases hedge
  obtain ⟨rfl, -⟩ := h.own_of_mem hr hx hy hp
  have hcolumn := (Host.mem_ties htie).2.2
  have hitem := (h.queried_hosts x hx).columns m.tie.column (List.mem_append_right _ hcolumn)
  rw [Column.item, hterm] at hitem
  exact hitem

theorem cte?_recursion (h : Emission t setup statement root ms) {m : Made} (hm : m ∈ ms) :
    statement.cte? (m.recursion setup).cte.name = some (m.recursion setup).cte := by
  apply h.cte?_eq
  rw [h.ctes]
  exact List.mem_cons_of_mem _ (List.mem_flatMap.mpr ⟨m, hm, List.mem_cons_self⟩)

theorem count_table (h : Emission t setup statement root ms) {m : Made} (hm : m ∈ ms) :
    statement.body.source.tables.count (.named m.name) = 1 := by
  have hnodup := h.tables_nodup.of_append_left
  have hinj : Function.Injective BoundTable.named := fun a b h => congrArg (·.table.name) h
  rw [h.tables]
  apply List.count_eq_one_of_mem
  · simpa [Function.comp_def] using hnodup.map hinj
  · exact List.mem_cons_of_mem _ (List.mem_map_of_mem hm)

theorem linked (h : Emission t setup statement root ms) {names : Naming}
    (hr : names.GivenBy setup root ms) {m : Made} (hm : m ∈ ms) {x : Host} (hx : x ∈ hosts root ms)
    (htie : m.tie ∈ x.ties) {parent : Node} (hp : t.node? m.tie.hook.parent = some parent) :
    names.Linked statement m.tree.node m.edge
      (Track.ofEdge setup.catalog m.tree.node.relation m.tie.hook.recurse.direction m.edge)
      x.tree.id m.tie.hook.parent m.tree.id := by
  obtain ⟨last, hrun⟩ := h.run
  have hsound := hrun.sound m hm
  have hown : m.toHost ∈ hosts root ms := List.mem_cons_of_mem _ (List.mem_map_of_mem hm)
  have hself := h.own_head hr hown
  have htable := hr.table m.toHost hown
  have hloop := hr.loop m hm
  have hlabel := hr.label m hm
  have hback := hr.back m hm
  have hhost : names.table x.tree.id = m.tie.host := (hr.table x hx).trans (Host.mem_ties htie).1.symm
  constructor
  · refine ⟨x.query, ?_, hlabel ▸ h.tie_mem hr hm hx htie hp⟩
    rw [hr.table x hx]
    exact h.cte?_hosts x hx
  · refine ⟨(m.recursion setup).anchor, setup.combinator, (m.recursion setup).step,
      (m.recursion setup).linkLabel, ?_, hself ▸ h.linkLabel_ne hm, ?_⟩
    · rw [hloop]
      exact h.cte?_recursion hm
    · rw [← hself, hhost, hlabel]
      rfl
  · obtain ⟨hsource, hitem⟩ := hsound.query_back
    refine ⟨m.query, m.collapsed.source, ?_, ?_, hself ▸ hsound.first_table.1, ?_⟩
    · rw [htable]
      exact h.cte?_hosts m.toHost hown
    · rw [hsource, ← hself, hloop]
      rfl
    · rw [hloop, hback]
      exact hitem
  · rw [htable]
    exact h.count_table hm
  · rw [h.joints, hhost, hlabel, htable, hback]
    exact List.mem_map_of_mem hm

/-- What was made for a recursion of the tree, and the group with the node that it hangs on. -/
theorem exists_madeAt (h : Emission t setup statement root ms) (hw : t.WellFormed) {r : NodeId}
    {e : Entry} (he : t.entries[r]? = some e) {recurse : Recurse} (hrole : e.node.role = .recurse recurse) :
    ∃ m ∈ ms, ∃ x ∈ hosts root ms, m.tie ∈ x.ties ∧ m.tree.id = r ∧ m.tree.node = e.node ∧
      m.tie.hook.recurse = recurse ∧ e.parent = some m.tie.hook.parent ∧
      t.Heads x.tree.id m.tie.hook.parent ∧ ∃ parent, t.node? m.tie.hook.parent = some parent := by
  obtain ⟨last, hrun⟩ := h.run
  have hrecursive : e.node.isRecursive = true := by rw [Node.isRecursive, hrole]
  obtain ⟨m, hm, rfl⟩ := h.exists_made hw he hrecursive
  have hsound := hrun.sound m hm
  obtain ⟨x, hx, htie⟩ := h.exists_tied hm
  obtain ⟨hplaced, hparent, f, hf, hlisted⟩ :=
    (h.sound_hosts x hx).placed.hooks m.tie.hook (Host.mem_ties htie).2.1
  obtain ⟨e', he', hnode, hup, -⟩ := hplaced.entry hw hf hlisted
  rw [← hsound.tree] at he' hnode
  cases he.symm.trans he'
  have hheads := (h.sound_hosts x hx).placed.heads hw (h.heads_hosts hw x hx) _ hparent
  have hsame : m.tie.hook.recurse = recurse := by
    have hrecurse := hsound.role
    rw [← hnode, hrole] at hrecurse
    cases hrecurse
    rfl
  exact ⟨m, hm, x, hx, htie, rfl, hnode.symm, hsame, hup, hheads.1, f.node, by simp [QueryTree.node?, hf]⟩

end Emission

/-- Recursions are linked to the nodes that they hang on, through the tables of the groups of these nodes. -/
theorem emit_links {settings : Settings} {catalog : Catalog} {tree : QueryTree} {statement : Statement}
    (hb : tree.Built) (h : emit settings catalog tree = .ok statement) :
    ∃ names : Naming, names.Apart tree ∧ names.UsedIn tree catalog statement ∧
      ∀ r e recurse, tree.entries[r]? = some e → e.node.role = .recurse recurse →
        ∃ p c edge, e.parent = some p ∧ tree.Heads c p ∧ catalog.edge e.node = some edge ∧
          names.Linked statement e.node edge
            (Track.ofEdge catalog e.node.relation recurse.direction edge) c p r := by
  obtain ⟨-, combinator, root, ms, -, -, hemission⟩ := exists_emission hb h
  have hw := hb.wellFormed
  obtain ⟨last, hrun⟩ := hemission.run
  obtain ⟨names, hnames⟩ := hemission.exists_naming
  refine ⟨names, hemission.apart hw hnames, hemission.usedIn hw hnames, ?_⟩
  intro r e recurse he hrole
  obtain ⟨m, hm, x, hx, htie, rfl, hnode, rfl, hup, hheads, f, hf⟩ := hemission.exists_madeAt hw he hrole
  rw [← hnode]
  exact ⟨m.tie.hook.parent, x.tree.id, m.edge, hup, hheads, (checked_ok (hrun.sound m hm).edge).1,
    hemission.linked hnames hm hx htie hf⟩

/-- In the sample, the friends of a friend are linked to the friend, which is not the head of its group. -/
theorem emit_links_sample : ∃ (statement : Statement) (names : Naming) (e : Entry) (edge : Edge) (c : NodeId),
    emit .standard sampleCatalog sampleTree = .ok statement ∧
    names.Apart sampleTree ∧ names.UsedIn sampleTree sampleCatalog statement ∧
    sampleTree.entries[2]? = some e ∧
    e.parent = some 1 ∧ sampleTree.Heads c 1 ∧ c ≠ 1 ∧
    names.Linked statement e.node edge (Track.ofEdge sampleCatalog e.node.relation .inward edge) c 1 2 := by
  have hlength : (emit .standard sampleCatalog sampleTree).toOption.map (·.ctes.length) = some 5 := by
    decide +kernel
  have hentries : (sampleTree.entries[2]?.bind fun e =>
      sampleTree.entries[1]?.map fun f => (e.node.role, e.parent, f.node.isHead)) =
      some (.recurse ⟨.inward, "friend", 3, true⟩, some 1, false) := by
    decide +kernel
  obtain ⟨statement, hemit, -⟩ := exists_statement hlength
  simp only [Option.bind_eq_some_iff, Option.map_eq_some_iff, Prod.mk.injEq] at hentries
  obtain ⟨e, he, f, hf, hrole, hup, hhead⟩ := hentries
  obtain ⟨names, hapart, hused, hlinked⟩ := emit_links sampleTree_built hemit
  obtain ⟨p, c, edge, hp, hheads, -, hlinked⟩ := hlinked 2 e _ he hrole
  cases hup.symm.trans hp
  refine ⟨statement, names, e, edge, c, hemit, hapart, hused, he, hp, hheads, ?_, hlinked⟩
  intro hc
  obtain ⟨f', hf', hhead'⟩ := hheads.isHead
  rw [hc, hf] at hf'
  cases hf'
  simp [hhead] at hhead'

end Sql

end GraphPlan
