import GraphPlan.Proofs.Emission.Success
import Mathlib.Data.List.Nodup

namespace GraphPlan

namespace OrderedTree

mutual

/-- The names that a node and its ordinary children, at any depth, put their fields out under. -/
def collected : OrderedTree → List String
  | mk node children _ => node.selections.map Selection.label ++ collectedEach children

def collectedEach : List OrderedTree → List String
  | [] => []
  | t :: ts => collected t ++ collectedEach ts

end

mutual

/-- The recursions that hang on a node and on its ordinary children, at any depth. -/
def hoisted : OrderedTree → List OrderedTree
  | mk _ children recursions => recursions.map Prod.snd ++ hoistedEach children

def hoistedEach : List OrderedTree → List OrderedTree
  | [] => []
  | t :: ts => hoisted t ++ hoistedEach ts

end

mutual

theorem sizeOf_lt_of_mem_hoisted {t r : OrderedTree} (h : r ∈ t.hoisted) : sizeOf r < sizeOf t := by
  cases t with
  | mk node children recursions =>
    rw [mk.sizeOf_spec]
    rcases List.mem_append.mp h with h | h
    · obtain ⟨p, hp, hr⟩ := List.mem_map.mp h
      have hmem := List.sizeOf_lt_of_mem hp
      have hsnd : sizeOf p = 1 + sizeOf p.1 + sizeOf p.2 := Prod.mk.sizeOf_spec ..
      rw [← hr]
      omega
    · have hlt := sizeOf_lt_of_mem_hoistedEach h
      omega

theorem sizeOf_lt_of_mem_hoistedEach {ts : List OrderedTree} {r : OrderedTree}
    (h : r ∈ hoistedEach ts) : sizeOf r < sizeOf ts := by
  cases ts with
  | nil => cases h
  | cons t ts =>
    rw [List.cons.sizeOf_spec]
    rcases List.mem_append.mp h with h | h
    · have hlt := sizeOf_lt_of_mem_hoisted h
      omega
    · have hlt := sizeOf_lt_of_mem_hoistedEach h
      omega

end

/-- What a node collects, then the outputs of each recursion that is hoisted. -/
def outputs (t : OrderedTree) : List String :=
  t.collected ++ t.hoisted.attach.flatMap fun r => r.1.outputs
termination_by sizeOf t
decreasing_by exact sizeOf_lt_of_mem_hoisted r.2

/-- The nodes that head groups: the node itself, then those of each recursion that is hoisted. -/
def heads (t : OrderedTree) : List OrderedTree :=
  t :: t.hoisted.attach.flatMap fun r => r.1.heads
termination_by sizeOf t
decreasing_by exact sizeOf_lt_of_mem_hoisted r.2

theorem outputs_eq (t : OrderedTree) : t.outputs = t.collected ++ t.hoisted.flatMap outputs := by
  rw [outputs]
  simp

theorem heads_eq (t : OrderedTree) : t.heads = t :: t.hoisted.flatMap heads := by
  rw [heads]
  simp

/-- The outputs are what the heads collect. -/
theorem outputs_eq_heads (t : OrderedTree) : t.outputs = t.heads.flatMap collected := by
  have hbelow : t.hoisted.flatMap outputs = t.hoisted.flatMap fun r => r.heads.flatMap collected :=
    List.flatMap_congr fun r hr => outputs_eq_heads r
  rw [outputs_eq, heads_eq, List.flatMap_cons, List.flatMap_assoc, hbelow]
termination_by sizeOf t
decreasing_by exact sizeOf_lt_of_mem_hoisted hr

mutual

theorem collected_group (t : OrderedTree) :
    t.group.trunk.nodes.flatMap (fun n => n.selections.map Selection.label) = t.collected := by
  cases t with
  | mk node children recursions =>
    have hchildren := collectedEach_groups children
    simp [group, Group.trunk, Branch.nodes, collected, hchildren]

theorem collectedEach_groups (ts : List OrderedTree) :
    (Branch.nodesEach ((groups ts).map Group.trunk)).flatMap
      (fun n => n.selections.map Selection.label) = collectedEach ts := by
  cases ts with
  | nil => rfl
  | cons t ts =>
    have ht := collected_group t
    have hts := collectedEach_groups ts
    simp [groups, Branch.nodesEach, collectedEach, ht, hts]

end

theorem recursionGroups_trees (rs : List (Recurse × OrderedTree)) :
    (recursionGroups rs).map Prod.snd = (rs.map Prod.snd).map group := by
  induction rs with
  | nil => rfl
  | cons p rs ih => simp [recursionGroups, ih]

mutual

/-- The recursions that follow a group are the groups of those that are hoisted. -/
theorem hoisted_group (t : OrderedTree) : t.group.recursions.map Prod.snd = t.hoisted.map group := by
  cases t with
  | mk node children recursions =>
    have hchildren := hoistedEach_groups children
    have hown := recursionGroups_trees recursions
    simp only [group, Group.recursions, hoisted, List.map_append, hown, hchildren]

theorem hoistedEach_groups (ts : List OrderedTree) :
    ((groups ts).flatMap Group.recursions).map Prod.snd = (hoistedEach ts).map group := by
  cases ts with
  | nil => rfl
  | cons t ts =>
    have ht := hoisted_group t
    have hts := hoistedEach_groups ts
    simp only [groups, List.flatMap_cons, hoistedEach, List.map_append, ht, hts]

end

end OrderedTree

namespace Sql

/-- The names of the links that the table of a group has: to the recursions that hang on the group, and
back to where it hangs itself. -/
def NamedGroup.links (g : NamedGroup) : List String :=
  g.trunk.hangings.map Prod.snd ++ g.back.toList

/-- A group under its names is the one that a node heads: it puts out what the node collects, and has a
link for each recursion that is hoisted and, if the node is a recursion itself, one back. -/
structure NamedGroup.HeadedBy (g : NamedGroup) (t : OrderedTree) : Prop where
  outputs : g.trunk.selected = t.collected
  links : g.trunk.hangings.map Prod.fst = t.hoisted.map OrderedTree.node
  back : g.back.isSome = t.node.isRecursive

section

variable {joined : Node → Node → Prop}

/-- What hangs on a group heads those that follow it. -/
theorem of_proper {g : Group} (hg : g.Proper joined) :
    g.trunk.hangings = g.recursions.map (·.2.trunk.node) ∧ Group.ProperEach joined g.recursions := by
  cases g with
  | mk trunk recursions => exact ⟨hg.1, hg.2.2⟩

theorem headedBy_group (catalog : Catalog) {t : OrderedTree} (ht : t.group.Proper joined)
    (aliases links : Nat) {back : Option String} (hb : back.isSome = t.node.isRecursive) :
    NamedGroup.HeadedBy ⟨t.group.trunk.bind catalog aliases links, back⟩ t := by
  obtain ⟨hnodes, hfst⟩ := t.group.trunk.nodes_bind catalog aliases links
  obtain ⟨hhang, -⟩ := of_proper ht
  refine ⟨?_, ?_, hb⟩
  · rw [← t.collected_group, ← hnodes, List.flatMap_map]
    rfl
  · have hrecursions := congrArg (List.map fun g => g.trunk.node) t.hoisted_group
    rw [List.map_map, List.map_map] at hrecursions
    rw [hfst, hhang]
    refine hrecursions.trans (List.map_congr_left fun r _ => ?_)
    exact r.group_trunk_node

mutual

/-- The groups of a recursion and of those that follow it are headed as the tree says. -/
theorem headedBy_named (catalog : Catalog) (g : Group) {t : OrderedTree} (ht : t.group = g)
    (hg : g.Proper joined) (hr : g.trunk.node.isRecursive = true) (aliases links : Nat) :
    List.Forall₂ NamedGroup.HeadedBy (g.named catalog aliases links) t.heads := by
  cases g with
  | mk trunk recursions =>
    obtain ⟨-, hrec⟩ := of_proper hg
    have htrees := t.hoisted_group
    have hroot : t.node.isRecursive = true := by
      rw [← t.group_trunk_node, ht]
      exact hr
    rw [← ht] at hg
    have hhead := headedBy_group catalog hg aliases links (show
      (some (linkLabel (links + trunk.linkCount + 1))).isSome = t.node.isRecursive from hroot.symm)
    rw [ht] at hhead htrees
    rw [t.heads_eq, Group.named]
    exact .cons hhead (headedBy_namedEach catalog recursions htrees hrec _ _)

theorem headedBy_namedEach (catalog : Catalog) (gs : List (Recurse × Group)) {ts : List OrderedTree}
    (ht : gs.map Prod.snd = ts.map OrderedTree.group) (hg : Group.ProperEach joined gs)
    (aliases links : Nat) : List.Forall₂ NamedGroup.HeadedBy
      (Group.namedEach catalog aliases links gs) (ts.flatMap OrderedTree.heads) := by
  match gs, ts with
  | [], [] => exact .nil
  | [], _ :: _ => cases ht
  | _ :: _, [] => cases ht
  | (recurse, g) :: gs, t :: ts =>
    obtain ⟨hr, hproper, hrest⟩ := hg
    have hfirst : t.group = g := (List.cons.inj ht).1.symm
    rw [Group.namedEach, List.flatMap_cons]
    exact List.rel_append (headedBy_named catalog g hfirst hproper hr aliases links)
      (headedBy_namedEach catalog gs (List.cons.inj ht).2 hrest _ _)

end

theorem headedBy_parts (catalog : Catalog) {t : OrderedTree} (ht : t.group.Proper joined)
    (hr : t.node.isRecursive = false) :
    List.Forall₂ NamedGroup.HeadedBy (t.group.parts catalog) t.heads := by
  have hhead := headedBy_group catalog ht 0 0 (show (none : Option String).isSome = _ from hr.symm)
  obtain ⟨-, hrec⟩ := of_proper ht
  rw [t.heads_eq, Group.parts]
  exact .cons hhead (headedBy_namedEach catalog _ t.hoisted_group hrec _ _)

end

theorem map_labels {groups : List NamedGroup} {ts : List OrderedTree}
    (h : List.Forall₂ NamedGroup.HeadedBy groups ts) :
    groups.map NamedGroup.labels = List.zipWith (fun t g => t.collected ++ g.links) ts groups := by
  induction h with
  | nil => rfl
  | cons hh _ ih =>
    rw [List.map_cons, List.zipWith_cons_cons, ih, ← hh.outputs]
    rfl

theorem flatMap_selected {groups : List NamedGroup} {ts : List OrderedTree}
    (h : List.Forall₂ NamedGroup.HeadedBy groups ts) :
    groups.flatMap (·.trunk.selected) = ts.flatMap OrderedTree.collected := by
  induction h with
  | nil => rfl
  | cons hh _ ih => rw [List.flatMap_cons, List.flatMap_cons, hh.outputs, ih]

/-- The names that a query puts its terms out under. -/
def Select.names (s : Select) : List (Option String) := s.projection.map Item.label

/-- The columns of a recursive table are named by its anchor. -/
def Body.names : Body → List (Option String)
  | plain s => s.names
  | compound anchor _ _ => anchor.names

/-- The tables that are not recursive: one for each group. -/
def groupTables (ctes : List Cte) : List Cte := ctes.filter fun c => !c.recursive

theorem names_items (columns : List Column) :
    (columns.map Column.item).map Item.label = (columns.map Column.name).map some := by
  simp [Column.item, Item.labelled]

theorem names_query {r : Relation} {node : Node} {query : Select} (h : r.query node = .ok query) :
    query.names = r.names.map some := by
  obtain ⟨-, hquery⟩ := Relation.query_ok h
  rw [hquery]
  exact names_items _

theorem names_finalQuery {r : Relation} {body : Select} (h : r.finalQuery = .ok body) :
    body.names = (r.outputs.map Column.name).map some := by
  unfold Relation.finalQuery at h
  split at h
  · cases h
  · cases h
    exact names_items _

/-- The groups have a table each, after those that were there already, and their outputs are there after
those that were there already. -/
structure Tables (groups : List NamedGroup) (before after : List Cte) (r final : Relation) : Prop where
  names : (groupTables after).map (·.body.names) =
    (groupTables before).map (·.body.names) ++ groups.map (·.labels.map some)
  outputs : final.outputs.map Column.name =
    r.outputs.map Column.name ++ groups.flatMap (·.trunk.selected)

theorem groupTables_append (ctes : List Cte) (name : String) (query : Select) :
    groupTables (ctes ++ [⟨name, false, .plain query⟩]) =
      groupTables ctes ++ [⟨name, false, .plain query⟩] := by
  simp [groupTables]

theorem groupTables_recursion (ctes : List Cte) (recursion : Recursion) :
    groupTables (ctes ++ [recursion.cte]) = groupTables ctes := by
  simp [groupTables, Recursion.cte]

/-- What a run of recursions adds: a table for each of their groups, and the outputs of these. -/
theorem Emitted.tables {setup : Setup} {labels : List String} {r final : Relation}
    {groups : List (Recurse × Group)} {s last : Supply}
    (h : Emitted setup labels r groups s final last) :
    Tables (Group.namedEach setup.catalog s.aliases s.links groups) s.ctes last.ctes r final := by
  induction h with
  | done => constructor <;> simp [Group.namedEach]
  | @next label labels r recurse trunk recursions rest s after last collapsed joined final edge query
      recursion name back hc he hr hb hq hn inner others ihi iho =>
    have hcollapsed := (relation_ends setup _).ok collapsed hc
    have hnames := names_query hq
    rw [enter_names hcollapsed] at hnames
    have hcounts := inner.bindEach_counts
    have hfirst : Group.named setup.catalog s.aliases s.links (.mk trunk recursions) =
        ⟨trunk.bind setup.catalog s.aliases s.links, some back⟩ ::
          Group.namedEach setup.catalog (s.aliases + (trunk.size + 2))
            (s.links + (trunk.linkCount + 1)) recursions := by
      rw [hb]
      rfl
    have hused : (Group.bind setup.catalog s.aliases s.links (.mk trunk recursions)).2 =
        (after.aliases, after.links) := hcounts
    rw [Group.namedEach, hused, hfirst]
    constructor
    · have hrecursion := groupTables_recursion s.ctes recursion
      have hinner := ihi.names
      simp only [Supply.add, Supply.advance] at hinner
      rw [groupTables_append, hrecursion] at hinner
      rw [iho.names, hinner]
      simp only [List.map_append, List.map_cons, List.map_nil, List.append_assoc, List.cons_append,
        List.nil_append, Body.names, hnames]
    · have hinner := ihi.outputs
      have hentered : (collapsed.enter recursion back).outputs.map Column.name =
          (trunk.bind setup.catalog s.aliases s.links).selected := hcollapsed.outputs
      simp only [Supply.add, Supply.advance] at hinner
      rw [Relation.rebind_outputs_names, hentered] at hinner
      rw [iho.outputs]
      simp only [Relation.joinRecursion, Relation.join, List.map_append, hinner, List.flatMap_append,
        List.flatMap_cons, List.append_assoc]

/-- A statement has a table for each group of its tree, and puts out what these put out. -/
theorem emitTree_tables {setup : Setup} {tree : OrderedTree} {statement : Statement}
    (h : emitTree setup tree = .ok statement) :
    (groupTables statement.ctes).map (·.body.names) =
        (tree.group.parts setup.catalog).map (·.labels.map some) ∧
      statement.body.names =
        ((tree.group.parts setup.catalog).flatMap (·.trunk.selected)).map some := by
  obtain ⟨collapsed, query, name, final, last, hc, hq, -, hemitted, hctes, hfinal⟩ :=
    emitted_of_emitTree setup tree statement h
  have hcollapsed := (relation_ends setup _).ok collapsed hc
  have hlabels : collapsed.names =
      (NamedGroup.mk (tree.group.trunk.bind setup.catalog 0 0) none).labels := by
    simp [Relation.names, NamedGroup.labels, hcollapsed.outputs, hcollapsed.links]
  have hnames := names_query hq
  rw [hlabels] at hnames
  obtain ⟨htables, houtputs⟩ := hemitted.tables
  simp only [Supply.add, Supply.advance, Supply.init, Nat.zero_add] at htables houtputs
  rw [groupTables_append] at htables
  rw [Relation.rebind_outputs_names, hcollapsed.outputs] at houtputs
  constructor
  · rw [hctes, htables]
    simp only [groupTables, List.filter_nil, List.nil_append, List.map_cons, List.map_nil,
      List.cons_append, Group.parts, Body.names, hnames]
  · rw [names_finalQuery hfinal, houtputs, Group.parts, List.flatMap_cons]

/-- The groups of a built tree are headed by the nodes that head them in its order, and put out between
them what its nodes select. -/
theorem headedBy_of_built (catalog : Catalog) {tree : QueryTree} (hb : tree.Built) :
    ∃ ordered, tree.ordered = .ok ordered ∧
      List.Forall₂ NamedGroup.HeadedBy (ordered.group.parts catalog) ordered.heads ∧
      ordered.outputs.Perm
        (tree.entries.flatMap fun e => e.node.selections.map Selection.label) := by
  obtain ⟨ordered, ho, hproper, hdivided⟩ := divided_of_built catalog hb
  have hroot : ordered.node.isRecursive = false := by
    have hhead := hdivided.head _ List.mem_cons_self
    rw [Branch.bind_node, ordered.group_trunk_node] at hhead
    exact hhead
  have hheads := headedBy_parts catalog hproper hroot
  have hperm := hdivided.covered.flatMap_right fun n => n.selections.map Selection.label
  have hselected : (ordered.group.parts catalog).flatMap (·.trunk.selected) =
      ((ordered.group.parts catalog).flatMap fun g => g.trunk.nodes.map NamedNode.node).flatMap
        fun n => n.selections.map Selection.label := by
    simp only [BoundBranch.selected, List.flatMap_assoc, List.flatMap_map]
  rw [← hselected, List.flatMap_map, flatMap_selected hheads, ← ordered.outputs_eq_heads] at hperm
  exact ⟨ordered, ho, hheads, hperm⟩

/-- No output is lost, put out twice or moved: those of a statement are those of its tree, in order, and
the table of each group has what its head collects before its links. -/
theorem emit_outputs {settings : Settings} {catalog : Catalog} {tree : QueryTree}
    {statement : Statement} (hb : tree.Built) (h : emit settings catalog tree = .ok statement) :
    ∃ ordered, tree.ordered = .ok ordered ∧
      statement.body.names = ordered.outputs.map some ∧
      List.Forall₂ NamedGroup.HeadedBy (ordered.group.parts catalog) ordered.heads ∧
      (groupTables statement.ctes).map (·.body.names) =
        (List.zipWith (fun head group => head.collected ++ group.links) ordered.heads
          (ordered.group.parts catalog)).map (·.map some) ∧
      ordered.outputs.Perm
        (tree.entries.flatMap fun e => e.node.selections.map Selection.label) := by
  obtain ⟨ordered, ho, hheads, hperm⟩ := headedBy_of_built catalog hb
  obtain ⟨-, combinator, ordered', -, ho', hemit⟩ := emitTree_of_emit h
  cases ho.symm.trans ho'
  obtain ⟨htables, hbody⟩ := emitTree_tables hemit
  rw [flatMap_selected hheads, ← ordered.outputs_eq_heads] at hbody
  refine ⟨ordered, ho, hbody, hheads, ?_, hperm⟩
  rw [← map_labels hheads, List.map_map]
  exact htables

theorem emit_outputs_sample : ∃ statement ordered,
    emit .standard sampleCatalog sampleTree = .ok statement ∧ sampleTree.ordered = .ok ordered ∧
    (groupTables statement.ctes).map (·.body.names) =
      [[some "name", some "__link_1"], [some "last_name", some "__link_2", some "__link_3"],
        [some "again_name", some "__link_4"]] ∧
    ordered.outputs = ["name", "last_name", "again_name"] ∧ ordered.heads.length = 3 := by
  have hnames : ((emit .standard sampleCatalog sampleTree).toOption.map fun statement =>
      ((groupTables statement.ctes).map (·.body.names), statement.body.names)) =
      some ([[some "name", some "__link_1"], [some "last_name", some "__link_2", some "__link_3"],
        [some "again_name", some "__link_4"]], [some "name", some "last_name", some "again_name"]) := by
    decide +kernel
  obtain ⟨statement, hemit, hnames⟩ := exists_statement hnames
  obtain ⟨htables, hbody⟩ := Prod.mk.inj hnames
  obtain ⟨ordered, ho, houtputs, hheads, hgroups, -⟩ := emit_outputs sampleTree_built hemit
  have hlength := congrArg List.length hgroups
  rw [htables, List.length_map, List.length_zipWith, ← hheads.length_eq, Nat.min_self,
    hheads.length_eq] at hlength
  rw [hbody] at houtputs
  have hsame : ["name", "last_name", "again_name"] = ordered.outputs :=
    List.map_injective_iff.mpr (fun _ _ h => Option.some.inj h) houtputs
  exact ⟨statement, ordered, hemit, ho, htables, hsame.symm, hlength.symm⟩

/-- Each group has its names apart. Between groups nothing is checked, so a statement has its names apart
just where no two groups put out the same name. -/
theorem emit_names_nodup_iff {settings : Settings} {catalog : Catalog} {tree : QueryTree}
    {statement : Statement} (hb : tree.Built) (h : emit settings catalog tree = .ok statement) :
    (∀ c ∈ groupTables statement.ctes, c.body.names.Nodup) ∧
    ∃ ordered, tree.ordered = .ok ordered ∧ (∀ t ∈ ordered.heads, t.collected.Nodup) ∧
      (statement.body.names.Nodup ↔
        ordered.heads.Pairwise fun t u => List.Disjoint t.collected u.collected) := by
  obtain ⟨ordered, ho, hheads, -⟩ := headedBy_of_built catalog hb
  obtain ⟨_, ho', hproper, -⟩ := divided_of_built catalog hb
  cases ho.symm.trans ho'
  obtain ⟨-, combinator, ordered', -, ho', hemit⟩ := emitTree_of_emit h
  cases ho.symm.trans ho'
  obtain ⟨htables, hbody⟩ := emitTree_tables hemit
  have hpasses := ((emitTree_ends _ ordered hproper).ok statement hemit).1
  have hinj : Function.Injective (some : String → Option String) := fun _ _ h => Option.some.inj h
  have hcollected : ∀ t ∈ ordered.heads, t.collected.Nodup := by
    intro t ht
    obtain ⟨g, hg, hheaded⟩ := forall₂_mem_left hheads.flip ht
    rw [← hheaded.outputs]
    exact (List.nodup_append.mp (hpasses g hg).distinct).1
  refine ⟨fun c hc => ?_, ordered, ho, hcollected, ?_⟩
  · have hmem := List.mem_map_of_mem (f := fun c : Cte => c.body.names) hc
    rw [htables] at hmem
    obtain ⟨g, hg, hnames⟩ := List.mem_map.mp hmem
    rw [← hnames]
    exact List.Nodup.map hinj (hpasses g hg).distinct
  · rw [hbody, flatMap_selected hheads, List.nodup_map_iff hinj, List.nodup_flatMap]
    exact ⟨fun hn => hn.2, fun hd => ⟨hcollected, hd⟩⟩

/-- An animal and its kin at up to two hops, both put out under one name. -/
def namesakes : QueryTree :=
  (QueryTree.start (.root "Animal") "animal").after
    [.recursion 0 ((Location.root "Animal").descend "out_Kin") "animal" ⟨.outward, "kin", 2, false⟩,
      .select 0 ⟨"name", "name"⟩, .select 1 ⟨"name", "name"⟩]

theorem emit_namesakes : ((emit .standard sampleCatalog namesakes).toOption.map
    fun statement => statement.body.names) = some [some "name", some "name"] := by
  decide +kernel

theorem emit_names_nodup_iff_namesakes : ∃ statement ordered, namesakes.Built ∧
    emit .standard sampleCatalog namesakes = .ok statement ∧ namesakes.ordered = .ok ordered ∧
    (∀ t ∈ ordered.heads, t.collected.Nodup) ∧
    ¬ ordered.heads.Pairwise fun t u => List.Disjoint t.collected u.collected := by
  have hemitted := emit_namesakes
  have hb : namesakes.Built := (QueryTree.Built.start ..).after _
  cases hemit : emit .standard sampleCatalog namesakes with
  | error e => simp [hemit, Except.toOption] at hemitted
  | ok statement =>
    simp only [hemit, Except.toOption, Option.map_some, Option.some.injEq] at hemitted
    obtain ⟨-, ordered, ho, hcollected, hiff⟩ := emit_names_nodup_iff hb hemit
    refine ⟨statement, ordered, hb, rfl, ho, hcollected, fun hd => ?_⟩
    have hnodup := hiff.mpr hd
    rw [hemitted] at hnodup
    exact absurd hnodup (by decide)

/-- A name that is put out inside a recursion and outside of it is put out twice. -/
theorem emit_repeats_name : ∃ statement, emit .standard sampleCatalog namesakes = .ok statement ∧
    ¬ statement.body.names.Nodup := by
  have hemitted := emit_namesakes
  cases hemit : emit .standard sampleCatalog namesakes with
  | error e => simp [hemit, Except.toOption] at hemitted
  | ok statement =>
    simp only [hemit, Except.toOption, Option.map_some, Option.some.injEq] at hemitted
    refine ⟨statement, rfl, ?_⟩
    rw [hemitted]
    decide

end Sql

end GraphPlan
