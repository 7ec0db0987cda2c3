import GraphPlan.Proofs.Emission.Hooks
import GraphPlan.Proofs.Emission.Makeup

/-!
The history of an emission: the recursions of the tree in the order in which they were emitted, each with all
that was made for it. A recursion leaves the supply with two tables more, and the next one goes on from there
(`Run`), whether it hangs on the group of the one before or on a group further up. What holds of a whole
emission is shown by going along its history.
-/

namespace GraphPlan

namespace Numbered

open Sql

/-- The nodes of the first group under their names, by id. -/
def aliased (catalog : Catalog) (aliases links : Nat) (n : Numbered) : List (NodeId × NamedNode) :=
  n.trunkIds.zip (n.erase.group.trunk.bind catalog aliases links).nodes

def aliasedEach (catalog : Catalog) (aliases links : Nat) (ns : List Numbered) :
    List (NodeId × NamedNode) :=
  (trunkIdsEach ns).zip (BoundBranch.nodesEach
    (Branch.bindAll catalog aliases links (ns.map fun n => n.erase.group.trunk)))

section

variable {t : QueryTree} (catalog : Catalog)

/-- The node is that of the id, and its name is one for the table of its relation. -/
def Names (t : QueryTree) (catalog : Catalog) (id : NodeId) (x : NamedNode) : Prop :=
  t.node? id = some x.node ∧ x.table.table = catalog.table x.node.relation

mutual

theorem Placed.names {n : Numbered} (h : n.Placed t) (aliases links : Nat) :
    List.Forall₂ (Names t catalog) n.trunkIds
      (n.erase.group.trunk.bind catalog aliases links).nodes := by
  cases n with
  | mk id node children recursions =>
    obtain ⟨⟨e, he, hnode, -⟩, hplaced, -⟩ := h
    rw [trunk_erase, trunkIds, Branch.bind, BoundBranch.nodes]
    refine .cons ⟨?_, rfl⟩ (PlacedEach.names hplaced aliases links)
    simp [QueryTree.node?, he, hnode]

theorem PlacedEach.names {ns : List Numbered} (h : PlacedEach t ns) (aliases links : Nat) :
    List.Forall₂ (Names t catalog) (trunkIdsEach ns) (BoundBranch.nodesEach
      (Branch.bindAll catalog aliases links (ns.map fun n => n.erase.group.trunk))) := by
  cases ns with
  | nil => exact .nil
  | cons n ns =>
    rw [trunkIdsEach, List.map_cons, Branch.bindAll, BoundBranch.nodesEach]
    exact List.rel_append (Placed.names h.1 aliases links) (PlacedEach.names h.2 _ _)

end

theorem PlacedEach.aliasedEach_cons {n : Numbered} {ns : List Numbered} (h : PlacedEach t (n :: ns))
    (aliases links : Nat) : aliasedEach catalog aliases links (n :: ns) =
      n.aliased catalog aliases links ++ aliasedEach catalog (aliases + n.erase.group.trunk.size)
        (links + n.erase.group.trunk.linkCount) ns := by
  have hlength := (Placed.names catalog h.1 aliases links).length_eq
  rw [aliasedEach, trunkIdsEach, List.map_cons, Branch.bindAll, BoundBranch.nodesEach,
    List.zip_append hlength]
  rfl

/-- What hangs on a named node hangs on the node of its id. -/
def Hung (pairs : List (NodeId × NamedNode)) (k : Hook) (h : NamedNode × Node × String) : Prop :=
  (k.parent, h.1) ∈ pairs ∧ h.2.1 = k.tree.node

theorem forall₂_labelLinks (x : NamedNode) (id : NodeId) (used : Nat)
    (recursions : List (Recurse × Numbered)) {pairs : List (NodeId × NamedNode)}
    (hx : (id, x) ∈ pairs) :
    List.Forall₂ (Hung pairs) (recursions.map fun r => ⟨id, r.1, r.2⟩)
      ((labelLinks used (recursions.map (·.2.node))).map fun h => (x, h)) := by
  induction recursions generalizing used with
  | nil => exact .nil
  | cons r recursions ih => exact .cons ⟨hx, rfl⟩ (ih (used + 1))

mutual

theorem Placed.hung {n : Numbered} (h : n.Placed t) (aliases links : Nat) :
    List.Forall₂ (Hung (n.aliased catalog aliases links)) n.hooks
      (n.erase.group.trunk.bind catalog aliases links).hung := by
  cases n with
  | mk id node children recursions =>
    have hbelow := PlacedEach.hung h.2.1 aliases links
    rw [aliased, trunk_erase, trunkIds, hooks, Branch.bind, BoundBranch.hung, BoundBranch.nodes,
      List.zip_cons_cons]
    refine List.rel_append (forall₂_labelLinks _ id _ recursions List.mem_cons_self) ?_
    exact hbelow.imp fun k x hk => ⟨List.mem_cons_of_mem _ hk.1, hk.2⟩

theorem PlacedEach.hung {ns : List Numbered} (h : PlacedEach t ns) (aliases links : Nat) :
    List.Forall₂ (Hung (aliasedEach catalog aliases links ns)) (hooksEach ns) (BoundBranch.hungEach
      (Branch.bindAll catalog aliases links (ns.map fun n => n.erase.group.trunk))) := by
  cases ns with
  | nil => exact .nil
  | cons n ns =>
    have hfirst := Placed.hung h.1 aliases links
    have hrest := PlacedEach.hung h.2 (aliases + n.erase.group.trunk.size)
      (links + n.erase.group.trunk.linkCount)
    rw [h.aliasedEach_cons, hooksEach, List.map_cons, Branch.bindAll, BoundBranch.hungEach]
    refine List.rel_append (hfirst.imp fun k x hk => ?_) (hrest.imp fun k x hk => ?_)
    · exact ⟨List.mem_append_left _ hk.1, hk.2⟩
    · exact ⟨List.mem_append_right _ hk.1, hk.2⟩

end

/-- The nodes of a way are those of the ids of a step. -/
def NodesOfStep (pairs : List (NodeId × NamedNode)) (s : NodeId × NodeId) (j : NamedNode × NamedNode) : Prop :=
  (s.1, j.1) ∈ pairs ∧ (s.2, j.2) ∈ pairs

theorem NodesOfStep.mono {pairs more : List (NodeId × NamedNode)} (hp : pairs ⊆ more) {s : NodeId × NodeId}
    {j : NamedNode × NamedNode} (h : NodesOfStep pairs s j) : NodesOfStep more s j :=
  ⟨hp h.1, hp h.2⟩

/-- The first node of a group has the name that its parent is joined to. -/
theorem head_mem_aliased (n : Numbered) (aliases links : Nat) :
    (n.id, (n.erase.group.trunk.bind catalog aliases links).head) ∈
      n.aliased catalog aliases links := by
  cases n with
  | mk id node children recursions =>
    rw [aliased, trunk_erase, trunkIds, Branch.bind, BoundBranch.nodes, List.zip_cons_cons]
    exact List.mem_cons_self

theorem PlacedEach.heads_aliased {ns : List Numbered} (h : PlacedEach t ns) (aliases links : Nat) :
    List.Forall₂ (fun n b => (n.id, b.head) ∈ aliasedEach catalog aliases links ns) ns
      (Branch.bindAll catalog aliases links (ns.map fun n => n.erase.group.trunk)) := by
  induction ns generalizing aliases links with
  | nil => exact .nil
  | cons n ns ih =>
    have hrest := ih h.2 (aliases + n.erase.group.trunk.size) (links + n.erase.group.trunk.linkCount)
    rw [h.aliasedEach_cons, List.map_cons, Branch.bindAll]
    refine .cons (List.mem_append_left _ (head_mem_aliased catalog n aliases links)) ?_
    exact hrest.imp fun m b hm => List.mem_append_right _ hm

mutual

theorem Placed.nodesOfSteps {n : Numbered} (h : n.Placed t) (aliases links : Nat) :
    List.Forall₂ (NodesOfStep (n.aliased catalog aliases links)) n.steps
      (n.erase.group.trunk.bind catalog aliases links).joints := by
  cases n with
  | mk id node children recursions =>
    have hheads := PlacedEach.heads_aliased catalog h.2.1 aliases links
    have hbelow := PlacedEach.nodesOfSteps h.2.1 aliases links
    rw [aliased, trunk_erase, trunkIds, steps, Branch.bind, BoundBranch.joints, BoundBranch.nodes,
      List.zip_cons_cons]
    refine List.rel_append ?_ (hbelow.imp fun s j hs => hs.mono (List.subset_cons_self ..))
    rw [List.forall₂_map_left_iff, List.forall₂_map_right_iff]
    exact hheads.imp fun c b hc => ⟨List.mem_cons_self, List.mem_cons_of_mem _ hc⟩

theorem PlacedEach.nodesOfSteps {ns : List Numbered} (h : PlacedEach t ns) (aliases links : Nat) :
    List.Forall₂ (NodesOfStep (aliasedEach catalog aliases links ns)) (stepsEach ns) (BoundBranch.jointsEach
      (Branch.bindAll catalog aliases links (ns.map fun n => n.erase.group.trunk))) := by
  cases ns with
  | nil => exact .nil
  | cons n ns =>
    have hfirst := Placed.nodesOfSteps h.1 aliases links
    have hrest := PlacedEach.nodesOfSteps h.2 (aliases + n.erase.group.trunk.size)
      (links + n.erase.group.trunk.linkCount)
    rw [h.aliasedEach_cons, stepsEach, List.map_cons, Branch.bindAll, BoundBranch.jointsEach]
    refine List.rel_append (hfirst.imp fun s j hs => ?_) (hrest.imp fun s j hs => ?_)
    · exact hs.mono (List.subset_append_left ..)
    · exact hs.mono (List.subset_append_right ..)

end

end

end Numbered

namespace Sql

/-- A recursion, and the column of the table of a group that it is linked to the group through. -/
structure Tie where
  host : String
  hook : Hook
  column : Column

/-- A group that has been made a table of. -/
structure Host where
  tree : Numbered
  start : Supply
  collapsed : Relation
  name : String
  query : Select

namespace Host

variable (h : Host)

def trunk : Branch := h.tree.erase.group.trunk

def bound (catalog : Catalog) : BoundBranch := h.trunk.bind catalog h.start.aliases h.start.links

theorem bound_node (catalog : Catalog) : (h.bound catalog).node = h.tree.node := by
  rw [bound, Branch.bind_node, trunk, OrderedTree.group_trunk_node, Numbered.erase_node]

def cte : Cte := ⟨h.name, false, .plain h.query⟩

/-- The recursions that hang on the group, each with its own link. -/
def ties : List Tie :=
  (h.tree.hooks.zip h.collapsed.links).map fun x => ⟨h.name, x.1, x.2⟩

/-- The group of the entries collapses, and its table has all columns of the collapsed relation. -/
structure Sound (t : QueryTree) (setup : Setup) : Prop where
  placed : h.tree.Placed t
  collapsed : (h.bound setup.catalog).relation setup = .ok h.collapsed

end Host

/-- A recursion with the table of its group and what its group is tied to. -/
structure Made extends Host where
  tie : Tie
  edge : Edge

namespace Made

variable (setup : Setup) (m : Made)

def recursion : Recursion :=
  (m.start.advance m.trunk.size m.trunk.linkCount).recursion setup m.tie.hook.recurse
    ⟨.named m.tie.host, m.tie.column.name⟩ m.tree.node m.collapsed.table m.edge

/-- The name of its link back. -/
def back : String := linkLabel (m.start.links + m.trunk.linkCount + 1)

def ctes : List Cte := [(m.recursion setup).cte, m.cte]

/-- The supply once it has been emitted. -/
def after : Supply :=
  ((m.start.advance (m.trunk.size + 2) (m.trunk.linkCount + 1)).add (m.recursion setup).cte).add m.cte

/-- Where its group is joined to the group that it hangs on. -/
def joint : Joint :=
  ⟨joinKind m.tree.node, some (.named m.tie.host), some (.named m.name),
    .equal ((BoundTable.named m.tie.host).column m.tie.column.name)
      ((BoundTable.named m.name).column m.back)⟩

/-- It was made as its tie and its supply say. -/
structure Sound (t : QueryTree) : Prop extends m.toHost.Sound t setup where
  role : m.tree.node.role = .recurse m.tie.hook.recurse
  tree : m.tree = m.tie.hook.tree
  edge : Edge.checked m.tree.node (setup.catalog.edge m.tree.node) = .ok m.edge
  query : (m.collapsed.enter (m.recursion setup) m.back).query m.tree.node = .ok m.query
  name : m.name =
    numbered (setup.settings.cteStem ++ "_" ++ m.tree.node.relation) (m.start.tables + 2)

end Made

/-- Recursions emitted one after the other, from one supply to another. -/
inductive Run (t : QueryTree) (setup : Setup) : Supply → List Made → Supply → Prop where
  | done (s : Supply) : Run t setup s [] s
  | step {m : Made} {ms : List Made} {last : Supply} (hm : m.Sound setup t)
      (rest : Run t setup (m.after setup) ms last) : Run t setup m.start (m :: ms) last

section

variable {t : QueryTree} {setup : Setup}

theorem Run.append {s mid last : Supply} {ms ns : List Made} (h : Run t setup s ms mid)
    (h' : Run t setup mid ns last) : Run t setup s (ms ++ ns) last := by
  induction h with
  | done => exact h'
  | step hm _ ih => exact .step hm (ih h')

theorem Run.sound {s last : Supply} {ms : List Made} (h : Run t setup s ms last) :
    ∀ m ∈ ms, m.Sound setup t := by
  induction h with
  | done => simp
  | step hm _ ih =>
    intro n hn
    rcases List.mem_cons.mp hn with rfl | hn
    · exact hm
    · exact ih n hn

theorem Run.ctes {s last : Supply} {ms : List Made} (h : Run t setup s ms last) :
    last.ctes = s.ctes ++ ms.flatMap (Made.ctes setup) := by
  induction h with
  | done => simp
  | step hm _ ih =>
    rw [ih]
    simp [Made.after, Made.ctes, Supply.add, Supply.advance, List.append_assoc]

/-- A group has as many links as there are recursions that hang on it. -/
theorem Host.Sound.links_length {h : Host} (hs : h.Sound t setup) :
    h.tree.hooks.length = h.collapsed.links.length :=
  (hs.placed.hung setup.catalog h.start.aliases h.start.links).length_eq.trans
    (relation_madeOf hs.collapsed).links.length_eq

theorem Host.Sound.map_ties {h : Host} (hs : h.Sound t setup) :
    h.ties.map Tie.hook = h.tree.hooks ∧ h.ties.map Tie.column = h.collapsed.links := by
  have hlength := hs.links_length
  unfold Host.ties
  rw [List.map_map, List.map_map]
  exact ⟨List.map_fst_zip (Nat.le_of_eq hlength), List.map_snd_zip (Nat.le_of_eq hlength.symm)⟩

theorem Host.mem_ties {h : Host} {x : Tie} (hx : x ∈ h.ties) :
    x.host = h.name ∧ x.hook ∈ h.tree.hooks ∧ x.column ∈ h.collapsed.links := by
  obtain ⟨p, hp, rfl⟩ := List.mem_map.mp hx
  exact ⟨rfl, (List.of_mem_zip hp).1, (List.of_mem_zip hp).2⟩

end

/-- The groups of recursions that are to be emitted. -/
def Tie.groups (ties : List Tie) : List (Recurse × Group) :=
  ties.map fun x => (x.hook.recurse, x.hook.tree.erase.group)

/-- What has been made of the recursions of a group, which are tied to its relation, and of all below them:
a table for each recursion and one for its group, in the order of the tree. Every recursion but those at the
start is tied to one that was made before it. -/
structure History (t : QueryTree) (setup : Setup) (ties : List Tie) (s last : Supply)
    (r final : Relation) (ms : List Made) : Prop where
  run : Run t setup s ms last
  trees : ms.map (·.tree.erase) = ties.flatMap (·.hook.tree.erase.heads)
  tied : (ms.map Made.tie).Perm (ties ++ ms.flatMap (·.ties))
  ids : (ms.flatMap (·.tree.trunkIds)).Perm (ties.flatMap (·.hook.tree.ids))
  named : Group.namedEach setup.catalog s.aliases s.links (Tie.groups ties) =
    ms.map fun m => ⟨m.bound setup.catalog, some m.back⟩
  used : (Group.bindEach setup.catalog s.aliases s.links (Tie.groups ties)).2 =
    (last.aliases, last.links)
  tables : final.source.tables = r.source.tables ++ ms.map fun m => .named m.name
  joints : final.source.joints = r.source.joints ++ ms.map Made.joint

section

variable {t : QueryTree} {setup : Setup}

theorem history_nil (s : Supply) (r : Relation) : History t setup [] s s r r [] where
  run := .done s
  trees := rfl
  tied := .refl _
  ids := .refl _
  named := rfl
  used := rfl
  tables := by simp
  joints := by simp

/-- The group of a recursion, with what hangs on it. -/
theorem Host.Sound.group_eq {h : Host} (hs : h.Sound t setup) :
    h.tree.erase.group = .mk h.trunk (Tie.groups h.ties) := by
  have hhooks := hs.map_ties.1
  have hrecursions := h.tree.recursions_hooks
  rw [← hhooks, List.map_map] at hrecursions
  cases hg : h.tree.erase.group with
  | mk trunk recursions =>
    rw [hg] at hrecursions
    rw [Host.trunk, hg]
    exact congrArg (Group.mk trunk) hrecursions

/-- The first recursion, then those that hang on its group, then the others. -/
theorem History.cons {m : Made} {rest : List Tie} {after last : Supply} {r joined final : Relation}
    {inner others : List Made} (hm : m.Sound setup t)
    (hr : r.table = .named m.tie.host) (hf : r.source.first = some (.named m.tie.host))
    (hj : joined.table = .named m.name) (hjf : joined.source.first = some (.named m.name))
    (hi : History t setup m.ties (m.after setup) after
      ((m.collapsed.enter (m.recursion setup) m.back).rebind (.named m.name)) joined inner)
    (ho : History t setup rest after last
      (r.joinRecursion m.tie.column.name m.tree.node joined m.back) final others) :
    History t setup (m.tie :: rest) m.start last r final (m :: (inner ++ others)) := by
  have hhooks := hm.map_ties.1
  have hgroups : Tie.groups (m.tie :: rest) =
      (m.tie.hook.recurse, .mk m.trunk (Tie.groups m.ties)) :: Tie.groups rest := by
    rw [Tie.groups, List.map_cons, ← hm.tree, hm.group_eq]
    rfl
  have hused : (Group.bind setup.catalog m.start.aliases m.start.links
      (.mk m.trunk (Tie.groups m.ties))).2 = (after.aliases, after.links) := hi.used
  constructor
  · exact .step hm (hi.run.append ho.run)
  · have hheads : m.tree.erase.heads = m.tree.erase :: inner.map (·.tree.erase) := by
      rw [OrderedTree.heads_eq, Numbered.hoisted_erase, ← hhooks, hi.trees, List.map_map,
        List.flatMap_map]
      rfl
    rw [List.map_cons, List.map_append, ho.trees, List.flatMap_cons, ← hm.tree, hheads]
    rfl
  · classical
    refine List.perm_iff_count.mpr fun x => ?_
    have hinner := hi.tied.count_eq x
    have hothers := ho.tied.count_eq x
    simp only [List.map_cons, List.map_append, List.flatMap_cons, List.flatMap_append,
      List.cons_append, List.count_cons, List.count_append] at hinner hothers ⊢
    omega
  · have hown := m.tree.trunkIds_perm
    rw [← hhooks, List.flatMap_map] at hown
    refine List.perm_iff_count.mpr fun x => ?_
    have hcount := hown.count_eq x
    have hinner := hi.ids.count_eq x
    have hothers := ho.ids.count_eq x
    rw [List.flatMap_cons (f := fun y : Tie => y.hook.tree.ids), ← hm.tree]
    simp only [List.flatMap_cons, List.flatMap_append, List.count_append] at hcount hinner hothers ⊢
    omega
  · have hinner := hi.named
    have hothers := ho.named
    rw [hgroups, Group.namedEach, hused, hothers, List.map_cons, List.map_append, ← hinner]
    rfl
  · rw [hgroups, Group.bindEach, hused]
    exact ho.used
  · have hinner := hi.tables
    rw [ho.tables, List.map_cons, List.map_append]
    simp only [Relation.joinRecursion, Relation.join, Source.tables, hinner, Relation.rebind,
      List.append_assoc, List.cons_append, List.nil_append]
  · have hinner := hi.joints
    rw [ho.joints, List.map_cons, List.map_append]
    simp only [Relation.joinRecursion, Relation.join, Source.joints, hinner, hr, hf, hj, hjf,
      Relation.rebind, List.append_assoc, List.cons_append, List.nil_append, Made.joint]

/-- A run of recursions keeps the table of its relation, which its source goes on to start with. -/
theorem Emitted.keeps {labels : List String} {r final : Relation} {groups : List (Recurse × Group)}
    {s last : Supply} (h : Emitted setup labels r groups s final last) :
    final.table = r.table ∧ final.source.first = r.source.first := by
  induction h with
  | done => exact ⟨rfl, rfl⟩
  | next _ _ _ _ _ _ _ _ _ iho => exact iho

/-- Whatever has been emitted has a history. -/
theorem Emitted.exists_history {labels : List String} {r final : Relation}
    {groups : List (Recurse × Group)} {s last : Supply}
    (h : Emitted setup labels r groups s final last) {ties : List Tie} {host : String}
    (hl : labels = ties.map (·.column.name)) (hg : groups = Tie.groups ties)
    (hh : ∀ x ∈ ties, x.host = host) (hp : ∀ x ∈ ties, x.hook.InRow t)
    (hr : r.table = .named host) (hf : r.source.first = some (.named host)) :
    ∃ ms, History t setup ties s last r final ms := by
  induction h generalizing ties host with
  | done labels r s =>
    have hnil : ties = [] := List.map_eq_nil_iff.mp hg.symm
    exact ⟨[], hnil ▸ history_nil s r⟩
  | @next label labels r recurse trunk recursions rest s after last collapsed joined final edge query
      recursion name back hc he hrec hb hq hn inner others ihi iho =>
    cases ties with
    | nil => cases hg
    | cons x ties =>
      have hplaced := hp x List.mem_cons_self
      have hhost : x.host = host := hh x List.mem_cons_self
      simp only [Tie.groups, List.map_cons, List.cons.injEq, Prod.mk.injEq] at hl hg
      obtain ⟨⟨rfl, hgroup⟩, rfl⟩ := hg
      obtain ⟨rfl, rfl⟩ := hl
      let m : Made := ⟨⟨x.hook.tree, s, collapsed, name, query⟩, x, edge⟩
      have htrunk : m.trunk = trunk := congrArg Group.trunk hgroup.symm
      have hnode : trunk.node = m.tree.node := by
        rw [← htrunk, Host.trunk, OrderedTree.group_trunk_node, Numbered.erase_node]
      have hrecursion : recursion = m.recursion setup := by
        rw [hrec, hr, ← hhost, hnode, ← htrunk]
        rfl
      have hback : back = m.back := by
        rw [hb, ← htrunk]
        rfl
      rw [hnode] at he hq hn
      rw [hrecursion, hback] at hq
      have hm : m.Sound setup t := by
        refine ⟨⟨hplaced.tree, ?_⟩, hplaced.role, rfl, he, hq, hn⟩
        rw [Host.bound, htrunk]
        exact hc
      have hrecursions : recursions = Tie.groups m.ties := by
        have hparts := hgroup.trans hm.group_eq
        exact (Group.mk.inj hparts).2
      have hlabels : collapsed.links.map Column.name = m.ties.map (·.column.name) := by
        have hcolumns := hm.map_ties.2
        rw [← hcolumns, List.map_map]
        rfl
      have hafter : ((s.advance (trunk.size + 2) (trunk.linkCount + 1)).add recursion.cte).add
          ⟨name, false, .plain query⟩ = m.after setup := by
        rw [hrecursion, ← htrunk]
        rfl
      obtain ⟨innerMade, hinner⟩ := ihi hlabels hrecursions (fun y hy => (Host.mem_ties hy).1)
        (fun y hy => (hplaced.tree.hooks y.hook (Host.mem_ties hy).2.1).1) rfl rfl
      obtain ⟨hjtable, hjfirst⟩ := inner.keeps
      obtain ⟨otherMade, hother⟩ := iho rfl rfl (fun y hy => hh y (List.mem_cons_of_mem x hy))
        (fun y hy => hp y (List.mem_cons_of_mem x hy)) hr hf
      rw [hafter, hrecursion, hback] at hinner
      rw [hback, hnode] at hother
      exact ⟨_, History.cons hm (hhost ▸ hr) (hhost ▸ hf) hjtable hjfirst hinner hother⟩

end

/-- The supply once the group of the root has its table. -/
def Host.settled (h : Host) : Supply := (h.start.advance h.trunk.size h.trunk.linkCount).add h.cte

/-- All that a statement is made of: the group of the root, and the recursions in the order in which they
were emitted. Between them the groups have every node of the tree once, and every recursion is tied to one of
them. -/
structure Emission (t : QueryTree) (setup : Setup) (statement : Statement) (root : Host)
    (ms : List Made) : Prop where
  sound : root.Sound t setup
  lays : root.tree.Lays t
  start : root.start = .init
  name : root.name = numbered (setup.settings.cteStem ++ "_" ++ root.tree.node.relation) 1
  query : root.collapsed.query root.tree.node = .ok root.query
  run : ∃ last, Run t setup root.settled ms last
  trees : root.tree.erase.heads = root.tree.erase :: ms.map (·.tree.erase)
  tied : (ms.map Made.tie).Perm (root.ties ++ ms.flatMap (·.ties))
  ids : (root.tree.trunkIds ++ ms.flatMap (·.tree.trunkIds)).Perm (List.range t.size)
  parts : root.tree.erase.group.parts setup.catalog =
    ⟨root.bound setup.catalog, none⟩ :: ms.map fun m => ⟨m.bound setup.catalog, some m.back⟩
  ctes : statement.ctes = root.cte :: ms.flatMap (Made.ctes setup)
  tables : statement.body.source.tables = .named root.name :: ms.map fun m => .named m.name
  joints : statement.body.source.joints = ms.map Made.joint

theorem finalQuery_source {r : Relation} {body : Select} (h : r.finalQuery = .ok body) :
    body.source = r.source := by
  unfold Relation.finalQuery at h
  split at h
  · cases h
  · cases h
    rfl

theorem emission_of_emitTree {t : QueryTree} (hw : t.WellFormed) {n : Numbered} (hn : n.Lays t)
    {setup : Setup} {statement : Statement} (h : emitTree setup n.erase = .ok statement) :
    ∃ root ms, root.tree = n ∧ Emission t setup statement root ms := by
  obtain ⟨collapsed, query, name, final, last, hc, hq, hname, hemitted, hctes, hbody⟩ :=
    emitted_of_emitTree setup n.erase statement h
  rw [OrderedTree.group_trunk_node, Numbered.erase_node] at hq hname
  let root : Host := ⟨n, .init, collapsed, name, query⟩
  have hroot : root.Sound t setup := ⟨hn.placed, hc⟩
  obtain ⟨hhooks, hcolumns⟩ := hroot.map_ties
  have hlabels : collapsed.links.map Column.name = root.ties.map (·.column.name) := by
    rw [← hcolumns, List.map_map]
    rfl
  have hgroup := hroot.group_eq
  have hrecursions : n.erase.group.recursions = Tie.groups root.ties := congrArg Group.recursions hgroup
  obtain ⟨ms, hms⟩ := hemitted.exists_history hlabels hrecursions (fun x hx => (Host.mem_ties hx).1)
    (fun x hx => (hn.placed.hooks x.hook (Host.mem_ties hx).2.1).1) rfl rfl
  have hsource := finalQuery_source hbody
  have hstart : (Supply.init.advance n.erase.group.trunk.size n.erase.group.trunk.linkCount).add
      ⟨name, false, .plain query⟩ = root.settled := rfl
  rw [hstart] at hms
  refine ⟨root, ms, rfl, hroot, hn, rfl, hname, hq, ⟨last, hms.run⟩, ?_, hms.tied, ?_, ?_, ?_, ?_, ?_⟩
  · rw [OrderedTree.heads_eq, Numbered.hoisted_erase, ← hhooks, hms.trees, List.map_map,
      List.flatMap_map]
    rfl
  · have hids := hn.ids_perm hw
    have hown := n.trunkIds_perm
    rw [← hhooks, List.flatMap_map] at hown
    exact ((hms.ids.append_left _).trans hown).trans hids
  · have hnamed := hms.named
    rw [← hrecursions] at hnamed
    simp only [Host.settled, Supply.add, Supply.advance, Supply.init, Nat.zero_add, root] at hnamed
    rw [← hnamed]
    rfl
  · rw [hctes, hms.run.ctes]
    rfl
  · rw [hsource, hms.tables]
    rfl
  · rw [hsource, hms.joints]
    rfl

/-- The statement of a built tree has a history. -/
theorem exists_emission {settings : Settings} {catalog : Catalog} {tree : QueryTree}
    {statement : Statement} (hb : tree.Built) (h : emit settings catalog tree = .ok statement) :
    settings.check = .ok () ∧ ∃ combinator root ms,
      Combinator.ofName (settings.combinator.getD catalog.combinator) = .ok combinator ∧
      tree.ordered = .ok root.tree.erase ∧
      Emission tree ⟨catalog, settings, combinator⟩ statement root ms := by
  obtain ⟨hcheck, combinator, ordered, hcombinator, hordered, hemit⟩ := emitTree_of_emit h
  have hw := hb.wellFormed
  obtain ⟨n, hn⟩ := Numbered.exists_lays hw
  cases hordered.symm.trans (hn.ordered_eq hw)
  obtain ⟨root, ms, rfl, hemission⟩ := emission_of_emitTree hw hn hemit
  exact ⟨hcheck, combinator, root, ms, hcombinator, hordered, hemission⟩

/-- Groups are headed by the recursions of the tree, apart from that of the root. -/
theorem Divided.recursive {joined : Node → Node → Prop} {groups : List NamedGroup} {nodes : List Node}
    (hd : Divided joined groups nodes) (hj : ∀ a b, joined a b → b.isRecursive = false) :
    ((groups.map (·.trunk.node)).filter Node.isRecursive).Perm (nodes.filter Node.isRecursive) := by
  have hgroup : ∀ g ∈ groups, (g.trunk.nodes.map NamedNode.node).filter Node.isRecursive =
      [g.trunk.node].filter Node.isRecursive := by
    intro g hg
    have hothers : (g.trunk.nodes.tail.map NamedNode.node).filter Node.isRecursive = [] := by
      refine List.filter_eq_nil_iff.mpr fun n hn => ?_
      obtain ⟨x, hx, rfl⟩ := List.mem_map.mp hn
      obtain ⟨j, hjoint, rfl⟩ := List.mem_map.mp ((hd.others g hg).mem_iff.mpr hx)
      simp [hj _ _ (hd.joints g hg j hjoint)]
    rw [g.trunk.nodes_eq, List.map_cons, List.filter_cons, hothers, List.filter_cons, List.filter_nil]
    rfl
  have hcovered := hd.covered.filter Node.isRecursive
  rw [List.filter_flatMap] at hcovered
  rw [List.flatMap_congr hgroup] at hcovered
  rw [← List.flatMap_pure_eq_map, List.filter_flatMap]
  exact hcovered

/-- The root of the tree heads the group of the root. -/
theorem Emission.root_role {t : QueryTree} {setup : Setup} {statement : Statement} {root : Host}
    {ms : List Made} (h : Emission t setup statement root ms) (hw : t.WellFormed) :
    root.tree.node.role = .root := by
  obtain ⟨e, he, hrole, -⟩ := hw.root
  obtain ⟨e', he', hnode⟩ := h.lays.placed.lookup
  rw [h.lays.root, he] at he'
  cases he'
  rw [← hnode, hrole]

/-- The recursions of the tree are those that were emitted. -/
theorem Emission.nodes_perm {t : QueryTree} {setup : Setup} {statement : Statement} {root : Host}
    {ms : List Made} (h : Emission t setup statement root ms) (hb : t.Built) :
    (ms.map (·.tree.node)).Perm ((t.entries.map Entry.node).filter Node.isRecursive) := by
  obtain ⟨ordered, ho, -, hd⟩ := divided_of_built setup.catalog hb
  cases ho.symm.trans (h.lays.ordered_eq hb.wellFormed)
  rw [h.parts] at hd
  obtain ⟨last, hrun⟩ := h.run
  have hroot : root.tree.node.isRecursive = false := by
    rw [Node.isRecursive, h.root_role hb.wellFormed]
  have hmade : ∀ n ∈ ms.map (·.tree.node), n.isRecursive = true := by
    intro n hn
    obtain ⟨m, hm, rfl⟩ := List.mem_map.mp hn
    have hrole := (hrun.sound m hm).role
    simp [Node.isRecursive, hrole]
  have hordinary : ∀ a b, t.HasChild a b → b.isRecursive = false := by
    intro a b hab
    obtain ⟨_, _, _, _, _, _, _, _, hb⟩ := hab
    exact hb
  have hperm := hd.recursive hordinary
  simp only [List.map_cons, List.map_map, Function.comp_def, Host.bound_node] at hperm
  rw [List.filter_cons_of_neg (by simp [hroot]), List.filter_eq_self.mpr hmade] at hperm
  exact hperm

end Sql

end GraphPlan
