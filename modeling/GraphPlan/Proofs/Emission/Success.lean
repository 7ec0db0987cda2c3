import GraphPlan.Proofs.Emission.Numbering
import GraphPlan.Proofs.Emission.Parts

namespace GraphPlan.Sql

namespace NamedGroup

/-- What a group needs for its table. -/
structure Passes (catalog : Catalog) (g : NamedGroup) : Prop where
  collapses : g.trunk.Collapses catalog
  edge : g.back ≠ none →
    ∃ edge, Edge.checked g.trunk.node (catalog.edge g.trunk.node) = .ok edge
  distinct : g.labels.Nodup

/-- Why a group has no table. -/
inductive Fails (catalog : Catalog) (g : NamedGroup) : Error → Prop
  | stuck {e : Error} (h : g.trunk.Stuck catalog e) : Fails catalog g e
  | edge {e : Error} (hb : g.back ≠ none)
    (he : Edge.checked g.trunk.node (catalog.edge g.trunk.node) = .error e) : Fails catalog g e
  | repeated {name : String} (h : 2 ≤ g.labels.count name) :
    Fails catalog g (EmitFault.repeatedName g.trunk.node.location name).error

end NamedGroup

theorem count_of_firstRepeated {seen names : List String} {name : String}
    (h : firstRepeated seen names = some name) :
    name ∈ names ∧ (name ∈ seen ∨ 2 ≤ names.count name) := by
  induction names generalizing seen with
  | nil => cases h
  | cons n names ih =>
    rw [firstRepeated] at h
    split at h
    · next hseen =>
      cases h
      exact ⟨List.mem_cons_self, .inl (by simpa using hseen)⟩
    · obtain ⟨hm, hc⟩ := ih h
      refine ⟨List.mem_cons_of_mem n hm, ?_⟩
      have hpos : 1 ≤ names.count name := List.count_pos_iff.mpr hm
      rcases hc with hc | hc
      · rcases List.mem_cons.mp hc with rfl | hc
        · right
          rw [List.count_cons_self]
          omega
        · exact .inl hc
      · right
        exact Nat.le_trans hc List.count_le_count_cons

/-- The names of the columns of a relation. -/
def Relation.names (r : Relation) : List String := (r.outputs ++ r.links).map Column.name

theorem query_ends (r : Relation) (node : Node) :
    Ends (r.query node) (fun _ => r.names.Nodup)
      fun e => r.names = [] ∧ e = (EmitFault.noColumns node.location).error ∨
        ∃ name, 2 ≤ r.names.count name ∧ e = (EmitFault.repeatedName node.location name).error := by
  refine ⟨fun query h => (nodup_of_firstRepeated (Relation.query_ok h).1).1, fun e h => ?_⟩
  unfold Relation.query at h
  dsimp only at h
  split at h
  · next hnil =>
    cases h
    exact .inl ⟨by rw [Relation.names, hnil]; rfl, rfl⟩
  · next name hname _ =>
    cases h
    obtain ⟨-, hc⟩ := count_of_firstRepeated hname
    exact .inr ⟨name, hc.resolve_left (by simp), rfl⟩
  · cases h

@[simp] theorem Relation.rebind_outputs_names (r : Relation) (table : BoundTable) :
    (r.rebind table).outputs.map Column.name = r.outputs.map Column.name := by
  simp [Relation.rebind]

/-- What has been emitted: these groups, up to these numbers, and after the outputs that were there
already those of the groups. -/
structure Emits (catalog : Catalog) (groups : List NamedGroup) (used : Nat × Nat)
    (before : List String) (final : Relation) (last : Supply) : Prop where
  passes : ∀ g ∈ groups, g.Passes catalog
  used : used = (last.aliases, last.links)
  outputs : final.outputs.map Column.name = before ++ groups.flatMap (·.trunk.selected)

/-- The table of a recursion's group has the columns of the group. -/
theorem enter_names {collapsed : Relation} {catalog : Catalog} {b : BoundBranch}
    (h : collapsed.CollapsedFrom catalog b) (recursion : Recursion) (back : String) :
    (collapsed.enter recursion back).names = (NamedGroup.mk b (some back)).labels := by
  simp [Relation.names, Relation.enter, Relation.join, NamedGroup.labels, h.outputs, h.links]

section

variable {joined : Node → Node → Prop}

mutual

/-- A recursion is emitted with all that follow it, or one of them fails. -/
theorem emitRecursion_ends (setup : Setup) (link : Link) (recurse : Recurse) (g : Group)
    (hg : g.Proper joined) (s : Supply) :
    Ends (emitRecursion setup link recurse g s)
      (fun p => Emits setup.catalog (g.named setup.catalog s.aliases s.links)
        (g.bind setup.catalog s.aliases s.links).2 [] p.1.1 p.2)
      fun e => ∃ n ∈ g.named setup.catalog s.aliases s.links, n.Fails setup.catalog e := by
  cases g with
  | mk trunk recursions =>
    obtain ⟨hhang, -, hrec⟩ := hg
    simp only [emitRecursion, Emit.bind_run, collapse_run, recursiveClause_run, materialize_run,
      Group.named, Group.bind]
    have hlength := Branch.hangings_length setup.catalog s.aliases s.links hhang
    have hnode : (trunk.bind setup.catalog s.aliases s.links).node = trunk.node :=
      Branch.bind_node ..
    generalize trunk.bind setup.catalog s.aliases s.links = b at hlength hnode ⊢
    rw [← hnode]
    refine Ends.map_bind ((relation_ends setup b).mono (fun _ h => h) fun e he =>
      ⟨_, List.mem_cons_self, .stuck he⟩) fun collapsed hs => ?_
    refine Ends.map_bind ((ends_self _).mono (fun _ h => h) fun e he =>
      ⟨_, List.mem_cons_self, .edge (by simp) he⟩) fun edge hedge => ?_
    refine Ends.map_bind ((query_ends _ _).mono (fun _ h => h) fun e he => ?_) fun query hnodup => ?_
    · rw [enter_names hs] at he
      rcases he with ⟨hnil, -⟩ | ⟨name, hc, rfl⟩
      · simp [NamedGroup.labels] at hnil
      · exact ⟨_, List.mem_cons_self, .repeated hc⟩
    · rw [enter_names hs] at hnodup
      have hlabels : (collapsed.links.map Column.name).length = recursions.length := by
        rw [hs.links, List.length_map, hlength]
      refine Ends.bind ((emitRecursions_ends setup _ _ recursions hrec hlabels _).mono
        (fun _ h => h) fun e he => ?_) fun p hp => ?_
      · obtain ⟨n, hm, hf⟩ := he
        exact ⟨n, List.mem_cons_of_mem _ hm, hf⟩
      · refine ends_ok ⟨fun n hm => ?_, hp.used, ?_⟩
        · rcases List.mem_cons.mp hm with rfl | hm
          · exact ⟨hs.collapses, fun _ => ⟨edge, hedge⟩, hnodup⟩
          · exact hp.passes n hm
        · rw [hp.outputs, Relation.rebind_outputs_names]
          simp [Relation.enter, Relation.join, hs.outputs]
          rfl

theorem emitRecursions_ends (setup : Setup) (labels : List String) (r : Relation)
    (groups : List (Recurse × Group)) (hg : Group.ProperEach joined groups)
    (hl : labels.length = groups.length) (s : Supply) :
    Ends (emitRecursions setup labels r groups s)
      (fun p => Emits setup.catalog (Group.namedEach setup.catalog s.aliases s.links groups)
        (Group.bindEach setup.catalog s.aliases s.links groups).2 (r.outputs.map Column.name) p.1 p.2)
      fun e => ∃ n ∈ Group.namedEach setup.catalog s.aliases s.links groups,
        n.Fails setup.catalog e := by
  cases groups with
  | nil =>
    simp only [emitRecursions, Emit.pure_run]
    exact ends_ok ⟨by simp [Group.namedEach], rfl, by simp [Group.namedEach]⟩
  | cons p rest =>
    obtain ⟨recurse, g⟩ := p
    obtain ⟨-, hproper, hrest⟩ := hg
    cases labels with
    | nil => cases hl
    | cons label labels =>
      simp only [emitRecursions, Emit.bind_run, Group.namedEach, Group.bindEach]
      refine Ends.bind ((emitRecursion_ends setup ⟨r.table, label⟩ recurse g hproper s).mono
        (fun _ h => h) fun e he => ?_) fun p hp => ?_
      · obtain ⟨n, hm, hf⟩ := he
        exact ⟨n, List.mem_append_left _ hm, hf⟩
      · rw [hp.used]
        refine (emitRecursions_ends setup labels _ rest hrest (Nat.succ.inj hl) p.2).mono
          (fun q hq => ?_) fun e he => ?_
        · refine ⟨fun n hm => ?_, hq.used, ?_⟩
          · rcases List.mem_append.mp hm with hm | hm
            · exact hp.passes n hm
            · exact hq.passes n hm
          · rw [hq.outputs]
            simp [Relation.joinRecursion, Relation.join, hp.outputs]
        · obtain ⟨n, hm, hf⟩ := he
          exact ⟨n, List.mem_append_right _ hm, hf⟩

end

/-- The groups of a tree pass or one of them fails, unless there is nothing to emit. -/
theorem emitRoot_ends (setup : Setup) (g : Group) (hg : g.Proper joined) :
    Ends (emitRoot setup g .init)
      (fun p => (∀ n ∈ g.parts setup.catalog, n.Passes setup.catalog) ∧
        p.1.outputs.map Column.name = (g.parts setup.catalog).flatMap (·.trunk.selected))
      fun e => (∃ n ∈ g.parts setup.catalog, n.Fails setup.catalog e) ∨
        (g.parts setup.catalog).flatMap (·.trunk.selected) = [] ∧
          e = (EmitFault.noColumns g.trunk.node.location).error := by
  cases g with
  | mk trunk recursions =>
    obtain ⟨hhang, -, hrec⟩ := hg
    simp only [emitRoot, Emit.bind_run, collapse_run, materialize_run, Group.parts, Group.trunk,
      Group.recursions]
    have hinit : Supply.init.aliases = 0 ∧ Supply.init.links = 0 := ⟨rfl, rfl⟩
    rw [hinit.1, hinit.2]
    have hlength := Branch.hangings_length setup.catalog 0 0 hhang
    have hnode : (trunk.bind setup.catalog 0 0).node = trunk.node := Branch.bind_node ..
    generalize trunk.bind setup.catalog 0 0 = b at hlength hnode ⊢
    rw [← hnode]
    refine Ends.map_bind ((relation_ends setup b).mono (fun _ h => h) fun e he =>
      .inl ⟨_, List.mem_cons_self, .stuck he⟩) fun collapsed hs => ?_
    have hnames : collapsed.names = (NamedGroup.mk b none).labels := by
      simp [Relation.names, NamedGroup.labels, hs.outputs, hs.links]
    refine Ends.map_bind ((query_ends _ _).mono (fun _ h => h) fun e he => ?_) fun query hnodup => ?_
    · rw [hnames] at he
      rcases he with ⟨hnil, rfl⟩ | ⟨name, hc, rfl⟩
      · right
        -- Nothing hangs on the group, so it is the only one.
        simp only [NamedGroup.labels, List.append_eq_nil_iff, List.map_eq_nil_iff] at hnil
        obtain ⟨hselected, hnone, -⟩ := hnil
        have hrecursions : recursions = [] := by
          rw [hnone] at hlength
          exact List.length_eq_zero_iff.mp hlength.symm
        simp [hselected, hrecursions, Group.namedEach]
      · exact .inl ⟨_, List.mem_cons_self, .repeated hc⟩
    · rw [hnames] at hnodup
      have hlabels : (collapsed.links.map Column.name).length = recursions.length := by
        rw [hs.links, List.length_map, hlength]
      have hzero : Group.namedEach setup.catalog (0 + trunk.size) (0 + trunk.linkCount) recursions =
          Group.namedEach setup.catalog trunk.size trunk.linkCount recursions := by
        rw [Nat.zero_add, Nat.zero_add]
      rw [← hzero]
      refine (emitRecursions_ends setup _ _ recursions hrec hlabels _).mono (fun p hp => ?_)
        fun e he => ?_
      · refine ⟨fun n hm => ?_, ?_⟩
        · rcases List.mem_cons.mp hm with rfl | hm
          · exact ⟨hs.collapses, fun h => absurd rfl h, hnodup⟩
          · exact hp.passes n hm
        · rw [hp.outputs, Relation.rebind_outputs_names, hs.outputs]
          rfl
      · obtain ⟨n, hm, hf⟩ := he
        exact .inl ⟨n, List.mem_cons_of_mem _ hm, hf⟩

theorem finalQuery_ends (r : Relation) :
    Ends r.finalQuery (fun _ => r.outputs.map Column.name ≠ [])
      fun e => r.outputs.map Column.name = [] ∧ e = EmitFault.noOutputs.error := by
  unfold Relation.finalQuery
  split
  · next hnil => exact ends_error ⟨by rw [hnil]; rfl, rfl⟩
  · next hcons => exact ends_ok (by simpa using hcons)

theorem emitTree_ends (setup : Setup) (tree : OrderedTree) (hg : tree.group.Proper joined) :
    Ends (emitTree setup tree)
      (fun _ => (∀ n ∈ tree.group.parts setup.catalog, n.Passes setup.catalog) ∧
        (tree.group.parts setup.catalog).flatMap (·.trunk.selected) ≠ [])
      fun e => (∃ n ∈ tree.group.parts setup.catalog, n.Fails setup.catalog e) ∨
        (tree.group.parts setup.catalog).flatMap (·.trunk.selected) = [] ∧
          (e = (EmitFault.noColumns tree.node.location).error ∨ e = EmitFault.noOutputs.error) := by
  unfold emitTree
  refine Ends.bind ((emitRoot_ends setup tree.group hg).mono (fun _ h => h) fun e he => ?_)
    fun p hp => ?_
  · rcases he with he | ⟨hnil, rfl⟩
    · exact .inl he
    · rw [tree.group_trunk_node]
      exact .inr ⟨hnil, .inl rfl⟩
  · obtain ⟨hpasses, houtputs⟩ := hp
    rw [← houtputs]
    refine Ends.bind ((finalQuery_ends p.1).mono (fun _ h => h) fun e he => ?_) fun body hbody =>
      ends_ok ⟨hpasses, hbody⟩
    exact .inr ⟨he.1, .inr he.2⟩

end

/-- All that a statement needs, given the groups of the tree. -/
structure Emittable (settings : Settings) (catalog : Catalog) (tree : QueryTree)
    (groups : List NamedGroup) : Prop where
  checked : settings.check = .ok ()
  combinator : settings.combinator.getD catalog.combinator = "union" ∨
    settings.combinator.getD catalog.combinator = "union_all"
  edges : ∀ entry ∈ tree.entries, entry.node.isRecursive = true →
    ∃ edge, Edge.checked entry.node (catalog.edge entry.node) = .ok edge
  conditions : ∀ g ∈ groups, ∀ x ∈ g.trunk.nodes, ∀ predicate ∈ x.node.predicates,
    ∃ term, catalog.condition x.node predicate x.table = .ok term
  joins : ∀ g ∈ groups, ∀ j ∈ g.trunk.joints, arrivals catalog j.1 j.2 = 1
  selection : ∃ entry ∈ tree.entries, entry.node.selections ≠ []
  distinct : ∀ g ∈ groups, g.labels.Nodup

/-- The errors that an emission can end with, each with what is wrong. -/
inductive Refusal (settings : Settings) (catalog : Catalog) (tree : QueryTree)
    (groups : List NamedGroup) : Error → Prop
  | settings {e : Error} (h : settings.check = .error e) : Refusal settings catalog tree groups e
  | combinator {name : String} (hn : name = settings.combinator.getD catalog.combinator)
    (h : name ≠ "union" ∧ name ≠ "union_all") :
    Refusal settings catalog tree groups (.combinator name)
  | edge {entry : Entry} {e : Error} (hm : entry ∈ tree.entries)
    (hr : entry.node.isRecursive = true)
    (h : Edge.checked entry.node (catalog.edge entry.node) = .error e) :
    Refusal settings catalog tree groups e
  | condition {g : NamedGroup} {x : NamedNode} {predicate : Expr} {e : Error} (hg : g ∈ groups)
    (hx : x ∈ g.trunk.nodes) (hp : predicate ∈ x.node.predicates)
    (h : catalog.condition x.node predicate x.table = .error e) :
    Refusal settings catalog tree groups e
  | join {g : NamedGroup} {j : NamedNode × NamedNode} {fault : EmitFault} (hg : g ∈ groups)
    (hj : j ∈ g.trunk.joints) (h : Unjoined catalog j.1 j.2 fault) :
    Refusal settings catalog tree groups fault.error
  | noColumns {root : Entry} (hr : tree.entries[QueryTree.rootId]? = some root)
    (h : ∀ entry ∈ tree.entries, entry.node.selections = []) :
    Refusal settings catalog tree groups (EmitFault.noColumns root.node.location).error
  | noOutputs (h : ∀ entry ∈ tree.entries, entry.node.selections = []) :
    Refusal settings catalog tree groups EmitFault.noOutputs.error
  | repeatedName {g : NamedGroup} {name : String} (hg : g ∈ groups)
    (h : 2 ≤ g.labels.count name) : Refusal settings catalog tree groups
      (EmitFault.repeatedName g.trunk.node.location name).error

section

variable {settings : Settings} {catalog : Catalog} {tree : QueryTree} {groups : List NamedGroup}

theorem Refusal.not_emittable {e : Error} (h : Refusal settings catalog tree groups e) :
    ¬ Emittable settings catalog tree groups := by
  intro he
  cases h with
  | settings h => cases h.symm.trans he.checked
  | combinator hn h =>
    subst hn
    exact he.combinator.elim h.1 h.2
  | edge hm hr h =>
    obtain ⟨edge, hedge⟩ := he.edges _ hm hr
    cases h.symm.trans hedge
  | condition hg hx hp h =>
    obtain ⟨term, hterm⟩ := he.conditions _ hg _ hx _ hp
    cases h.symm.trans hterm
  | join hg hj h => exact h.arrivals_ne (he.joins _ hg _ hj)
  | noColumns _ h | noOutputs h =>
    obtain ⟨entry, hm, hs⟩ := he.selection
    exact hs (h entry hm)
  | @repeatedName g name hg h =>
    have hone := List.nodup_iff_count.mp (he.distinct g hg) name
    omega

/-- A group that fails is a reason for refusal of the tree. -/
theorem Refusal.of_fails (hd : Divided tree.HasChild groups (tree.entries.map Entry.node)) {g : NamedGroup}
    (hg : g ∈ groups) {e : Error} (h : g.Fails catalog e) :
    Refusal settings catalog tree groups e := by
  have hentry : ∀ n ∈ tree.entries.map Entry.node, n.isRecursive = true →
      Edge.checked n (catalog.edge n) = .error e → Refusal settings catalog tree groups e := by
    intro n hm hr hedge
    obtain ⟨entry, hentry, rfl⟩ := List.mem_map.mp hm
    exact .edge hentry hr hedge
  cases h with
  | stuck h =>
    cases h with
    | edge hm hedge =>
      obtain ⟨hn, hr⟩ := hd.hangings g hg _ hm
      exact hentry _ hn hr hedge
    | condition hx hp h => exact .condition hg hx hp h
    | join hj h => exact .join hg hj h
  | edge hb hedge =>
    have hr : g.trunk.node.isRecursive = true := by
      rw [hd.head g hg]
      exact Option.isSome_iff_ne_none.mpr hb
    refine hentry _ (hd.covered.mem_iff.mp ?_) hr hedge
    have hhead : g.trunk.head ∈ g.trunk.nodes := by
      rw [g.trunk.nodes_eq]
      exact List.mem_cons_self
    exact List.mem_flatMap.mpr ⟨g, hg, List.mem_map.mpr ⟨g.trunk.head, hhead, rfl⟩⟩
  | repeated h => exact .repeatedName hg h

/-- The nodes of a tree select what its groups put out. -/
theorem selected_iff (hd : Divided tree.HasChild groups (tree.entries.map Entry.node)) :
    groups.flatMap (·.trunk.selected) = [] ↔ ∀ entry ∈ tree.entries, entry.node.selections = [] := by
  have hgroups : groups.flatMap (·.trunk.selected) = [] ↔
      ∀ n ∈ groups.flatMap (fun g => g.trunk.nodes.map NamedNode.node), n.selections = [] := by
    simp only [BoundBranch.selected, List.flatMap_eq_nil_iff, List.map_eq_nil_iff, List.mem_flatMap,
      List.mem_map]
    constructor
    · rintro h n ⟨g, hg, x, hx, rfl⟩
      exact h g hg x hx
    · intro h g hg x hx
      exact h x.node ⟨g, hg, x, hx, rfl⟩
  have hnodes : (∀ n ∈ groups.flatMap (fun g => g.trunk.nodes.map NamedNode.node),
      n.selections = []) ↔ ∀ n ∈ tree.entries.map Entry.node, n.selections = [] :=
    forall_congr' fun n => by rw [hd.covered.mem_iff]
  rw [hgroups, hnodes, List.forall_mem_map]

/-- Where every group passes, every recursion of the tree has an edge to follow: it heads a group. -/
theorem edges_of_passes (hd : Divided tree.HasChild groups (tree.entries.map Entry.node))
    (hp : ∀ g ∈ groups, g.Passes catalog) : ∀ entry ∈ tree.entries, entry.node.isRecursive = true →
      ∃ edge, Edge.checked entry.node (catalog.edge entry.node) = .ok edge := by
  intro entry hm hr
  have hnode := hd.covered.mem_iff.mpr (List.mem_map_of_mem hm)
  obtain ⟨g, hg, hnode⟩ := List.mem_flatMap.mp hnode
  obtain ⟨x, hx, hxe⟩ := List.mem_map.mp hnode
  rw [← hxe] at hr ⊢
  rw [g.trunk.nodes_eq] at hx
  rcases List.mem_cons.mp hx with rfl | hx
  · have hhead : g.trunk.node.isRecursive = true := hr
    rw [hd.head g hg] at hhead
    exact (hp g hg).edge (Option.isSome_iff_ne_none.mp hhead)
  · obtain ⟨j, hj, rfl⟩ := List.mem_map.mp ((hd.others g hg).mem_iff.mpr hx)
    obtain ⟨_, _, _, _, _, _, _, _, hordinary⟩ := hd.joints g hg j hj
    cases hordinary.symm.trans hr

end

theorem ofName_ends (name : String) :
    Ends (Combinator.ofName name) (fun _ => name = "union" ∨ name = "union_all")
      fun e => (name ≠ "union" ∧ name ≠ "union_all") ∧ e = .combinator name := by
  unfold Combinator.ofName
  split
  · next h => exact ends_ok (.inl h)
  · next h =>
    split
    · next h' => exact ends_ok (.inr h')
    · next h' => exact ends_error ⟨⟨h, h'⟩, rfl⟩

theorem emit_ends (settings : Settings) (catalog : Catalog) {tree : QueryTree} (hw : tree.WellFormed)
    {ordered : OrderedTree} (ho : tree.ordered = .ok ordered) (hproper : ordered.group.Proper tree.HasChild)
    (hd : Divided tree.HasChild (ordered.group.parts catalog) (tree.entries.map Entry.node)) :
    Ends (emit settings catalog tree)
      (fun _ => Emittable settings catalog tree (ordered.group.parts catalog))
      (Refusal settings catalog tree (ordered.group.parts catalog)) := by
  unfold emit
  refine Ends.bind ((ends_self _).mono (fun _ h => h) fun e he => .settings he) fun _ hchecked => ?_
  refine Ends.bind ((ofName_ends _).mono (fun _ h => h) fun e he => ?_) fun combinator hname => ?_
  · obtain ⟨hn, rfl⟩ := he
    exact .combinator rfl hn
  rw [hw.checkShape_ok, ho]
  refine (emitTree_ends ⟨catalog, settings, combinator⟩ ordered hproper).mono (fun _ hok => ?_)
    fun e he => ?_
  · obtain ⟨hpasses, hselected⟩ := hok
    refine ⟨hchecked, hname, edges_of_passes hd hpasses, fun g hg => (hpasses g hg).collapses.conditions,
      fun g hg => (hpasses g hg).collapses.joins, ?_, fun g hg => (hpasses g hg).distinct⟩
    by_contra hnone
    refine hselected ((selected_iff hd).mpr fun entry hm => ?_)
    by_contra hs
    exact hnone ⟨entry, hm, hs⟩
  · rcases he with ⟨g, hg, hf⟩ | ⟨hnil, rfl | rfl⟩
    · exact .of_fails hd hg hf
    · obtain ⟨_, root, _, _, _, hroot, _, _, rfl⟩ := QueryTree.below_ok ho
      exact .noColumns hroot ((selected_iff hd).mp hnil)
    · exact .noOutputs ((selected_iff hd).mp hnil)

theorem ok_iff_emittable {settings : Settings} {catalog : Catalog} {tree : QueryTree}
    {groups : List NamedGroup} {x : Except Error Statement}
    (h : Ends x (fun _ => Emittable settings catalog tree groups) (Refusal settings catalog tree groups)) :
    (∃ statement, x = .ok statement) ↔ Emittable settings catalog tree groups := by
  constructor
  · rintro ⟨statement, hs⟩
    exact h.ok statement hs
  · intro he
    cases x with
    | ok statement => exact ⟨statement, rfl⟩
    | error e => exact absurd he (h.error e rfl).not_emittable

/-- A built tree divides into groups. It has a statement exactly when the settings pass their check, the
set operation is known, every recursion has an edge that can be followed, every predicate has a condition,
the way to every child comes to its table once, some node selects a field, and no group has two columns of
one name. Where it has none, one of these is what the error tells. -/
theorem emit_iff_emittable (settings : Settings) (catalog : Catalog) {tree : QueryTree}
    (hb : tree.Built) : ∃ ordered, tree.ordered = .ok ordered ∧
      Divided tree.HasChild (ordered.group.parts catalog) (tree.entries.map Entry.node) ∧
      ((∃ statement, emit settings catalog tree = .ok statement) ↔
        Emittable settings catalog tree (ordered.group.parts catalog)) ∧
      ∀ e, emit settings catalog tree = .error e →
        Refusal settings catalog tree (ordered.group.parts catalog) e := by
  obtain ⟨ordered, ho, hproper, hd⟩ := divided_of_built catalog hb
  have hends := emit_ends settings catalog hb.wellFormed ho hproper hd
  exact ⟨ordered, ho, hd, ok_iff_emittable hends, hends.error⟩

/-- The sample has a statement, and has none once its friendships have no edge. -/
theorem emit_iff_emittable_sample : ∃ ordered, sampleTree.ordered = .ok ordered ∧
    Emittable .standard sampleCatalog sampleTree (ordered.group.parts sampleCatalog) ∧
    ∃ e, emit .standard { sampleCatalog with edge := fun _ => none } sampleTree = .error e ∧
      Refusal .standard { sampleCatalog with edge := fun _ => none } sampleTree
        (ordered.group.parts { sampleCatalog with edge := fun _ => none }) e := by
  have hlength : (emit .standard sampleCatalog sampleTree).toOption.map (·.ctes.length) = some 5 := by
    decide +kernel
  have hrefused : (emit .standard { sampleCatalog with edge := fun _ => none }
      sampleTree).toOption.isSome = false := by
    decide +kernel
  obtain ⟨ordered, ho, -, hiff, -⟩ := emit_iff_emittable .standard sampleCatalog sampleTree_built
  obtain ⟨ordered', ho', -, -, hrefusal⟩ :=
    emit_iff_emittable .standard { sampleCatalog with edge := fun _ => none } sampleTree_built
  cases ho.symm.trans ho'
  obtain ⟨statement, hemit, -⟩ := exists_statement hlength
  have hemittable := hiff.mp ⟨statement, hemit⟩
  obtain ⟨e, he⟩ : ∃ e, emit .standard { sampleCatalog with edge := fun _ => none } sampleTree = .error e := by
    cases hs : emit .standard { sampleCatalog with edge := fun _ => none } sampleTree with
    | ok statement => simp [hs, Except.toOption] at hrefused
    | error e => exact ⟨e, rfl⟩
  exact ⟨ordered, ho, hemittable, e, he, hrefusal e he⟩

/-- Emission by way of the table has a statement for the same trees. What the table has of a node is there
whenever it is asked for, so that no error is about the table. -/
theorem emitByTable_iff_emittable (settings : Settings) (catalog : Catalog) {tree : QueryTree}
    (hb : tree.Built) : ∃ ordered, tree.ordered = .ok ordered ∧
      ((∃ statement, emitByTable settings catalog.provider tree = .ok statement) ↔
        Emittable settings catalog tree (ordered.group.parts catalog)) ∧
      ∀ e, emitByTable settings catalog.provider tree = .error e →
        Refusal settings catalog tree (ordered.group.parts catalog) e := by
  obtain ⟨ordered, ho, hproper, hd⟩ := divided_of_built catalog hb
  have hends := emit_ends settings catalog hb.wellFormed ho hproper hd
  rw [emitByTable_provider settings catalog hb]
  exact ⟨ordered, ho, ok_iff_emittable hends, hends.error⟩

end GraphPlan.Sql
