import GraphPlan.Proofs.Emission.Trunk

namespace GraphPlan.Sql

/-- The name of the next table that is generated for a part. -/
def Supply.tableName (s : Supply) (stem part : String) : String :=
  numbered (stem ++ "_" ++ part) (s.tables + 1)

/-- The supply once a table has been made. -/
def Supply.add (s : Supply) (cte : Cte) : Supply :=
  { s with tables := s.tables + 1, ctes := s.ctes ++ [cte] }

/-- The recursion of a node with the names that come next. -/
def Supply.recursion (s : Supply) (setup : Setup) (recurse : Recurse) (link : Link) (node : Node)
    (vertices : BoundTable) (edge : Edge) : Recursion :=
  let track := Track.ofEdge setup.catalog node.relation recurse.direction edge
  { settings := setup.settings
    combinator := setup.combinator
    track := track
    depth := recurse.depth
    link := link
    vertices := vertices
    linkLabel := numbered Recursion.linkName (s.aliases + 1)
    previous := .named (s.tableName setup.settings.cteStem "recursive")
    edges := track.edges.bind (numbered track.edges.name (s.aliases + 2)) }

/-- Join a recursion to the relation of its vertices, with a link back under a label. -/
def Relation.enter (r : Relation) (recursion : Recursion) (label : String) : Relation :=
  { r.join .inner (.table recursion.previous) recursion.arrival with
    links := r.links ++ [⟨recursion.back, label⟩] }

theorem recursiveClause_run (setup : Setup) (recurse : Recurse) (link : Link) (node : Node)
    (r : Relation) (s : Supply) :
    recursiveClause setup recurse link node r s =
      (Edge.checked node (setup.catalog.edge node)).map fun edge =>
        let recursion := s.recursion setup recurse link node r.table edge
        ((r.enter recursion (linkLabel (s.links + 1)), linkLabel (s.links + 1)),
          (s.advance 2 1).add recursion.cte) := by
  simp only [recursiveClause, Emit.bind_run, Emit.lift_run]
  cases Edge.checked node (setup.catalog.edge node) with
  | error e => rfl
  | ok edge => rfl

theorem materialize_run (setup : Setup) (node : Node) (r : Relation) (s : Supply) :
    materialize setup node r s =
      (r.query node).map fun query =>
        let name := s.tableName setup.settings.cteStem node.relation
        (r.rebind (.named name), s.add ⟨name, false, .plain query⟩) := by
  simp only [materialize, Emit.bind_run, Emit.lift_run]
  cases r.query node with
  | error e => rfl
  | ok query => rfl

theorem nodup_of_firstRepeated {seen names : List String} (h : firstRepeated seen names = none) :
    names.Nodup ∧ ∀ name ∈ names, name ∉ seen := by
  induction names generalizing seen with
  | nil => simp
  | cons name names ih =>
    rw [firstRepeated] at h
    split at h
    · cases h
    · next hnew =>
      obtain ⟨hnodup, hseen⟩ := ih h
      have hname : name ∉ seen := by simpa using hnew
      refine ⟨List.nodup_cons.mpr ⟨fun hm => hseen name hm List.mem_cons_self, hnodup⟩, ?_⟩
      intro x hx
      rcases List.mem_cons.mp hx with rfl | hx
      · exact hname
      · exact fun hm => hseen x hx (List.mem_cons_of_mem name hm)

theorem Relation.query_ok {r : Relation} {node : Node} {query : Select}
    (h : r.query node = .ok query) :
    firstRepeated [] ((r.outputs ++ r.links).map Column.name) = none ∧
    query = ⟨true, (r.outputs ++ r.links).map Column.item, r.source,
      if r.conditions.isEmpty then none else some (.all r.conditions)⟩ := by
  unfold Relation.query at h
  generalize (if r.conditions.isEmpty then none else some (Term.all r.conditions)) = filter at h ⊢
  dsimp only at h
  split at h
  · cases h
  · cases h
  · next hn _ => exact ⟨hn, (Except.ok.inj h).symm⟩

/-- How the recursions of a group are emitted, which find their links under the given labels of its
relation: from which supply and to which relation and supply. -/
inductive Emitted (setup : Setup) :
    List String → Relation → List (Recurse × Group) → Supply → Relation → Supply → Prop where
  | done (labels : List String) (r : Relation) (s : Supply) : Emitted setup labels r [] s r s
  | next {label : String} {labels : List String} {r : Relation} {recurse : Recurse} {trunk : Branch}
      {recursions rest : List (Recurse × Group)} {s after last : Supply}
      {collapsed joined final : Relation} {edge : Edge} {query : Select} {recursion : Recursion}
      {name back : String}
      (hc : (trunk.bind setup.catalog s.aliases s.links).relation setup = .ok collapsed)
      (he : Edge.checked trunk.node (setup.catalog.edge trunk.node) = .ok edge)
      (hr : recursion = (s.advance trunk.size trunk.linkCount).recursion setup recurse ⟨r.table, label⟩
        trunk.node collapsed.table edge)
      (hb : back = linkLabel (s.links + trunk.linkCount + 1))
      (hq : (collapsed.enter recursion back).query trunk.node = .ok query)
      (hn : name = numbered (setup.settings.cteStem ++ "_" ++ trunk.node.relation) (s.tables + 2))
      (inner : Emitted setup (collapsed.links.map Column.name)
        ((collapsed.enter recursion back).rebind (.named name)) recursions
        (((s.advance (trunk.size + 2) (trunk.linkCount + 1)).add recursion.cte).add
          ⟨name, false, .plain query⟩) joined after)
      (others : Emitted setup labels (r.joinRecursion label trunk.node joined back) rest after final
        last) :
      Emitted setup (label :: labels) r ((recurse, .mk trunk recursions) :: rest) s final last

theorem emitted_of_run (setup : Setup) (labels : List String) (r : Relation)
    (groups : List (Recurse × Group)) (s last : Supply) (final : Relation)
    (h : emitRecursions setup labels r groups s = .ok (final, last)) :
    Emitted setup labels r groups s final last := by
  match groups, labels with
  | [], labels =>
    simp only [emitRecursions, Emit.pure_run] at h
    cases h
    exact .done labels r s
  | (recurse, .mk trunk recursions) :: rest, [] =>
    simp only [emitRecursions] at h
    cases h
  | (recurse, .mk trunk recursions) :: rest, label :: labels =>
    simp only [emitRecursions, emitRecursion, Emit.bind_run] at h
    obtain ⟨⟨⟨joined, back⟩, after⟩, hg, hrest⟩ := bind_ok h
    obtain ⟨⟨collapsed, s₁⟩, hcollapse, hg⟩ := bind_ok hg
    obtain ⟨⟨⟨entered, back'⟩, s₂⟩, hclause, hg⟩ := bind_ok hg
    obtain ⟨⟨wrapped, s₃⟩, hmaterialize, hg⟩ := bind_ok hg
    obtain ⟨⟨joined', s₄⟩, hi, hg⟩ := bind_ok hg
    cases hg
    rw [collapse_run] at hcollapse
    obtain ⟨_, hc, heq⟩ := map_ok hcollapse
    cases heq
    rw [recursiveClause_run] at hclause
    obtain ⟨edge, he, heq⟩ := map_ok hclause
    cases heq
    rw [materialize_run] at hmaterialize
    obtain ⟨query, hq, heq⟩ := map_ok hmaterialize
    cases heq
    exact .next hc he rfl rfl hq rfl (emitted_of_run setup _ _ recursions _ _ _ hi)
      (emitted_of_run setup labels _ rest _ _ _ hrest)
termination_by groups

theorem Emitted.eq_of_nil {setup : Setup} {labels : List String} {r final : Relation} {s last : Supply}
    (h : Emitted setup labels r [] s final last) : final = r ∧ last = s := by
  cases h
  exact ⟨rfl, rfl⟩

/-- Names are given out as the shape of the groups says. -/
theorem Emitted.bindEach_counts {setup : Setup} {labels : List String} {r final : Relation}
    {groups : List (Recurse × Group)} {s last : Supply}
    (h : Emitted setup labels r groups s final last) :
    (Group.bindEach setup.catalog s.aliases s.links groups).2 = (last.aliases, last.links) := by
  induction h with
  | done => rfl
  | next hc he hr hb hq hn inner others ihi iho =>
    simp only [Supply.add, Supply.advance] at ihi
    simp only [Group.bindEach, Group.bind]
    rw [Nat.add_assoc, Nat.add_assoc, ihi]
    exact iho

/-- Tables are only ever added. -/
theorem Emitted.ctes_append {setup : Setup} {labels : List String} {r final : Relation}
    {groups : List (Recurse × Group)} {s last : Supply}
    (h : Emitted setup labels r groups s final last) : ∃ more, last.ctes = s.ctes ++ more := by
  induction h with
  | done => exact ⟨[], by simp⟩
  | next hc he hr hb hq hn inner others ihi iho =>
    obtain ⟨m, hm⟩ := ihi
    obtain ⟨n, hn⟩ := iho
    rw [hn, hm]
    simp [Supply.add, Supply.advance, List.append_assoc]

/-- An emission first makes the table of the root's group, then emits what hangs on it. -/
theorem emitted_of_emitTree (setup : Setup) (tree : OrderedTree) (statement : Statement)
    (h : emitTree setup tree = .ok statement) :
    ∃ collapsed query name final last,
      (tree.group.trunk.bind setup.catalog 0 0).relation setup = .ok collapsed ∧
      collapsed.query tree.group.trunk.node = .ok query ∧
      name = numbered (setup.settings.cteStem ++ "_" ++ tree.group.trunk.node.relation) 1 ∧
      Emitted setup (collapsed.links.map Column.name) (collapsed.rebind (.named name))
        tree.group.recursions
        ((Supply.init.advance tree.group.trunk.size tree.group.trunk.linkCount).add
          ⟨name, false, .plain query⟩) final last ∧
      statement.ctes = last.ctes ∧ final.finalQuery = .ok statement.body := by
  unfold emitTree at h
  obtain ⟨⟨final, last⟩, hrun, h⟩ := bind_ok h
  obtain ⟨body, hbody, h⟩ := bind_ok h
  cases h
  cases hg : tree.group with
  | mk trunk recursions =>
    rw [hg] at hrun
    change emitRoot setup (.mk trunk recursions) .init = _ at hrun
    simp only [emitRoot, Emit.bind_run] at hrun
    obtain ⟨⟨collapsed, s₁⟩, hcollapse, hrun⟩ := bind_ok hrun
    obtain ⟨⟨wrapped, s₂⟩, hmaterialize, hrun⟩ := bind_ok hrun
    rw [collapse_run] at hcollapse
    obtain ⟨_, hc, heq⟩ := map_ok hcollapse
    cases heq
    rw [materialize_run] at hmaterialize
    obtain ⟨query, hq, heq⟩ := map_ok hmaterialize
    cases heq
    exact ⟨collapsed, query, _, final, last, hc, hq, rfl,
      emitted_of_run setup _ _ recursions _ _ _ hrun, rfl, hbody⟩

/-- A statement comes of settings that pass their check and of a tree whose nodes stand where their roles
allow. -/
theorem emitTree_of_emit {settings : Settings} {catalog : Catalog} {tree : QueryTree}
    {statement : Statement} (h : emit settings catalog tree = .ok statement) :
    settings.check = .ok () ∧
    ∃ combinator ordered, Combinator.ofName (settings.combinator.getD catalog.combinator) =
        .ok combinator ∧ tree.ordered = .ok ordered ∧
      emitTree ⟨catalog, settings, combinator⟩ ordered = .ok statement := by
  unfold emit at h
  obtain ⟨_, hs, h⟩ := bind_ok h
  obtain ⟨combinator, hc, h⟩ := bind_ok h
  obtain ⟨_, _, h⟩ := bind_ok h
  obtain ⟨ordered, ho, h⟩ := bind_ok h
  exact ⟨hs, combinator, ordered, hc, ho, h⟩

/-- What a tree is emitted to, where something about it is known by evaluation. -/
theorem exists_statement {α : Type} {settings : Settings} {catalog : Catalog} {tree : QueryTree}
    {f : Statement → α} {value : α} (h : (emit settings catalog tree).toOption.map f = some value) :
    ∃ statement, emit settings catalog tree = .ok statement ∧ f statement = value := by
  cases hemit : emit settings catalog tree with
  | error e => simp [hemit, Except.toOption] at h
  | ok statement => exact ⟨statement, rfl, by simpa [hemit, Except.toOption] using h⟩

end GraphPlan.Sql
