import GraphPlan.Proofs.Emission.Links

namespace GraphPlan.Sql

/-- The recursive table of every recursion computes what following its edge asks for, from the vertices that
the group of its parent links to. The vertices must be integers, which the delimiter of paths must be told
from; the four columns of the table must have names of their own, and it must not hide that of the edges. -/
theorem emit_recursion_computed {settings : Settings} {catalog : Catalog} {tree : QueryTree}
    {statement : Statement} (hb : tree.Built) (h : emit settings catalog tree = .ok statement)
    (hm : ∀ c ∈ settings.pathDelimiter.toList, c.isDigit = false ∧ c ≠ '-') :
    ∃ names : Naming, names.Apart tree ∧ names.UsedIn tree catalog statement ∧
      ∀ id e recurse, tree.entries[id]? = some e → e.node.role = .recurse recurse →
        ∃ p c edge anchor combinator step, e.parent = some p ∧ tree.Heads c p ∧
          catalog.edge e.node = some edge ∧ edge.fault? = none ∧
          names.Linked statement e.node edge
            (Track.ofEdge catalog e.node.relation recurse.direction edge) c p id ∧
          statement.cte? (names.loop id) =
            some ⟨names.loop id, true, .compound anchor combinator step⟩ ∧
          ∀ course, course = edge.course catalog e.node.relation recurse
              (BoundTable.named (names.table c)).table (names.label id) →
            [course.source, course.sink, settings.depthColumn, settings.pathColumn].Nodup →
            course.edges ≠ (BoundTable.named (names.loop id)).table →
            ∀ d db, d.Standard settings.castType → course.Integers db →
              course.ComputedBy d db (names.loop id) anchor step := by
  obtain ⟨hcheck, combinator, root, ms, -, -, hemission⟩ := exists_emission hb h
  have hw := hb.wellFormed
  obtain ⟨last, hrun⟩ := hemission.run
  obtain ⟨names, hnames⟩ := hemission.exists_naming
  refine ⟨names, hemission.apart hw hnames, hemission.usedIn hw hnames, ?_⟩
  intro id e recurse he hrole
  obtain ⟨m, hmem, x, hx, htie, rfl, hnode, rfl, hup, hheads, f, hf⟩ :=
    hemission.exists_madeAt hw he hrole
  rw [← hnode]
  obtain ⟨hedge, hfault⟩ := checked_ok (hrun.sound m hmem).edge
  have hmade := hemission.madeFor hmem
  have hhost : names.table x.tree.id = m.tie.host := (hnames.table x hx).trans (Host.mem_ties htie).1.symm
  refine ⟨m.tie.hook.parent, x.tree.id, m.edge, (m.recursion ⟨catalog, settings, combinator⟩).anchor,
    combinator, (m.recursion ⟨catalog, settings, combinator⟩).step, hup, hheads, hedge, hfault,
    hemission.linked hnames hmem hx htie hf, ?_, ?_⟩
  · rw [hnames.loop m hmem]
    exact hemission.cte?_recursion hmem
  · intro course hcourse hcolumns hother d db hd hi
    rw [hhost, hnames.label m hmem] at hcourse
    rw [hnames.loop m hmem] at hother ⊢
    -- the tie of the recursion is the link that it starts from
    obtain rfl := hcourse.trans hmade.course_eq.symm
    exact hmade.computed hcheck hm hcolumns hother hd hi

/-- Three animals in a circle, one of them twice, and one without a parent; links to one that is there, to
one that is not, and to none. -/
def herd : Database := fun t =>
  if t.schema = none then
    [[("__link_1", .int 1)], [("__link_1", .int 9)], [("__link_1", .null)]]
  else
    [[("id", .int 1), ("parent_id", .int 2)], [("id", .int 2), ("parent_id", .int 3)],
      [("id", .int 3), ("parent_id", .int 1)], [("id", .int 3), ("parent_id", .int 1)],
      [("id", .int (-4)), ("parent_id", .null)]]

theorem herd_integers (t : Table) (column : String) : IntegerColumn (herd t) column := by
  intro row hrow
  unfold herd at hrow
  split at hrow
  · simp only [List.mem_cons, List.not_mem_nil, or_false] at hrow
    rcases hrow with rfl | rfl | rfl <;> by_cases hl : column = "__link_1" <;> simp [hl]
  · simp only [List.mem_cons, List.not_mem_nil, or_false] at hrow
    rcases hrow with rfl | rfl | rfl | rfl | rfl <;> by_cases hi : column = "id" <;>
      by_cases hp : column = "parent_id" <;> simp [hi, hp]

theorem emit_recursion_computed_herd : ∃ (statement : Statement) (names : Naming) (e : Entry)
    (anchor step : Select) (combinator : Combinator),
    emit .standard herdCatalog herdTree = .ok statement ∧ names.UsedIn herdTree herdCatalog statement ∧
    herdTree.entries[1]? = some e ∧ e.node.role = .recurse ⟨.inward, "parent", 2, false⟩ ∧
    statement.cte? (names.loop 1) = some ⟨names.loop 1, true, .compound anchor combinator step⟩ ∧
    ((Edge.direct "id" "parent_id").course herdCatalog "animal" ⟨.inward, "parent", 2, false⟩
      (BoundTable.named (names.table 0)).table (names.label 1)).ComputedBy .plain herd (names.loop 1)
      anchor step := by
  have hlength : (emit .standard herdCatalog herdTree).toOption.map (·.ctes.length) = some 3 := by
    decide +kernel
  have hentry : (herdTree.entries[1]?.map fun e => (e.node.role, e.node.relation, e.parent)) =
      some (.recurse ⟨.inward, "parent", 2, false⟩, "animal", some 0) := by
    decide +kernel
  have hplain : ∀ c ∈ Settings.standard.pathDelimiter.toList, c.isDigit = false ∧ c ≠ '-' := by
    have hdelimiter : Settings.standard.pathDelimiter.toList = [','] := by decide
    rw [hdelimiter, List.forall_mem_singleton]
    decide
  obtain ⟨statement, hemit, -⟩ := exists_statement hlength
  simp only [Option.map_eq_some_iff, Prod.mk.injEq] at hentry
  obtain ⟨e, he, hrole, hrelation, hparent⟩ := hentry
  obtain ⟨names, -, hused, hcomputed⟩ := emit_recursion_computed herdTree_built hemit hplain
  obtain ⟨p, c, edge, anchor, combinator, step, hup, hheads, hedge, -, -, hcte, hcomputed⟩ :=
    hcomputed 1 e _ he hrole
  cases hedge
  cases hparent.symm.trans hup
  obtain rfl : c = 0 := hheads.unique (.self (List.getElem?_eq_getElem (by decide)) (by decide))
  refine ⟨statement, names, e, anchor, step, combinator, hemit, hused, he, hrole, hcte, ?_⟩
  refine hcomputed _ (by rw [hrelation]) (by simp only [Edge.course]; decide) ?_ _ herd
    (Dialect.plain_standard _) ⟨herd_integers _ _, herd_integers _ _, herd_integers _ _, herd_integers _ _⟩
  intro h
  exact absurd (congrArg Table.schema h) (by simp [Edge.course, Edge.table, herdCatalog, BoundTable.named])

end GraphPlan.Sql
