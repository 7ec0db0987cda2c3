import GraphPlan.Proofs.Emission.Derivation
import GraphPlan.Proofs.QueryTree.Arena
import GraphPlan.Proofs.Recursion.Rounds

namespace GraphPlan.Sql

namespace Edge

/-- The column in which a row of the edge has the vertex that it leads to, along the edge. -/
def sourceColumn : Edge → String
  | direct source _ => source
  | junction _ second => second.source

/-- The column in which a row of the edge has the vertex that it comes from, along the edge. -/
def sinkColumn : Edge → String
  | direct _ sink => sink
  | junction first _ => first.sink

/-- The table that has the rows of the edge, which starts from a vertex of a relation. -/
def table (catalog : Catalog) (relation : String) : Edge → Table
  | direct _ _ => catalog.table relation
  | junction first _ => catalog.tableNamed first.table

/-- What is asked for by following the edge from a node again and again. Along the edge, a hop leads from
the sink column to the source column; against it, the two change places. -/
def course (catalog : Catalog) (relation : String) (recurse : Recurse) (parent : Table) (link : String)
    (edge : Edge) : Course where
  vertices := catalog.table relation
  base := edge.linkColumn
  edges := edge.table catalog relation
  source := match recurse.direction with
    | .outward => edge.sourceColumn
    | .inward => edge.sinkColumn
  sink := match recurse.direction with
    | .outward => edge.sinkColumn
    | .inward => edge.sourceColumn
  parent := parent
  link := link
  depth := recurse.depth.toNat

end Edge

/-- A recursion was made for a node, with names of its own. -/
structure Recursion.MadeFor (r : Recursion) (setup : Setup) (recurse : Recurse) (node : Node)
    (edge : Edge) : Prop where
  settings : r.settings = setup.settings
  track : r.track = Track.ofEdge setup.catalog node.relation recurse.direction edge
  depth : r.depth = recurse.depth
  vertices : r.vertices.table = setup.catalog.table node.relation
  edges : r.edges.table = r.track.edges
  own : r.previous = .named r.previous.qualifier
  labels : r.vertices.qualifier ≠ r.linkLabel ∧ r.edges.qualifier ≠ r.previous.qualifier

theorem Supply.recursion_madeFor {setup : Setup} (s : Supply) (hs : s.tables ≤ s.aliases)
    (recurse : Recurse) (link : Link) (trunk : Branch) (edge : Edge) {collapsed : Relation}
    (hc : (trunk.bind setup.catalog s.aliases s.links).relation setup = .ok collapsed) :
    ((s.advance trunk.size trunk.linkCount).recursion setup recurse link trunk.node collapsed.table
      edge).MadeFor setup recurse trunk.node edge := by
  have htable := (BoundBranch.relation_table hc).trans (Branch.bind_table ..)
  refine ⟨rfl, rfl, rfl, by rw [Supply.recursion, htable]; rfl, rfl, rfl, ?_, ?_⟩
  · rw [Supply.recursion, htable]
    intro heq
    have hn := (numbered_inj heq).2
    simp only [Supply.advance_aliases] at hn
    omega
  · intro heq
    have hn := (numbered_inj heq).2
    simp only [Supply.advance] at hn
    omega

theorem Recursion.MadeFor.course_eq {r : Recursion} {setup : Setup} {recurse : Recurse} {node : Node}
    {edge : Edge} (h : r.MadeFor setup recurse node edge) :
    r.course = edge.course setup.catalog node.relation recurse r.link.parent.table r.link.column := by
  simp only [Recursion.course, Edge.course, h.vertices, h.edges, h.track, h.depth]
  cases edge <;> cases recurse.direction <;> rfl

theorem checked_ok {node : Node} {found : Option Edge} {edge : Edge}
    (h : Edge.checked node found = .ok edge) : found = some edge ∧ edge.fault? = none := by
  unfold Edge.checked at h
  split at h
  · cases h
  · split at h
    · cases h
    · next hf =>
      cases h
      exact ⟨rfl, hf⟩

/-- A recursion that was made for a node computes its course, if the integers on its paths are told from the
delimiter, its columns have names of their own, and it does not hide the table of the edges. -/
theorem Recursion.MadeFor.computed {r : Recursion} {setup : Setup} {recurse : Recurse} {node : Node}
    {edge : Edge} (h : r.MadeFor setup recurse node edge) (hcheck : setup.settings.check = .ok ())
    (hm : ∀ c ∈ setup.settings.pathDelimiter.toList, c.isDigit = false ∧ c ≠ '-')
    (hcolumns : [r.course.source, r.course.sink, setup.settings.depthColumn,
      setup.settings.pathColumn].Nodup) (hother : r.course.edges ≠ ⟨none, r.cte.name⟩) {d : Dialect}
    {db : Database} (hd : d.Standard setup.settings.castType) (hi : r.course.Integers db) :
    r.course.ComputedBy d db r.cte.name r.anchor r.step := by
  rw [← h.settings] at hcheck hm hcolumns hd
  obtain ⟨hdelimiter, hplain⟩ := delimiter_of_check hcheck
  refine Recursion.course_computed hd ⟨hcolumns, h.labels.1, h.labels.2, h.own, ?_, hdelimiter, ?_, hplain⟩
    hi
  · rw [h.own]
    exact hother
  · intro c hc
    simp [isMark, (hm c hc).1, (hm c hc).2]

/-- Animals, each with the id of another. -/
def herdCatalog : Catalog where
  table _ := ⟨some "zoo", "animal"⟩
  tableNamed name := ⟨none, name⟩
  edge _ := some (.direct "id" "parent_id")
  joins _ _ _ child := [⟨child, .constant (.bool true)⟩]
  column selection table := table.column selection.field
  condition _ _ table := .ok (.isNotNull (table.column "name"))
  presence _ table := table.column "id"
  combinator := "union"

/-- An animal and its forebears, up to two hops against the edge. -/
def herdTree : QueryTree :=
  (QueryTree.start (.root "Animal") "animal").after
    [.recursion 0 ((Location.root "Animal").descend "in_Parent") "animal" ⟨.inward, "parent", 2, false⟩,
      .select 1 ⟨"name", "name"⟩]

theorem herdTree_built : herdTree.Built := (QueryTree.Built.start ..).after _

end GraphPlan.Sql
