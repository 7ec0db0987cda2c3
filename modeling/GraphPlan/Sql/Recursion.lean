import GraphPlan.Settings
import GraphPlan.Sql.Catalog

/-!
Bounded recursion as a recursive common table expression.

Its rows say that a vertex, the source, is reached from another, the sink, in a number of hops and along
a path. The anchor relates every vertex that the parent links to with itself; a step goes one hop
further, unless the depth is used up or the next vertex is on the path already. A path lists its vertices
with the delimiter between them and at both ends, so that a vertex is looked for together with the
delimiters around it.
-/

namespace GraphPlan.Sql

/-- The column through which the relation of a parent is linked to a recursion. -/
structure Link where
  parent : BoundTable
  column : String

/-- The columns that a recursion follows. -/
structure Track where
  /-- The column of the vertices themselves. -/
  base : String
  source : String
  sink : String
  /-- The table of the edges. -/
  edges : Table

namespace Track

/-- Against the direction of an edge, its columns change places. -/
def turned (t : Track) : Direction → Track
  | .outward => t
  | .inward => { t with source := t.sink, sink := t.source }

def ofEdge (catalog : Catalog) (relation : String) (direction : Direction) : Edge → Track
  | .direct source sink => turned ⟨source, source, sink, catalog.table relation⟩ direction
  | .junction first second =>
    turned ⟨first.source, second.source, first.sink, catalog.tableNamed first.table⟩ direction

end Track

/-- Everything that the text of one recursion depends on. -/
structure Recursion where
  settings : Settings
  combinator : Combinator
  track : Track
  depth : UInt32
  link : Link
  /-- The table of the vertices. -/
  vertices : BoundTable
  /-- Label of the distinct links of the parent. -/
  linkLabel : String
  /-- The recursion itself, as its steps refer to it. -/
  previous : BoundTable
  /-- The table of the edges. -/
  edges : BoundTable

namespace Recursion

variable (r : Recursion)

/-- The name of the one column that the distinct links of a parent have. -/
def linkName : String := "link"

def base : Term := r.vertices.column r.track.base

def delimiter : Term := .text r.settings.pathDelimiter

/-- A vertex as it is written into a path. -/
def onPath (vertex : Term) : Term := .cast vertex r.settings.castType

/-- The four columns of the recursion, given their terms. -/
def projection (source sink depth path : Term) : List Item :=
  [.labelled source r.track.source, .labelled sink r.track.sink,
    .labelled depth r.settings.depthColumn, .labelled path r.settings.pathColumn]

/-- The distinct links of the parent. -/
def parentLinks : Select where
  distinct := true
  projection := [.labelled (r.link.parent.column r.link.column) linkName]
  source := .table r.link.parent
  filter := none

def anchor : Select where
  distinct := true
  projection := r.projection r.base r.base (.int 0)
    (.concat [r.delimiter, r.onPath r.base, r.delimiter])
  source := .join .inner (.table r.vertices) (r.parentLinks.toSource r.linkLabel)
    (.equal r.base (.column (some r.linkLabel) linkName))
  filter := none

/-- The vertex one hop further. -/
def next : Term := r.edges.column r.track.source

def withinDepth : Term :=
  .compare .lt (r.previous.column r.settings.depthColumn) (.int r.depth.toNat)

def unvisited : Term :=
  .not (.like (r.previous.column r.settings.pathColumn)
    (.concat [.text ("%" ++ r.settings.pathDelimiter), r.onPath r.next,
      .text (r.settings.pathDelimiter ++ "%")]))

def step : Select where
  distinct := false
  projection := r.projection r.next (r.previous.column r.track.sink)
    (.add (r.previous.column r.settings.depthColumn) (.int 1))
    (.concat [r.previous.column r.settings.pathColumn, r.onPath r.next, r.delimiter])
  source := .join .inner (.table r.edges) (.table r.previous)
    (.equal (r.edges.column r.track.sink) (r.previous.column r.track.source))
  filter := some (.and [r.withinDepth, r.unvisited])

def cte : Cte where
  name := r.previous.qualifier
  recursive := true
  body := .compound r.anchor r.combinator r.step

/-- Where the vertices meet the recursion. -/
def arrival : Term := .equal r.base (r.previous.column r.track.source)

/-- The column that leads back to the parent. -/
def back : Term := r.previous.column r.track.sink

end Recursion

end GraphPlan.Sql
