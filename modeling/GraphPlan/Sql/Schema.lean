import GraphPlan.Sql.Catalog
import GraphPlan.Sql.Condition

namespace GraphPlan.Sql

/-- Which table of a join a column belongs to. -/
inductive Owner where
  | parent
  | child
  /-- The table that is being joined. -/
  | self
  /-- The table that was joined before, at first the parent. -/
  | previous

inductive Waypoint where
  | child
  /-- A table by its name, under a label made from that of the child. -/
  | named (name : String)
  | exactly (table : BoundTable)

/-- One table on the way to a child, and the two columns that are equal there, if any. -/
structure Leg where
  table : Waypoint
  on : Option ((Owner × String) × (Owner × String))

structure Schema where
  defaultSchema : Option String
  tables : List (String × Table)
  namedTables : List (String × Table)
  edges : List (String × Edge)
  joins : List (String × List Leg)
  columns : List (String × String)
  presence : String
  combinator : String
  scope : Scope

namespace Schema

/-- The entry of a key, of which there is at most one. -/
def find? {α : Type} (entries : List (String × α)) (key : String) : Option α :=
  (entries.find? (·.1 == key)).map (·.2)

def table (s : Schema) (entries : List (String × Table)) (name : String) : Table :=
  (find? entries name).getD ⟨s.defaultSchema, name⟩

def waypoint (s : Schema) (child : BoundTable) : Waypoint → BoundTable
  | .child => child
  | .named name => (s.table s.namedTables name).bind (child.qualifier ++ "_via")
  | .exactly table => table

def legs (s : Schema) (parent child : BoundTable) (previous : BoundTable) :
    List Leg → List JoinClause
  | [] => []
  | leg :: rest =>
    let here := s.waypoint child leg.table
    let column := fun (side : Owner × String) =>
      match side.1 with
      | .parent => parent.column side.2
      | .child => child.column side.2
      | .self => here.column side.2
      | .previous => previous.column side.2
    let on : Term :=
      match leg.on with
      | some (left, right) => .equal (column left) (column right)
      | none => .constant (.bool true)
    ⟨here, on⟩ :: s.legs parent child here rest

def catalog (s : Schema) : Catalog where
  table := s.table s.tables
  tableNamed := s.table s.namedTables
  edge node := node.edge?.bind (find? s.edges)
  joins _ node parent child :=
    s.legs parent child parent ((node.edge?.bind (find? s.joins)).getD [])
  column selection table := table.column ((find? s.columns selection.field).getD selection.field)
  condition _ predicate table := predicate.toTerm table s.scope
  presence _ table := table.column s.presence
  combinator := s.combinator

end Schema

end GraphPlan.Sql
