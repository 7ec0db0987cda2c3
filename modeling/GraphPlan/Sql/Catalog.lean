import GraphPlan.QueryTree
import GraphPlan.Sql.Select
import GraphPlan.Text.Shown

namespace GraphPlan.Sql

/-- One side of a junction: its table, the column that a hop leaves and the one that it enters. -/
structure Hop where
  table : String
  source : String
  sink : String
  deriving DecidableEq

def Hop.hasEmptyName (h : Hop) : Bool := h.table == "" || h.source == "" || h.sink == ""

/-- An edge that can be followed again and again: between two columns of the vertices' own table, or
through a junction table. -/
inductive Edge where
  | direct (source sink : String)
  | junction (first second : Hop)
  deriving DecidableEq

namespace Edge

/-- The column of the parent through which the recursion is linked to it. -/
def linkColumn : Edge → String
  | direct source _ => source
  | junction first _ => first.source

inductive Fault where
  | unknown
  | emptyColumn
  | sameColumn (column : String)
  | emptyHop (table : String)
  | sameJunctionColumn (column : String)
  | twoTables (first second : String)

def Fault.detail : Fault → String
  | unknown => "no edge metadata for relation"
  | emptyColumn => "direct edge has an empty column name"
  | sameColumn column => "direct edge source and sink are both " ++ Text.shown column
  | emptyHop table => "junction hop through " ++ Text.shown table ++ " has an empty name"
  | sameJunctionColumn column =>
    "junction hops enter and leave through the same column " ++ Text.shown column
  | twoTables first second =>
    "junction hops name different tables (" ++ first ++ " and " ++ second ++ ")"

def Fault.error (fault : Fault) (node : Node) : Error :=
  .edgeShape node.location.name node.relation fault.detail

/-- The first reason why an edge cannot be followed again and again. -/
def fault? : Edge → Option Fault
  | direct source sink =>
    if source = "" ∨ sink = "" then some .emptyColumn
    else if source = sink then some (.sameColumn source)
    else none
  | junction first second =>
    if first.hasEmptyName then some (.emptyHop first.table)
    else if second.hasEmptyName then some (.emptyHop second.table)
    else if first.sink = second.source then some (.sameJunctionColumn first.sink)
    else if first.table ≠ second.table then some (.twoTables first.table second.table)
    else none

/-- The edge of a recursion, if there is one that can be followed. -/
def checked (node : Node) : Option Edge → Except Error Edge
  | none => .error (Fault.unknown.error node)
  | some edge =>
    match edge.fault? with
    | some fault => .error (fault.error node)
    | none => .ok edge

end Edge

/-- One table on the way from a parent to a child, and the condition under which it is joined. -/
structure JoinClause where
  table : BoundTable
  on : Term

structure Catalog where
  /-- The table of a relation. -/
  table : String → Table
  /-- The table of a name, such as that of a junction. -/
  tableNamed : String → Table
  /-- The edge that a recursion follows. -/
  edge : Node → Option Edge
  /-- The way from a parent to a child, given both with their tables. -/
  joins : Node → Node → BoundTable → BoundTable → List JoinClause
  column : Selection → BoundTable → Term
  condition : Node → Expr → BoundTable → Except Error Term
  /-- A column that is not null on every row of the table of the node. -/
  presence : Node → BoundTable → Term
  /-- The name of the set operation of recursions. -/
  combinator : String

end GraphPlan.Sql
