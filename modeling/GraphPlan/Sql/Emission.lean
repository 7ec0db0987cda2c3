import GraphPlan.QueryTree.Ordered
import GraphPlan.Sql.Recursion

/-!
From a query tree to one statement.

Each group of the tree becomes a common table expression. Within a group, children are joined into the
relation of their parent from the bottom up, and their outputs and conditions move up with them. A
recursion first adds its recursive expression, then that of its group, and is joined to the relation of
its parent through a pair of link columns. The final query selects the outputs of the whole tree.
-/

namespace GraphPlan.Sql

/-- The names given out so far, by number, and the expressions made so far. -/
structure Supply where
  aliases : Nat
  tables : Nat
  links : Nat
  ctes : List Cte

def Supply.init : Supply := ⟨0, 0, 0, []⟩

abbrev Emit := StateT Supply (Except Error)

/-- What an emission works with throughout. -/
structure Setup where
  catalog : Catalog
  settings : Settings
  combinator : Combinator

namespace Emit

def freshAlias (name : String) : Emit String := fun s =>
  .ok (name ++ "_" ++ Nat.repr (s.aliases + 1), { s with aliases := s.aliases + 1 })

def freshTable (setup : Setup) (part : String) : Emit String := fun s =>
  .ok (setup.settings.cteStem ++ "_" ++ part ++ "_" ++ Nat.repr (s.tables + 1),
    { s with tables := s.tables + 1 })

def freshLink : Emit String := fun s =>
  .ok ("__link_" ++ Nat.repr (s.links + 1), { s with links := s.links + 1 })

def push (cte : Cte) : Emit Unit := fun s => .ok ((), { s with ctes := s.ctes ++ [cte] })

end Emit

inductive EmitFault where
  | noClauses (parent child : Location)
  | reachedTwice (child : Location)
  | neverReached (parent child : Location)
  | noColumns (location : Location)
  | repeatedName (location : Location) (name : String)
  | noOutputs
  /-- A group has a column for each recursion that hangs on it, so this is never met. Without an id, the
  recursion is named by its location. -/
  | linkMissing (location : Location)

def EmitFault.error : EmitFault → Error
  | noClauses parent child =>
    .internal ("no join clauses from " ++ parent.name ++ " to " ++ child.name)
  | reachedTwice child => .internal ("join clauses reach " ++ child.name ++ " more than once")
  | neverReached parent child =>
    .internal ("join clauses never reach " ++ child.name ++ " from " ++ parent.name)
  | noColumns location => .internal (location.name ++ " selects no columns")
  | repeatedName location name =>
    .internal (location.name ++ " projects output name " ++ Text.shown name ++ " more than once")
  | noOutputs => .internal "query selects no output columns"
  | linkMissing location => .internal ("no link column recorded for recursion node " ++ location.name)

/-- A term under the name that it is put out with. -/
structure Column where
  term : Term
  name : String

def Column.item (c : Column) : Item := .labelled c.term c.name

/-- The relation of a node while it grows. -/
structure Relation where
  /-- The table of the node's own columns. -/
  table : BoundTable
  source : Source
  outputs : List Column
  conditions : List Term
  /-- The columns through which recursions are linked, in the order of the recursions. -/
  links : List Column

namespace Relation

def join (r : Relation) (kind : JoinKind) (right : Source) (on : Term) : Relation :=
  { r with source := .join kind r.source right on }

/-- The relation of a node by itself. -/
def ofNode (setup : Setup) (node : Node) (table : BoundTable) : Except Error Relation := do
  let conditions ← node.predicates.mapM (setup.catalog.condition node · table)
  return {
    table := table
    source := .table table
    outputs := node.selections.map fun s => ⟨setup.catalog.column s table, s.label⟩
    conditions := conditions
    links := [] }

end Relation

def joinKind (node : Node) : JoinKind := if node.isOptional then .leftOuter else .inner

/-- Join the tables on the way to a child, whose own table stands for all that it has grown to and
must come exactly once. -/
def joinClauses (kind : JoinKind) (parent child : Node) (below : Relation) :
    List JoinClause → Option Source → Source → Except Error Source
  | [], none, left => .ok left
  | [], some _, _ => .error (EmitFault.neverReached parent.location child.location).error
  | clause :: clauses, pending, left =>
    if clause.table = below.table then
      match pending with
      | none => .error (EmitFault.reachedTwice child.location).error
      | some source =>
        joinClauses kind parent child below clauses none (.join kind left source clause.on)
    else
      joinClauses kind parent child below clauses pending
        (.join kind left (.table clause.table) clause.on)

/-- The conditions of a child as its parent takes them over: those of an optional child only count where
the child is there. -/
def guarded (setup : Setup) (child : Node) (below : Relation) : List Term :=
  if child.isOptional ∧ below.conditions.length ≠ 0 then
    [.or [.isNull (setup.catalog.presence child below.table), .all below.conditions]]
  else below.conditions

/-- Join the relation of a child into that of its parent. -/
def absorb (setup : Setup) (parent : Node) (r : Relation) (child : Node) (below : Relation) :
    Except Error Relation :=
  match setup.catalog.joins parent child r.table below.table with
  | [] => .error (EmitFault.noClauses parent.location child.location).error
  | clauses => do
    let source ← joinClauses (joinKind child) parent child below clauses (some below.source) r.source
    return {
      table := r.table
      source := source
      outputs := r.outputs ++ below.outputs
      conditions := r.conditions ++ guarded setup child below
      links := r.links ++ below.links }

def absorbAll (setup : Setup) (parent : Node) (r : Relation) :
    List (Node × Relation) → Except Error Relation
  | [] => .ok r
  | (child, below) :: rest => do
    absorbAll setup parent (← absorb setup parent r child below) rest

/-- Give the relation a link column for each recursion that hangs on the node. -/
def linkAll (setup : Setup) (r : Relation) : List Node → Emit Relation
  | [] => pure r
  | recursion :: rest => do
    let edge ← Edge.checked recursion (setup.catalog.edge recursion)
    let label ← Emit.freshLink
    let link : Column := ⟨r.table.column edge.linkColumn, label⟩
    linkAll setup { r with links := r.links ++ [link] } rest

/-- The relation of a node and its recursions, before its children are joined. -/
def plant (setup : Setup) (node : Node) (hanging : List Node) : Emit Relation := do
  let table := setup.catalog.table node.relation
  let bound := table.bind (← Emit.freshAlias table.name)
  linkAll setup (← Relation.ofNode setup node bound) hanging

mutual

/-- The relation of a node with all of its ordinary children. -/
def collapse (setup : Setup) : Branch → Emit Relation
  | .mk node hanging children => do
    let below ← collapseAll setup children
    let own ← plant setup node hanging
    absorbAll setup node own below

def collapseAll (setup : Setup) : List Branch → Emit (List (Node × Relation))
  | [] => pure []
  | branch :: branches => do
    let relation ← collapse setup branch
    return (branch.node, relation) :: (← collapseAll setup branches)

end

/-- The first name that has come before. -/
def firstRepeated (seen : List String) : List String → Option String
  | [] => none
  | name :: names => if seen.contains name then some name else firstRepeated (name :: seen) names

/-- The query of a group: its outputs and links, each under a name of its own. -/
def Relation.query (r : Relation) (node : Node) : Except Error Select :=
  let columns := r.outputs ++ r.links
  match columns, firstRepeated [] (columns.map Column.name) with
  | [], _ => .error (EmitFault.noColumns node.location).error
  | _, some name => .error (EmitFault.repeatedName node.location name).error
  | _, none => .ok {
      distinct := true
      projection := columns.map Column.item
      source := r.source
      filter := if r.conditions.isEmpty then none else some (.all r.conditions) }

/-- The same columns, taken from a table that has them under their names. -/
def Relation.rebind (r : Relation) (table : BoundTable) : Relation where
  table := table
  source := .table table
  outputs := r.outputs.map fun c => ⟨table.column c.name, c.name⟩
  conditions := []
  links := r.links.map fun c => ⟨table.column c.name, c.name⟩

/-- Turn the relation of a group into a common table expression. -/
def materialize (setup : Setup) (node : Node) (r : Relation) : Emit Relation := do
  let query ← r.query node
  let name ← Emit.freshTable setup node.relation
  Emit.push ⟨name, false, .plain query⟩
  return r.rebind (.named name)

/-- Add the recursive expression of a node and join it to the node's relation, with a link column back
to the parent. -/
def recursiveClause (setup : Setup) (recurse : Recurse) (link : Link) (node : Node) (r : Relation) :
    Emit (Relation × String) := do
  let edge ← Edge.checked node (setup.catalog.edge node)
  let track := Track.ofEdge setup.catalog node.relation recurse.direction edge
  let linkLabel ← Emit.freshAlias Recursion.linkName
  let name ← Emit.freshTable setup "recursive"
  let edgeLabel ← Emit.freshAlias track.edges.name
  let recursion : Recursion := {
    settings := setup.settings
    combinator := setup.combinator
    track := track
    depth := recurse.depth
    link := link
    vertices := r.table
    linkLabel := linkLabel
    previous := .named name
    edges := track.edges.bind edgeLabel }
  Emit.push recursion.cte
  let label ← Emit.freshLink
  let joined := r.join .inner (.table recursion.previous) recursion.arrival
  return ({ joined with links := joined.links ++ [⟨recursion.back, label⟩] }, label)

/-- Join the relation of a recursion to that of its parent. -/
def Relation.joinRecursion (r : Relation) (label : String) (node : Node) (below : Relation)
    (back : String) : Relation :=
  let joined := r.join (joinKind node) below.source
    (.equal (r.table.column label) (below.table.column back))
  { joined with outputs := joined.outputs ++ below.outputs }

mutual

/-- Emit the group of a recursion; the name that comes with its relation is that of its link back. -/
def emitRecursion (setup : Setup) (link : Link) (recurse : Recurse) :
    Group → Emit (Relation × String)
  | .mk trunk recursions => do
    let collapsed ← collapse setup trunk
    let (entered, back) ← recursiveClause setup recurse link trunk.node collapsed
    let wrapped ← materialize setup trunk.node entered
    let joined ← emitRecursions setup (collapsed.links.map Column.name) wrapped recursions
    return (joined, back)

/-- Emit the recursions of a group, which have their links in the given columns. -/
def emitRecursions (setup : Setup) (labels : List String) (r : Relation) :
    List (Recurse × Group) → Emit Relation
  | [] => pure r
  | (recurse, group) :: rest =>
    match labels with
    | [] => throw (EmitFault.linkMissing group.trunk.node.location).error
    | label :: labels => do
      let (below, back) ← emitRecursion setup ⟨r.table, label⟩ recurse group
      emitRecursions setup labels (r.joinRecursion label group.trunk.node below back) rest

end

/-- Emit the group of the root with all that follows it. -/
def emitRoot (setup : Setup) : Group → Emit Relation
  | .mk trunk recursions => do
    let collapsed ← collapse setup trunk
    let wrapped ← materialize setup trunk.node collapsed
    emitRecursions setup (collapsed.links.map Column.name) wrapped recursions

/-- The outputs of the whole tree. -/
def Relation.finalQuery (r : Relation) : Except Error Select :=
  match r.outputs with
  | [] => .error EmitFault.noOutputs.error
  | outputs => .ok ⟨true, outputs.map Column.item, r.source, none⟩

def emitTree (setup : Setup) (tree : OrderedTree) : Except Error Statement := do
  let (relation, supply) ← (emitRoot setup tree.group).run .init
  return ⟨supply.ctes, ← relation.finalQuery⟩

/-- The statement of a query tree. A set operation named in the settings goes before the catalog's. -/
def emit (settings : Settings) (catalog : Catalog) (tree : QueryTree) : Except Error Statement := do
  settings.check
  let combinator ← Combinator.ofName (settings.combinator.getD catalog.combinator)
  tree.checkShape
  emitTree ⟨catalog, settings, combinator⟩ (← tree.ordered)

end GraphPlan.Sql
