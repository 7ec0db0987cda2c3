import GraphPlan.Fold

namespace GraphPlan.Pattern

/-- The block that opens a step. -/
inductive Opening where
  | queryRoot (types : NameSet)
  | traverse (t : Traverse)
  | recurse (r : Recurse)

def Opening.block : Opening → Block
  | queryRoot types => .queryRoot types
  | traverse t => .traverse t
  | recurse r => .recurse r

structure Step where
  /-- The vertex that this step starts from; the first step has none. -/
  linked : Option Location
  opening : Opening
  /-- The labels that the new vertex must have. -/
  types : NameSet
  condition : Option Expr
  /-- The location that the new vertex is bound to. -/
  bound : Location

structure Query where
  steps : List Step
  folds : Folds
  /-- What must hold of a match as a whole. -/
  condition : Option Expr
  outputs : OrderedMap String Expr

/-- The labels that a vertex of an exact type carries. -/
abbrev Hierarchy := String → NameSet

namespace Hierarchy

/-- A vertex carries its own type only. -/
def exact : Hierarchy := NameSet.singleton

/-- Types without an entry carry their own type only. -/
def ofTable (entries : List (String × NameSet)) : Hierarchy := fun type =>
  match entries.find? (·.1 == type) with
  | some (_, types) => types
  | none => exact type

end Hierarchy

end GraphPlan.Pattern
