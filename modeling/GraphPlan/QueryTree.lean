import GraphPlan.Block
import GraphPlan.Error

namespace GraphPlan

/-- How a node is reached. -/
inductive Role where
  | root
  | traverse (t : Traverse)
  | recurse (r : Recurse)
  deriving DecidableEq

/-- Whether a vertex that is reached so may be missing. -/
def Role.isOptional : Role → Bool
  | root => false
  | traverse t => t.isOptional
  | recurse r => r.withinOptional

/-- Output a field of the vertex under a name. -/
structure Selection where
  field : String
  label : String
  deriving DecidableEq

/-- A vertex of the query. -/
structure Node where
  location : Location
  relation : String
  role : Role
  selections : List Selection
  predicates : List Expr
  /-- The vertex may be missing. -/
  isOptional : Bool

namespace Node

/-- A node that puts out nothing and filters nothing. Whether it may be missing is settled here. -/
def new (location : Location) (relation : String) (role : Role) : Node :=
  ⟨location, relation, role, [], [], role.isOptional⟩

def isRecursive (n : Node) : Bool :=
  match n.role with
  | .recurse _ => true
  | _ => false

/-- The edge that leads to the node. -/
def edge? (n : Node) : Option String :=
  match n.role with
  | .root => none
  | .traverse t => some t.edge
  | .recurse r => some r.edge

end Node

abbrev NodeId := Nat

/-- A node with its place in the tree. Ordinary children are joined into its own relation; recursions become
relations of their own. -/
structure Entry where
  node : Node
  parent : Option NodeId
  children : List NodeId
  recursions : List NodeId

/-- The nodes stand in a row and refer to one another by their places in it. -/
structure QueryTree where
  entries : List Entry

namespace QueryTree

def start (location : Location) (relation : String) : QueryTree :=
  ⟨[⟨.new location relation .root, none, [], []⟩]⟩

def rootId : NodeId := 0

def size (t : QueryTree) : Nat := t.entries.length

def outside (t : QueryTree) (id : NodeId) : Error :=
  .internal ("node id " ++ Nat.repr id ++ " is outside the query tree (" ++ Nat.repr t.size ++
    " nodes)")

def entry (t : QueryTree) (id : NodeId) : Except Error Entry :=
  match t.entries[id]? with
  | some e => .ok e
  | none => .error (t.outside id)

/-- An action on a tree. It leaves a tree behind whether it answers or fails. -/
abbrev Build := ExceptT Error (StateM QueryTree)

/-- Change the entry of an id. -/
def update (id : NodeId) (change : Entry → Entry) : Build Unit := do
  let t ← get
  match t.entries[id]? with
  | some _ => set (⟨t.entries.modify id change⟩ : QueryTree)
  | none => throw (t.outside id)

/-- Add an entry at the end of the row. -/
def push (e : Entry) : Build NodeId := do
  modify fun t => ⟨t.entries ++ [e]⟩
  return (← get).size - 1

/-- Add a node and let its parent refer to it. The parent is looked up before anything changes. -/
def attach (parent : NodeId) (node : Node) (refer : NodeId → Entry → Entry) : Build NodeId := do
  let _ ← (← get).entry parent
  let id ← push ⟨node, some parent, [], []⟩
  update parent (refer id)
  return id

def addChild (parent : NodeId) (location : Location) (relation : String) (traverse : Traverse) :
    Build NodeId :=
  attach parent (.new location relation (.traverse traverse))
    fun id e => { e with children := e.children ++ [id] }

def addRecursion (parent : NodeId) (location : Location) (relation : String) (recurse : Recurse) :
    Build NodeId :=
  attach parent (.new location relation (.recurse recurse))
    fun id e => { e with recursions := e.recursions ++ [id] }

def addSelection (id : NodeId) (selection : Selection) : Build Unit :=
  update id fun e => { e with node.selections := e.node.selections ++ [selection] }

def addPredicate (id : NodeId) (predicate : Expr) : Build Unit :=
  update id fun e => { e with node.predicates := e.node.predicates ++ [predicate] }

/-- Visit the ids of a stack and all below them, children before recursions. The number bounds the
visits; a tree needs no more of them than it has nodes. -/
def walk (t : QueryTree) : Nat → List NodeId → Except Error (List NodeId)
  | _, [] => .ok []
  | 0, _ :: _ => .ok []
  | visits + 1, id :: stack =>
    match t.entry id with
    | .error e => .error e
    | .ok e => (t.walk visits (e.children ++ e.recursions ++ stack)).map (id :: ·)

/-- A node and all below it, each node before what hangs on it. -/
def subtree (t : QueryTree) (id : NodeId) : Except Error (List NodeId) := t.walk (t.size + 1) [id]

end QueryTree

end GraphPlan
