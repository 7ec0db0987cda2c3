import GraphPlan.QueryTree

/-!
Query trees without ids, and how they divide into groups. A group is a node that becomes a relation of
its own, that is the root or a recursion, together with the ordinary children that are joined into it at
any depth. The recursions that hang on any node of a group follow the group, those of a node before those
of its children.
-/

namespace GraphPlan

inductive OrderedTree where
  | mk (node : Node) (children : List OrderedTree) (recursions : List (Recurse × OrderedTree))

def OrderedTree.node : OrderedTree → Node
  | mk node _ _ => node

/-- A node of a group, the recursions that hang on it, and its ordinary children. -/
inductive Branch where
  | mk (node : Node) (hanging : List Node) (children : List Branch)

def Branch.node : Branch → Node
  | mk node _ _ => node

inductive Group where
  | mk (trunk : Branch) (recursions : List (Recurse × Group))

namespace Group

def trunk : Group → Branch
  | mk trunk _ => trunk

def recursions : Group → List (Recurse × Group)
  | mk _ recursions => recursions

end Group

namespace OrderedTree

mutual

def group : OrderedTree → Group
  | mk node children recursions =>
    let own := recursionGroups recursions
    let below := groups children
    .mk (.mk node (own.map fun g => g.2.trunk.node) (below.map Group.trunk))
      (own ++ below.flatMap Group.recursions)

def groups : List OrderedTree → List Group
  | [] => []
  | t :: ts => group t :: groups ts

def recursionGroups : List (Recurse × OrderedTree) → List (Recurse × Group)
  | [] => []
  | (r, t) :: ts => (r, group t) :: recursionGroups ts

end

end OrderedTree

namespace QueryTree

inductive ShapeFault where
  | notRoot (location : Location)
  | recursiveChild (location : Location)
  | ordinaryRecursion (location : Location)
  | endless (id : NodeId)

def ShapeFault.error : ShapeFault → Error
  | notRoot location => .internal ("query tree root " ++ location.name ++ " is not a root node")
  | recursiveChild location =>
    .internal ("recursive node " ++ location.name ++ " is attached as an ordinary child")
  | ordinaryRecursion location =>
    .internal ("non-recursive node " ++ location.name ++ " is attached as a recursion")
  | endless id => .internal ("node id " ++ Nat.repr id ++ " lies below itself in the query tree")

def checkChild (t : QueryTree) (id : NodeId) : Except Error Unit := do
  let e ← t.entry id
  if e.node.isRecursive then throw (ShapeFault.recursiveChild e.node.location).error

def checkRecursion (t : QueryTree) (id : NodeId) : Except Error Unit := do
  let e ← t.entry id
  unless e.node.isRecursive do throw (ShapeFault.ordinaryRecursion e.node.location).error

/-- What hangs on a node hangs where its role allows. -/
def checkPlace (t : QueryTree) (id : NodeId) : Except Error Unit := do
  let e ← t.entry id
  e.children.forM t.checkChild
  e.recursions.forM t.checkRecursion

def checkShape (t : QueryTree) : Except Error Unit := do
  let e ← t.entry rootId
  if e.parent.isSome ∨ e.node.role ≠ .root then throw (ShapeFault.notRoot e.node.location).error
  (← t.subtree rootId).forM t.checkPlace

def asChild (t : OrderedTree) : Except Error OrderedTree :=
  if t.node.isRecursive then .error (ShapeFault.recursiveChild t.node.location).error else .ok t

def asRecursion (t : OrderedTree) : Except Error (Recurse × OrderedTree) :=
  match t.node.role with
  | .recurse recurse => .ok (recurse, t)
  | _ => .error (ShapeFault.ordinaryRecursion t.node.location).error

/-- The tree below an id, to a depth. -/
def below (t : QueryTree) : Nat → NodeId → Except Error OrderedTree
  | 0, id => .error (ShapeFault.endless id).error
  | depth + 1, id => do
    let e ← t.entry id
    let children ← e.children.mapM fun child => t.below depth child >>= asChild
    let recursions ← e.recursions.mapM fun recursion => t.below depth recursion >>= asRecursion
    return .mk e.node children recursions

/-- The whole tree. No node lies deeper than there are nodes. -/
def ordered (t : QueryTree) : Except Error OrderedTree := t.below t.size rootId

end QueryTree

end GraphPlan
