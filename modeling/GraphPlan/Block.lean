import GraphPlan.Data.NameSet
import GraphPlan.Data.OrderedMap
import GraphPlan.Expr

namespace GraphPlan

/-- Follow an edge to a neighbour. -/
structure Traverse where
  direction : Direction
  edge : String
  optional : Bool
  /-- The edge lies inside an optional part of the query. -/
  withinOptional : Bool
  deriving DecidableEq

/-- Follow an edge any number of times up to a depth. -/
structure Recurse where
  direction : Direction
  edge : String
  depth : UInt32
  withinOptional : Bool
  deriving DecidableEq

inductive Block where
  /-- Start at the vertices of a type. -/
  | queryRoot (types : NameSet)
  | traverse (t : Traverse)
  | recurse (r : Recurse)
  /-- Return to a marked location. -/
  | backtrack (location : Location) (optional : Bool)
  /-- Name the vertex at hand. -/
  | markLocation (location : Location)
  | coerceType (types : NameSet)
  | filter (predicate : Expr)
  /-- Open a fold scope. -/
  | fold (scope : FoldLocation)
  | unfold
  | outputSource
  | endOptional
  | globalOperationsStart
  | constructResult (fields : OrderedMap String Expr)

namespace Json

def flag (name : String) (b : Bool) : String × Json := (name, .bool b)

end Json

namespace Traverse

/-- Whether the vertex may be missing. -/
def isOptional (t : Traverse) : Bool := t.optional || t.withinOptional

def render (t : Traverse) : String :=
  "Traverse(" ++ t.direction.name ++ "_" ++ t.edge ++ (if t.optional then ", optional)" else ")")

def toJson (t : Traverse) : Json :=
  .object [("direction", t.direction.toJson), ("edge_name", .text t.edge),
    Json.flag "optional" t.optional, Json.flag "within_optional_scope" t.withinOptional]

def decode : Decoder Traverse :=
  Decoder.record ["direction", "edge_name", "optional", "within_optional_scope"]
    fun fields depth => do
      let direction ← fields.required "direction" (Direction.decode depth)
      let edge ← fields.required "edge_name" (Decoder.text depth)
      let optional ← fields.optional "optional" (Decoder.bool depth) false
      let withinOptional ← fields.optional "within_optional_scope" (Decoder.bool depth) false
      some ⟨direction, edge, optional, withinOptional⟩

end Traverse

namespace Recurse

def render (r : Recurse) : String :=
  "Recurse(" ++ r.direction.name ++ "_" ++ r.edge ++ ", depth=" ++ Nat.repr r.depth.toNat ++ ")"

def toJson (r : Recurse) : Json :=
  .object [("direction", r.direction.toJson), ("edge_name", .text r.edge),
    ("depth", .word r.depth), Json.flag "within_optional_scope" r.withinOptional]

def decode : Decoder Recurse :=
  Decoder.record ["direction", "edge_name", "depth", "within_optional_scope"] fun fields depth => do
    let direction ← fields.required "direction" (Direction.decode depth)
    let edge ← fields.required "edge_name" (Decoder.text depth)
    let hops ← fields.required "depth" (Decoder.word depth)
    let withinOptional ← fields.optional "within_optional_scope" (Decoder.bool depth) false
    some ⟨direction, edge, hops, withinOptional⟩

end Recurse

namespace NameSet

def render (s : NameSet) : String := String.intercalate "|" s.names

def toJson (s : NameSet) : Json := .texts s.names

def decode : Decoder NameSet := fun depth d => (Decoder.list Decoder.text depth d).map ofList

end NameSet

namespace Block

/-- The name of the block without its payload. -/
def kind : Block → String
  | queryRoot _ => "QueryRoot"
  | traverse _ => "Traverse"
  | recurse _ => "Recurse"
  | backtrack .. => "Backtrack"
  | markLocation _ => "MarkLocation"
  | coerceType _ => "CoerceType"
  | filter _ => "Filter"
  | fold _ => "Fold"
  | unfold => "Unfold"
  | outputSource => "OutputSource"
  | endOptional => "EndOptional"
  | globalOperationsStart => "GlobalOperationsStart"
  | constructResult _ => "ConstructResult"

def render : Block → String
  | queryRoot types => "QueryRoot(" ++ types.render ++ ")"
  | traverse t => t.render
  | recurse r => r.render
  | backtrack location _ => "Backtrack(" ++ location.name ++ ")"
  | markLocation location => "MarkLocation(" ++ location.name ++ ")"
  | coerceType types => "CoerceType(" ++ types.render ++ ")"
  | filter predicate => "Filter(" ++ predicate.render ++ ")"
  | fold scope => "Fold(" ++ scope.name ++ ")"
  | constructResult fields =>
    "ConstructResult(" ++ String.intercalate ", " (fields.entries.map Prod.fst) ++ ")"
  | block => block.kind

/-- A row of blocks in words. -/
def renderAll (blocks : List Block) : String :=
  "[" ++ String.intercalate ", " (blocks.map render) ++ "]"

def outputsJson (fields : OrderedMap String Expr) : Json :=
  .object (fields.entries.map fun (name, e) => (name, e.toJson))

def payloadJson : Block → Option Json
  | queryRoot types => some (.object [("start_types", types.toJson)])
  | traverse t => some t.toJson
  | recurse r => some r.toJson
  | backtrack location optional =>
    some (.object [("location", location.toJson), Json.flag "optional" optional])
  | markLocation location => some (.object [("location", location.toJson)])
  | coerceType types => some (.object [("target_types", types.toJson)])
  | filter predicate => some (.object [("predicate", predicate.toJson)])
  | fold scope => some (.object [("fold_scope_location", scope.toJson)])
  | constructResult fields => some (.object [("fields", outputsJson fields)])
  | _ => none

def toJson (b : Block) : Json :=
  match b.payloadJson with
  | some payload => .object [(b.kind, payload)]
  | none => .text b.kind

def renderJson (blocks : List Block) : String := (Json.array (blocks.map toJson)).render

/-- A block without payload, by its name. -/
def ofName? (name : String) : Option Block :=
  if name = "Unfold" then some unfold
  else if name = "OutputSource" then some outputSource
  else if name = "EndOptional" then some endOptional
  else if name = "GlobalOperationsStart" then some globalOperationsStart
  else none

def decodePayload (name : String) : Decoder Block :=
  if name = "QueryRoot" then
    Decoder.record ["start_types"] fun fields depth =>
      (fields.required "start_types" (NameSet.decode depth)).map queryRoot
  else if name = "Traverse" then fun depth d => (Traverse.decode depth d).map traverse
  else if name = "Recurse" then fun depth d => (Recurse.decode depth d).map recurse
  else if name = "Backtrack" then
    Decoder.record ["location", "optional"] fun fields depth => do
      let location ← fields.required "location" (Location.decode depth)
      let optional ← fields.optional "optional" (Decoder.bool depth) false
      some (backtrack location optional)
  else if name = "MarkLocation" then
    Decoder.record ["location"] fun fields depth =>
      (fields.required "location" (Location.decode depth)).map markLocation
  else if name = "CoerceType" then
    Decoder.record ["target_types"] fun fields depth =>
      (fields.required "target_types" (NameSet.decode depth)).map coerceType
  else if name = "Filter" then
    Decoder.record ["predicate"] fun fields depth =>
      (fields.required "predicate" (Expr.decode depth)).map filter
  else if name = "Fold" then
    Decoder.record ["fold_scope_location"] fun fields depth =>
      (fields.required "fold_scope_location" (FoldLocation.decode depth)).map fold
  else if name = "ConstructResult" then
    Decoder.record ["fields"] fun fields depth =>
      (fields.required "fields" (Decoder.members Expr.decode depth)).map
        fun entries => constructResult (OrderedMap.ofList entries)
  else fun _ _ => none

def decode : Decoder Block
  | _, .text name => ofName? name
  | depth + 1, .object [(name, payload)] =>
    match ofName? name, payload with
    | some block, .null => some block
    | some _, _ => none
    | none, _ => decodePayload name depth payload
  | _, _ => none

/-- Read a stream from its JSON text. -/
def readAll (text : String) : Option (List Block) := (Decoder.list decode).run text

end Block

end GraphPlan
