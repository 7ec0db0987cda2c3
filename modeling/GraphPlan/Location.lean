import GraphPlan.Json.Decoder

namespace GraphPlan

inductive Direction where
  | inward
  | outward
  deriving DecidableEq, Ord

namespace Direction

def name : Direction → String
  | inward => "in"
  | outward => "out"

def ofName? (name : String) : Option Direction :=
  if name = "in" then some inward else if name = "out" then some outward else none

def decode : Decoder Direction := Decoder.tag ofName?

def toJson (d : Direction) : Json := .text d.name

end Direction

/-- A vertex of a query: the path of fields from the root to it, and a count that tells repeated visits of
one path apart. -/
structure Location where
  path : List String
  visit : UInt32
  deriving DecidableEq, Ord

namespace Location

def root (type : String) : Location := ⟨[type], 1⟩

/-- The first visit of the vertex behind a field. -/
def descend (l : Location) (field : String) : Location := ⟨l.path ++ [field], 1⟩

def revisit (l : Location) : Location := ⟨l.path, l.visit + 1⟩

def pathName (path : List String) : String := String.intercalate "__" path

/-- A name that can serve as an identifier, such as `Animal__out_ParentOf___1`. -/
def name (l : Location) : String := pathName l.path ++ "___" ++ Nat.repr l.visit.toNat

def decode : Decoder Location :=
  Decoder.record ["query_path", "visit_counter"] fun fields depth => do
    let path ← fields.required "query_path" (Decoder.list Decoder.text depth)
    let visit ← fields.required "visit_counter" (Decoder.word depth)
    some ⟨path, visit⟩

end Location

/-- The integer that a word stands for. -/
def ExactInt.ofWord (w : UInt32) : ExactInt where
  val := w.toNat
  low := by omega
  high := by have := w.toNat_lt; omega

namespace Json

def word (w : UInt32) : Json := .number (.int (.ofWord w))

def texts (ss : List String) : Json := .array (ss.map .text)

end Json

def Location.toJson (l : Location) : Json :=
  .object [("query_path", .texts l.path), ("visit_counter", .word l.visit)]

structure FoldLocation where
  base : Location
  edges : List (Direction × String)
  deriving DecidableEq

namespace FoldLocation

/-- The scope behind one edge. -/
def behind (base : Location) (direction : Direction) (edge : String) : FoldLocation :=
  ⟨base, [(direction, edge)]⟩

def compare (a b : FoldLocation) : Ordering :=
  (Ord.compare a.base b.base).then
    (List.compareLex (compareLex (compareOn Prod.fst) (compareOn Prod.snd)) a.edges b.edges)

def edgesName : List (Direction × String) → String
  | [] => ""
  | (direction, edge) :: edges => "__" ++ direction.name ++ "_" ++ edge ++ edgesName edges

def name (f : FoldLocation) : String :=
  Location.pathName f.base.path ++ edgesName f.edges ++ "___" ++ Nat.repr f.base.visit.toNat

def decode : Decoder FoldLocation :=
  Decoder.record ["base_location", "fold_path"] fun fields depth => do
    let base ← fields.required "base_location" (Location.decode depth)
    let edges ← fields.required "fold_path"
      (Decoder.list (Decoder.pair Direction.decode Decoder.text) depth)
    some ⟨base, edges⟩

def edgeJson (edge : Direction × String) : Json := .array [edge.1.toJson, .text edge.2]

def toJson (f : FoldLocation) : Json :=
  .object [("base_location", f.base.toJson), ("fold_path", .array (f.edges.map edgeJson))]

end FoldLocation

end GraphPlan
