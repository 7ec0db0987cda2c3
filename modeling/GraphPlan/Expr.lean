import GraphPlan.Location
import GraphPlan.Json.Literal

namespace GraphPlan

inductive BinaryOp where
  | eq
  | notEq
  | lt
  | ltEq
  | gt
  | gtEq
  | and
  | or
  /-- The left collection has the right value as an element. -/
  | contains
  /-- The right text occurs in the left text. -/
  | hasSubstring
  /-- The left value is an element of the right collection. -/
  | inCollection
  deriving DecidableEq

namespace BinaryOp

def name : BinaryOp → String
  | eq => "eq"
  | notEq => "not_eq"
  | lt => "lt"
  | ltEq => "lt_eq"
  | gt => "gt"
  | gtEq => "gt_eq"
  | and => "and"
  | or => "or"
  | contains => "contains"
  | hasSubstring => "has_substring"
  | inCollection => "in_collection"

def all : List BinaryOp :=
  [eq, notEq, lt, ltEq, gt, gtEq, and, or, contains, hasSubstring, inCollection]

def ofName? (name : String) : Option BinaryOp := all.find? (·.name == name)

def decode : Decoder BinaryOp := Decoder.tag ofName?

def symbol : BinaryOp → String
  | eq => "="
  | notEq => "!="
  | lt => "<"
  | ltEq => "<="
  | gt => ">"
  | gtEq => ">="
  | and => "&&"
  | or => "||"
  | op => op.name

end BinaryOp

inductive Expr where
  | literal (value : Literal)
  /-- An argument given when the query runs. -/
  | argument (name : String)
  /-- A field of the vertex at hand. -/
  | localField (field : String)
  | contextField (location : Location) (field : String)
  /-- Whether the vertex at an optional location is there. -/
  | contextExists (location : Location)
  | not (e : Expr)
  | binary (op : BinaryOp) (left right : Expr)

namespace Expr

def render : Expr → String
  | literal value => value.render
  | argument name => "$" ++ name
  | localField field => field
  | contextField location field => location.name ++ "." ++ field
  | contextExists location => "exists(" ++ location.name ++ ")"
  | not e => "!(" ++ e.render ++ ")"
  | binary op left right => "(" ++ left.render ++ " " ++ op.symbol ++ " " ++ right.render ++ ")"

def toJson : Expr → Json
  | literal value => .object [("Literal", value.json)]
  | argument name => .object [("Variable", .object [("name", .text name)])]
  | localField field => .object [("LocalField", .object [("field", .text field)])]
  | contextField location field =>
    .object [("ContextField", .object [("location", location.toJson), ("field", .text field)])]
  | contextExists location =>
    .object [("ContextFieldExistence", .object [("location", location.toJson)])]
  | not e => .object [("UnaryNot", e.toJson)]
  | binary op left right =>
    .object [("BinaryComposition",
      .object [("op", .text op.name), ("left", left.toJson), ("right", right.toJson)])]

/-- The payload of an alternative other than a negation or a composition. -/
def decodeSimple (name : String) : Decoder Expr :=
  if name = "Literal" then fun depth d => (Literal.decode depth d).map literal
  else if name = "Variable" then
    Decoder.record ["name"] fun fields depth =>
      (fields.required "name" (Decoder.text depth)).map argument
  else if name = "LocalField" then
    Decoder.record ["field"] fun fields depth =>
      (fields.required "field" (Decoder.text depth)).map localField
  else if name = "ContextField" then
    Decoder.record ["location", "field"] fun fields depth => do
      let location ← fields.required "location" (Location.decode depth)
      let field ← fields.required "field" (Decoder.text depth)
      some (contextField location field)
  else if name = "ContextFieldExistence" then
    Decoder.record ["location"] fun fields depth =>
      (fields.required "location" (Location.decode depth)).map contextExists
  else fun _ _ => none

def decode : Nat → Document → Option Expr
  | depth + 1, .object [(name, payload)] =>
    if name = "UnaryNot" then (decode depth payload).map not
    else if name = "BinaryComposition" then
      match depth with
      | 0 => none
      | depth + 1 => do
        let fields ← payload.fields ["op", "left", "right"] false
        let op ← fields.required "op" (BinaryOp.decode depth)
        let left ← fields.required "left" (decode depth)
        let right ← fields.required "right" (decode depth)
        some (binary op left right)
    else decodeSimple name depth payload
  | _, _ => none

end Expr

end GraphPlan
