import GraphPlan.Error
import GraphPlan.Expr
import GraphPlan.Sql.Term

namespace GraphPlan

namespace Sql

/-- What is known of the vertices other than the one at hand. -/
structure Scope where
  field : Location → String → Option Term
  /-- A column that is not null exactly where the vertex is there. -/
  presence : Location → Option Term

/-- No other vertex is known. -/
def Scope.empty : Scope := ⟨fun _ _ => none, fun _ => none⟩

/-- A known vertex: the qualifier of its columns, and the column that shows its presence. -/
structure ScopeEntry where
  location : Location
  qualifier : String
  presence : Option String

/-- The first entry of a location counts. -/
def Scope.ofEntries (entries : List ScopeEntry) : Scope where
  field location field :=
    (entries.find? (·.location == location)).map fun e => .column (some e.qualifier) field
  presence location := do
    let e ← entries.find? (·.location == location)
    some (.column (some e.qualifier) (← e.presence))

end Sql

namespace Expr

inductive TermFault where
  | unknownLocation (location : Location)
  | notCollection (e : Expr)
  | notScalar (value : Json)

def TermFault.error : TermFault → Error
  | unknownLocation location =>
    .internal ("expression references location " ++ location.name ++ ", which is not bound here")
  | notCollection e => .internal ("expected a collection operand, found " ++ e.render)
  | notScalar value => .internal ("literal " ++ value.render ++ " is not a scalar")

/-- Integers of 63 bits and a sign stay integers; larger ones become doubles. -/
def numberConstant : Number → Sql.Constant
  | .int z => if z.val < 0x8000000000000000 then .int z.val else .double (Decimal.Double.nearest z.val)
  | .double d => .double d

def scalar : Json → Except Error Sql.Term
  | .null => .ok (.constant .null)
  | .bool b => .ok (.constant (.bool b))
  | .number n => .ok (.constant (numberConstant n))
  | .text s => .ok (.constant (.text s))
  | value => .error (TermFault.notScalar value).error

def scalars : List Json → Except Error (List Sql.Term)
  | [] => .ok []
  | value :: values => do
    let term ← scalar value
    return term :: (← scalars values)

/-- The items of a collection. An argument stands for all of its items. -/
def collection : Expr → Except Error (List Sql.Term)
  | literal ⟨.array values, _⟩ => scalars values
  | argument name => .ok [.param name]
  | e => .error (TermFault.notCollection e).error

def orUnknown (location : Location) : Option Sql.Term → Except Error Sql.Term
  | some term => .ok term
  | none => .error (TermFault.unknownLocation location).error

/-- Combine two terms; a fault of the left one comes first. -/
def both (combine : Sql.Term → Sql.Term → Sql.Term) (left right : Except Error Sql.Term) :
    Except Error Sql.Term := do
  let l ← left
  let r ← right
  return combine l r

/-- A text that has another somewhere inside. -/
def likeInside (whole part : Sql.Term) : Sql.Term :=
  .like whole (.concat [.text "%", part, .text "%"])

/-- The term of an expression about a vertex of the given table. -/
def toTerm (table : Sql.BoundTable) (scope : Sql.Scope) : Expr → Except Error Sql.Term
  | literal value => scalar value.json
  | argument name => .ok (.param name)
  | localField field => .ok (table.column field)
  | contextField location field => orUnknown location (scope.field location field)
  | contextExists location => orUnknown location ((scope.presence location).map .isNotNull)
  | not e => do return .not (← e.toTerm table scope)
  | binary op left right =>
    match op with
    | .eq => both (.compare .eq) (left.toTerm table scope) (right.toTerm table scope)
    | .notEq => both (.compare .notEq) (left.toTerm table scope) (right.toTerm table scope)
    | .lt => both (.compare .lt) (left.toTerm table scope) (right.toTerm table scope)
    | .ltEq => both (.compare .ltEq) (left.toTerm table scope) (right.toTerm table scope)
    | .gt => both (.compare .gt) (left.toTerm table scope) (right.toTerm table scope)
    | .gtEq => both (.compare .gtEq) (left.toTerm table scope) (right.toTerm table scope)
    | .and => both (fun l r => .and [l, r]) (left.toTerm table scope) (right.toTerm table scope)
    | .or => both (fun l r => .or [l, r]) (left.toTerm table scope) (right.toTerm table scope)
    | .hasSubstring => both likeInside (left.toTerm table scope) (right.toTerm table scope)
    | .inCollection => do
      let element ← left.toTerm table scope
      return .inList element (← right.collection)
    | .contains => do
      let element ← right.toTerm table scope
      return .inList element (← left.collection)

end Expr

end GraphPlan
