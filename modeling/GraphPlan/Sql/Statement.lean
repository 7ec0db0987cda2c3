import GraphPlan.Error
import GraphPlan.Fingerprint
import GraphPlan.Sql.Select

namespace GraphPlan.Sql

/-- How the rows of the anchor and of the step of a recursion are put together. -/
inductive Combinator where
  | union
  | unionAll
  deriving DecidableEq

namespace Combinator

def words : Combinator → String
  | union => "UNION"
  | unionAll => "UNION ALL"

def ofName (name : String) : Except Error Combinator :=
  if name = "union" then .ok union
  else if name = "union_all" then .ok unionAll
  else .error (.combinator name)

end Combinator

inductive Body where
  | plain (s : Select)
  | compound (anchor : Select) (combinator : Combinator) (step : Select)

namespace Body

def render : Body → String
  | plain s => s.render
  | compound anchor combinator step =>
    anchor.render ++ "\n" ++ combinator.words ++ "\n" ++ step.render

def isCompound : Body → Bool
  | plain _ => false
  | compound .. => true

def countJoins (wanted : JoinKind) : Body → Nat
  | plain s => s.source.countJoins wanted
  | compound anchor _ step => anchor.source.countJoins wanted + step.source.countJoins wanted

end Body

/-- A common table expression. -/
structure Cte where
  name : String
  recursive : Bool
  body : Body

def Cte.render (c : Cte) : String := quoteName c.name ++ " AS (\n" ++ c.body.render ++ "\n)"

structure Statement where
  ctes : List Cte
  body : Select

namespace Statement

def isRecursive (s : Statement) : Bool := s.ctes.any (·.recursive)

/-- The first common table expression of a name. -/
def cte? (s : Statement) (name : String) : Option Cte := s.ctes.find? (·.name == name)

/-- The text in front of the final query. -/
def heading (s : Statement) : String :=
  match s.ctes with
  | [] => ""
  | ctes =>
    (if s.isRecursive then "WITH RECURSIVE " else "WITH ") ++
      String.intercalate ",\n" (ctes.map Cte.render) ++ "\n"

def render (s : Statement) : String := s.heading ++ s.body.render

def fingerprint (s : Statement) : UInt64 := Fingerprint.ofText s.render

end Statement

end GraphPlan.Sql
