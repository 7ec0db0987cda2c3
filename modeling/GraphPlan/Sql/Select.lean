import GraphPlan.Sql.Term

namespace GraphPlan.Sql

/-- A selected term, under a name of its own or not. -/
structure Item where
  term : Term
  label : Option String

def Item.labelled (term : Term) (label : String) : Item := ⟨term, some label⟩

def Item.render (i : Item) : String :=
  match i.label with
  | some label => i.term.render ++ " AS " ++ quoteName label
  | none => i.term.render

inductive JoinKind where
  | inner
  | leftOuter
  deriving DecidableEq

def JoinKind.words : JoinKind → String
  | inner => "INNER JOIN"
  | leftOuter => "LEFT OUTER JOIN"

/-- What a query selects from. A query in this place carries its own parts and a label. -/
inductive Source where
  | table (t : BoundTable)
  | query (distinct : Bool) (projection : List Item) (source : Source) (filter : Option Term)
      (label : String)
  | join (kind : JoinKind) (left right : Source) (on : Term)

/-- The text of a query, given that of its source. -/
def selectText (distinct : Bool) (projection : List Item) (source : String) (filter : Option Term) :
    String :=
  (if distinct then "SELECT DISTINCT " else "SELECT ") ++
    String.intercalate ", " (projection.map Item.render) ++ " FROM " ++ source ++
    match filter with
    | some condition => " WHERE " ++ condition.render
    | none => ""

namespace Source

def render : Source → String
  | table t => t.render
  | query distinct projection source filter label =>
    "(" ++ selectText distinct projection source.render filter ++ ") AS " ++ quoteName label
  | join kind left right on =>
    left.render ++ " " ++ kind.words ++ " " ++ right.render ++ " ON " ++ on.render

/-- The joins of a kind, those inside queries not counted. -/
def countJoins (wanted : JoinKind) : Source → Nat
  | table _ => 0
  | query .. => 0
  | join kind left right _ =>
    (if kind = wanted then 1 else 0) + left.countJoins wanted + right.countJoins wanted

end Source

structure Select where
  distinct : Bool
  projection : List Item
  source : Source
  filter : Option Term

namespace Select

def render (s : Select) : String := selectText s.distinct s.projection s.source.render s.filter

/-- The query as a source of another. -/
def toSource (s : Select) (label : String) : Source :=
  .query s.distinct s.projection s.source s.filter label

end Select

end GraphPlan.Sql
