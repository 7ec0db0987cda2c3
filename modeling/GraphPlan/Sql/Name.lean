namespace GraphPlan.Sql

/-- Every occurrence of `mark` is written twice. -/
def doubled (mark : Char) : List Char → List Char
  | [] => []
  | c :: cs => if c = mark then mark :: mark :: doubled mark cs else c :: doubled mark cs

/-- Text between two marks, the marks inside it doubled. -/
def enclosed (mark : Char) (text : String) : String :=
  String.ofList (mark :: (doubled mark text.toList ++ [mark]))

def quoteName (name : String) : String := enclosed '"' name

def quoteText (text : String) : String := enclosed '\'' text

structure Table where
  schema : Option String
  name : String
  deriving DecidableEq

def Table.render (t : Table) : String :=
  match t.schema with
  | some schema => quoteName schema ++ "." ++ quoteName t.name
  | none => quoteName t.name

/-- A table as it stands in a query, under a label or under its own name. -/
structure BoundTable where
  table : Table
  label : Option String
  deriving DecidableEq

def Table.bind (t : Table) (label : String) : BoundTable := ⟨t, some label⟩

namespace BoundTable

/-- A reference to a common table expression, which is used under its own name. -/
def named (name : String) : BoundTable := ⟨⟨none, name⟩, none⟩

/-- What qualifies the columns of the table. -/
def qualifier (b : BoundTable) : String := b.label.getD b.table.name

def render (b : BoundTable) : String :=
  match b.label with
  | some label => b.table.render ++ " AS " ++ quoteName label
  | none => b.table.render

end BoundTable

end GraphPlan.Sql
