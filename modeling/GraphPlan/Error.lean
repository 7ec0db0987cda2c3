namespace GraphPlan

/-- What stops the planning of a query. A fault of the block stream, of an edge description or of the query
tree is internal: whoever built them broke a promise. A fault of the settings is the user's to mend. -/
inductive Error where
  /-- The block stream breaks the grammar, at one block or as a whole. -/
  | malformed (position : Option Nat) (block reason : String)
  /-- The edge of a recursion is described in a way that no recursive query can follow. -/
  | edgeShape (location relation detail : String)
  | internal (detail : String)
  /-- The anchor and the step of a recursion cannot be combined by the operation of this name. -/
  | combinator (name : String)
  | settings (detail : String)
  deriving DecidableEq

namespace Error

inductive Kind where
  | internal
  | configuration
  deriving DecidableEq

def kind : Error → Kind
  | malformed .. => .internal
  | edgeShape .. => .internal
  | internal _ => .internal
  | combinator _ => .configuration
  | settings _ => .configuration

def isInternal (e : Error) : Bool := e.kind == .internal

def Kind.label : Kind → String
  | internal => "INTERNAL"
  | configuration => "CONFIGURATION"

/-- Where a malformed stream is at fault, in words. -/
def place : Option Nat → String
  | some position => "position " ++ position.repr
  | none => "block sequence"

def message : Error → String
  | malformed position block reason =>
    "malformed IR at " ++ place position ++ ": " ++ reason ++ " (block: " ++ block ++ ")"
  | edgeShape location relation detail =>
    "unsupported edge shape for relation " ++ relation ++ " at " ++ location ++ ": " ++ detail
  | internal detail => "internal error: " ++ detail
  | combinator name =>
    "cannot combine anchor and recursive clauses with operation \"" ++ name ++ "\""
  | settings detail => "invalid configuration: " ++ detail

end Error

end GraphPlan
