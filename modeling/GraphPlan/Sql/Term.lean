import GraphPlan.Json.Value
import GraphPlan.Sql.Name

namespace GraphPlan.Sql

inductive Constant where
  | null
  | bool (b : Bool)
  | int (z : Int)
  | double (d : Decimal.Double)
  | text (s : String)
  deriving DecidableEq

def Constant.render : Constant → String
  | null => "NULL"
  | bool true => "TRUE"
  | bool false => "FALSE"
  | int z => intText z
  | double d => d.plain
  | text s => quoteText s

inductive Comparison where
  | eq
  | notEq
  | lt
  | ltEq
  | gt
  | gtEq
  deriving DecidableEq

def Comparison.symbol : Comparison → String
  | eq => "="
  | notEq => "<>"
  | lt => "<"
  | ltEq => "<="
  | gt => ">"
  | gtEq => ">="

/-- A scalar expression. Operators are written between parentheses, so that nothing depends on precedence. -/
inductive Term where
  | column (qualifier : Option String) (name : String)
  | constant (c : Constant)
  | param (name : String)
  | cast (e : Term) (type : String)
  | concat (parts : List Term)
  | add (left right : Term)
  | compare (op : Comparison) (left right : Term)
  | and (terms : List Term)
  | or (terms : List Term)
  | not (e : Term)
  | like (e pattern : Term)
  | isNull (e : Term)
  | isNotNull (e : Term)
  | inList (e : Term) (items : List Term)

namespace Term

def text (s : String) : Term := .constant (.text s)

def int (z : Int) : Term := .constant (.int z)

def equal (left right : Term) : Term := .compare .eq left right

/-- A conjunction; that of a single term is the term itself. -/
def all : List Term → Term
  | [e] => e
  | terms => .and terms

/-- A conjunction or disjunction of no terms is a truth value, as is membership in no items. -/
def joined (separator whenEmpty : String) : List String → String
  | [] => whenEmpty
  | parts => "(" ++ String.intercalate separator parts ++ ")"

mutual

def render : Term → String
  | .column (some qualifier) name => quoteName qualifier ++ "." ++ quoteName name
  | .column none name => quoteName name
  | .constant c => c.render
  | .param name => ":" ++ name
  | .cast e type => "CAST(" ++ render e ++ " AS " ++ type ++ ")"
  | .concat parts => joined " || " "()" (renderEach parts)
  | .add left right => "(" ++ render left ++ " + " ++ render right ++ ")"
  | .compare op left right =>
    "(" ++ render left ++ " " ++ op.symbol ++ " " ++ render right ++ ")"
  | .and terms => joined " AND " "TRUE" (renderEach terms)
  | .or terms => joined " OR " "FALSE" (renderEach terms)
  | .not e => "(NOT " ++ render e ++ ")"
  | .like e pattern => "(" ++ render e ++ " LIKE " ++ render pattern ++ ")"
  | .isNull e => "(" ++ render e ++ " IS NULL)"
  | .isNotNull e => "(" ++ render e ++ " IS NOT NULL)"
  | .inList _ [] => "FALSE"
  | .inList e (item :: items) =>
    "(" ++ render e ++ " IN (" ++ String.intercalate ", " (render item :: renderEach items) ++ "))"

def renderEach : List Term → List String
  | [] => []
  | e :: es => render e :: renderEach es

end

end Term

/-- A column of a bound table. -/
def BoundTable.column (b : BoundTable) (name : String) : Term := .column (some b.qualifier) name

end GraphPlan.Sql
