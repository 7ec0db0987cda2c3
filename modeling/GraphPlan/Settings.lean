import GraphPlan.Json.Decoder
import GraphPlan.Sql.Statement
import GraphPlan.Text.Shown

namespace GraphPlan

/-- The family of databases that a statement is meant for. -/
inductive Backend where
  | postgres
  | mysql
  | mariadb
  | sqlite
  | mssql
  deriving DecidableEq

namespace Backend

def name : Backend → String
  | postgres => "postgres"
  | mysql => "mysql"
  | mariadb => "mariadb"
  | sqlite => "sqlite"
  | mssql => "mssql"

def all : List Backend := [postgres, mysql, mariadb, sqlite, mssql]

def ofName? (name : String) : Option Backend := all.find? (·.name == name)

def decode : Decoder Backend := Decoder.tag ofName?

/-- The set operation that the database admits between the anchor and the step of a recursion. -/
def combinatorName : Backend → String
  | mssql => "union_all"
  | _ => "union"

end Backend

structure Settings where
  backend : Backend
  /-- Overrides the set operation that the catalog names. -/
  combinator : Option String
  /-- The column of a recursion that counts its hops. -/
  depthColumn : String
  /-- The column of a recursion that lists the vertices on the way. -/
  pathColumn : String
  /-- Stands between the vertices of a path and at both its ends. -/
  pathDelimiter : String
  /-- The type that a vertex has inside a path. -/
  castType : String
  /-- What the names of all generated tables start with. -/
  cteStem : String
  deriving DecidableEq

namespace Settings

def forBackend (backend : Backend) : Settings where
  backend := backend
  combinator := none
  depthColumn := "__depth_internal_name"
  pathColumn := "__path_internal_name"
  pathDelimiter := ","
  castType := "VARCHAR"
  cteStem := "__gql_cte"

def standard : Settings := forBackend .postgres

def combinatorName (s : Settings) : String := s.combinator.getD s.backend.combinatorName

inductive Fault where
  | empty (field : String)
  | metacharacter (delimiter : String) (c : Char)
  | sameColumn (column : String)
  | unparsed
  | unreadable

def Fault.error : Fault → Error
  | empty field => .settings (field ++ " must not be empty")
  | metacharacter delimiter c =>
    .settings ("path_delimiter " ++ Text.shown delimiter ++ " contains LIKE metacharacter " ++
      Text.shownChar c)
  | sameColumn column =>
    .settings ("depth_column and path_column are both " ++ Text.shown column)
  | unparsed => .settings "failed to parse TOML"
  | unreadable => .settings "failed to read"

/-- Characters with a meaning of their own in a pattern. -/
def isMetacharacter (c : Char) : Bool := c = '%' || c = '_' || c = '\\'

/-- The settings that must not be empty, by name. -/
def needed (s : Settings) : List (String × String) :=
  [("depth_column", s.depthColumn), ("path_column", s.pathColumn),
    ("path_delimiter", s.pathDelimiter), ("cast_type", s.castType), ("cte_prefix", s.cteStem)]

/-- Settings that no statement can be built from are refused; the first fault counts. -/
def check (s : Settings) : Except Error Unit :=
  match s.needed.find? (·.2 == "") with
  | some (field, _) => .error (Fault.empty field).error
  | none =>
    match s.pathDelimiter.toList.find? isMetacharacter with
    | some c => .error (Fault.metacharacter s.pathDelimiter c).error
    | none =>
      if s.depthColumn = s.pathColumn then .error (Fault.sameColumn s.depthColumn).error
      else
        match s.combinator with
        | some name => (Sql.Combinator.ofName name).map fun _ => ()
        | none => .ok ()

def decode : Decoder Settings :=
  Decoder.closedRecord ["backend", "recursion_combinator", "depth_column", "path_column",
      "path_delimiter", "cast_type", "cte_prefix"] fun fields depth => do
    let d := standard
    let backend ← fields.optional "backend" (Backend.decode depth) d.backend
    let combinator ← fields.optional "recursion_combinator"
      (Decoder.nullable Decoder.text depth) d.combinator
    let depthColumn ← fields.optional "depth_column" (Decoder.text depth) d.depthColumn
    let pathColumn ← fields.optional "path_column" (Decoder.text depth) d.pathColumn
    let pathDelimiter ← fields.optional "path_delimiter" (Decoder.text depth) d.pathDelimiter
    let castType ← fields.optional "cast_type" (Decoder.text depth) d.castType
    let cteStem ← fields.optional "cte_prefix" (Decoder.text depth) d.cteStem
    some ⟨backend, combinator, depthColumn, pathColumn, pathDelimiter, castType, cteStem⟩

end Settings

end GraphPlan
