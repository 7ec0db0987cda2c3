import GraphPlan.Json.Token

namespace GraphPlan

/-- What a text spells. A string or number that stands for nothing, or an object with such a string
for a key, is `unreadable`: the text is well formed, but no use of that part succeeds. -/
inductive Document where
  | null
  | bool (b : Bool)
  | number (n : Number)
  | text (s : String)
  | array (items : List Document)
  | object (members : List (String × Document))
  | unreadable

namespace Document

/-- A container that is still open, with what it holds so far, latest first. A member waits for its
value under the key at hand. -/
inductive Frame where
  | array (done : List Document)
  | member (done : List (Option String × Document)) (key : Option String)

/-- What may come next. -/
inductive State where
  /-- A value. -/
  | value (stack : List Frame)
  /-- A value or the end of the array that was just opened. -/
  | firstItem (stack : List Frame)
  /-- A key or the end of the object that was just opened. -/
  | firstKey (stack : List Frame)
  | key (done : List (Option String × Document)) (stack : List Frame)
  | colon (done : List (Option String × Document)) (key : Option String) (stack : List Frame)
  /-- A comma or the end of the innermost container, which has just received a value. -/
  | after (done : Frame) (stack : List Frame)
  | finished (d : Document)

/-- Hand a complete value to the innermost open container. -/
def plug (d : Document) : List Frame → State
  | [] => .finished d
  | .array done :: stack => .after (.array (d :: done)) stack
  | .member done key :: stack => .after (.member ((key, d) :: done) key) stack

/-- The object of these members, given latest first. -/
def ofMembers (done : List (Option String × Document)) : Document :=
  match done.reverse.mapM fun (key, d) => key.map (·, d) with
  | some members => .object members
  | none => .unreadable

/-- The value of a token that is a whole value. -/
def ofToken : Json.Token → Option Document
  | .null => some .null
  | .bool b => some (.bool b)
  | .number (some n) => some (.number n)
  | .number none => some .unreadable
  | .text (some s) => some (.text s)
  | .text none => some .unreadable
  | _ => none

def startValue (stack : List Frame) : Json.Token → Option State
  | .openArray => some (.firstItem stack)
  | .openObject => some (.firstKey stack)
  | t => (ofToken t).map (plug · stack)

def step : State → Json.Token → Option State
  | .value stack, t => startValue stack t
  | .firstItem stack, .closeArray => some (plug (.array []) stack)
  | .firstItem stack, t => startValue (.array [] :: stack) t
  | .firstKey stack, .closeObject => some (plug (.object []) stack)
  | .firstKey stack, .text key => some (.colon [] key stack)
  | .key done stack, .text key => some (.colon done key stack)
  | .colon done key stack, .colon => some (.value (.member done key :: stack))
  | .after (.array done) stack, .comma => some (.value (.array done :: stack))
  | .after (.array done) stack, .closeArray => some (plug (.array done.reverse) stack)
  | .after (.member done _) stack, .comma => some (.key done stack)
  | .after (.member done _) stack, .closeObject => some (plug (ofMembers done) stack)
  | _, _ => none

/-- The one value that a row of tokens spells. -/
def ofTokens (ts : List Json.Token) : Option Document :=
  match ts.foldlM step (.value []) with
  | some (.finished d) => some d
  | _ => none

def ofText (text : String) : Option Document := (Json.tokens text.toList).bind ofTokens

mutual

/-- A value as the document that spells it. -/
def ofJson : Json → Document
  | .null => null
  | .bool b => bool b
  | .number n => number n
  | .text s => text s
  | .array items => array (ofItems items)
  | .object members => object (ofJsonMembers members)

def ofItems : List Json → List Document
  | [] => []
  | j :: js => ofJson j :: ofItems js

def ofJsonMembers : List (String × Json) → List (String × Document)
  | [] => []
  | (key, j) :: members => (key, ofJson j) :: ofJsonMembers members

end

end Document

end GraphPlan
