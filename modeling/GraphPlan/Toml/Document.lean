import GraphPlan.Toml.Text

namespace GraphPlan.Toml

def isBareKey (c : Char) : Bool := c.isAlphanum || c = '_' || c = '-'

/-- A key, bare or quoted, and what follows. -/
def takeKey : List Char → Option (List Char × List Char)
  | '"' :: rest => basicBody rest
  | '\'' :: rest => literalBody rest
  | cs =>
    match cs.takeWhile isBareKey with
    | [] => none
    | key => some (key, cs.dropWhile isBareKey)

/-- What follows a line break; the end of the document is one too. -/
def takeNewline : List Char → Option (List Char)
  | [] => some []
  | '\n' :: rest => some rest
  | '\r' :: '\n' :: rest => some rest
  | _ => none

/-- The rest of a line: blanks, perhaps a comment, the line break. -/
def takeLineEnd (cs : List Char) : Option (List Char) :=
  match cs.dropWhile isBlank with
  | '#' :: comment => takeNewline (comment.dropWhile isPlain)
  | rest => takeNewline rest

/-- A pair of key and value, and what follows. -/
def takePair (cs : List Char) : Option ((List Char × List Char) × List Char) := do
  let (key, cs) ← takeKey cs
  match cs.dropWhile isBlank with
  | '=' :: cs => do
    let (value, cs) ← read (cs.dropWhile isBlank)
    some ((key, value), cs)
  | _ => none

/-- The pair of a line, if there is one, and what follows the line. -/
def takeLine (cs : List Char) : Option (Option (List Char × List Char) × List Char) :=
  match takeLineEnd cs with
  | some rest => some (none, rest)
  | none => do
    let (pair, cs) ← takePair (cs.dropWhile isBlank)
    let rest ← takeLineEnd cs
    some (some pair, rest)

/-- The pairs of a document, line by line. A line takes up at least one character. -/
def takeLines (cs : List Char) : Option (List (List Char × List Char)) :=
  if cs = [] then some []
  else
    match takeLine cs with
    | none => none
    | some (pair, rest) =>
      if rest.length < cs.length then (takeLines rest).map (pair.toList ++ ·) else none
termination_by cs.length

/-- A mark of the byte order at the start does not count. -/
def dropByteOrderMark : List Char → List Char
  | '\ufeff' :: cs => cs
  | cs => cs

/-- The keys and values of a document, in which no key comes twice. -/
def pairs? (document : String) : Option (List (String × String)) := do
  let lines ← takeLines (dropByteOrderMark document.toList)
  let pairs := lines.map fun (key, value) => (String.ofList key, String.ofList value)
  if (pairs.map Prod.fst).Nodup then some pairs else none

/-- The line of a bare key and its value. -/
def line (key value : String) : String :=
  key ++ " = " ++ String.ofList (write value.toList) ++ "\n"

end GraphPlan.Toml
