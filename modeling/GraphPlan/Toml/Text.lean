import GraphPlan.Text.Hex

namespace GraphPlan.Toml

inductive Style where
  | basic
  | literal
  | multiBasic
  | multiLiteral
  deriving DecidableEq

def isControl (c : Char) : Bool := c.toNat < 32 || c.toNat = 127

/-- Controls that no style holds plainly. -/
def isHardControl (c : Char) : Bool := isControl c && c != '\t' && c != '\n'

/-- The length of the longest run of a mark, given that of the run at hand. -/
def longestRun (mark : Char) (run : Nat) : List Char → Nat
  | [] => run
  | c :: cs => if c = mark then longestRun mark (run + 1) cs else max run (longestRun mark 0 cs)

/-- The first of the four styles that can hold a text plainly; a basic one, with escapes, if none can. -/
def styleOf (cs : List Char) : Style :=
  let hard := cs.any isHardControl
  let backslash := cs.contains '\\'
  let newline := cs.contains '\n'
  let singles := longestRun '\'' 0 cs
  let doubles := longestRun '"' 0 cs
  if !hard && !backslash && doubles = 0 && !newline then .basic
  else if !hard && singles = 0 && !newline then .literal
  else if !hard && !backslash && doubles ≤ 2 then .multiBasic
  else if !hard && singles ≤ 2 then .multiLiteral
  else if newline then .multiBasic
  else .basic

def upperHex (n : Nat) : Char := (Nat.digitChar n).toUpper

/-- A character other than a quote inside a basic style; several lines hold a line break as it is. -/
def escape (multi : Bool) (c : Char) : List Char :=
  if c = '\x08' then ['\\', 'b']
  else if c = '\t' then ['\\', 't']
  else if c = '\x0c' then ['\\', 'f']
  else if c = '\r' then ['\\', 'r']
  else if c = '\\' then ['\\', '\\']
  else if c = '\n' then if multi then ['\n'] else ['\\', 'n']
  else if isControl c then
    ['\\', 'u', '0', '0', upperHex (c.toNat / 16), upperHex (c.toNat % 16)]
  else [c]

def basicText : List Char → List Char
  | [] => []
  | c :: cs => (if c = '"' then ['\\', '"'] else escape false c) ++ basicText cs

/-- Three quotes in a row would end the text, so the third is escaped; `run` of them stand before. -/
def multiBasicText (run : Nat) : List Char → List Char
  | [] => []
  | c :: cs =>
    if c = '"' then
      if run = 2 then '\\' :: '"' :: multiBasicText 0 cs else '"' :: multiBasicText (run + 1) cs
    else escape true c ++ multiBasicText 0 cs

/-- A line break right after the opening marks does not count. -/
def opening (cs : List Char) : List Char := if cs.contains '\n' then ['\n'] else []

def write (cs : List Char) : List Char :=
  match styleOf cs with
  | .basic => ['"'] ++ basicText cs ++ ['"']
  | .literal => ['\''] ++ cs ++ ['\'']
  | .multiBasic => ['"', '"', '"'] ++ opening cs ++ multiBasicText 0 cs ++ ['"', '"', '"']
  | .multiLiteral => ['\'', '\'', '\''] ++ opening cs ++ cs ++ ['\'', '\'', '\'']

def isBlank (c : Char) : Bool := c = ' ' || c = '\t'

/-- What a letter after a backslash stands for. -/
def unescape? (c : Char) : Option Char :=
  if c = 'b' then some '\x08'
  else if c = 't' then some '\t'
  else if c = 'n' then some '\n'
  else if c = 'f' then some '\x0c'
  else if c = 'r' then some '\r'
  else if c = '"' then some '"'
  else if c = '\\' then some '\\'
  else none

/-- The text of a code and what was read after it. -/
def prepend (c : Char) (read : List Char × List Char) : List Char × List Char :=
  (c :: read.1, read.2)

/-- Characters that a text may hold as they are. -/
def isPlain (c : Char) : Bool := c = '\t' || !isControl c

/-- The character of a code in digits. -/
def coded? (digits : List Char) : Option Char := (Text.hexNumber? digits).bind Text.charOf?

/-- A basic text up to its closing quote, and what follows. -/
def basicBody : List Char → Option (List Char × List Char)
  | [] => none
  | '"' :: rest => some ([], rest)
  | '\\' :: 'u' :: a :: b :: c :: d :: rest => do
    return prepend (← coded? [a, b, c, d]) (← basicBody rest)
  | '\\' :: 'U' :: a :: b :: c :: d :: e :: f :: g :: h :: rest => do
    return prepend (← coded? [a, b, c, d, e, f, g, h]) (← basicBody rest)
  | '\\' :: c :: rest => do return prepend (← unescape? c) (← basicBody rest)
  | c :: rest => if isPlain c && c != '\\' then (basicBody rest).map (prepend c) else none

/-- A literal text up to its closing quote, and what follows. -/
def literalBody : List Char → Option (List Char × List Char)
  | [] => none
  | '\'' :: rest => some ([], rest)
  | c :: rest => if isPlain c then (literalBody rest).map (prepend c) else none

/-- Up to two quotes before the closing marks belong to the text. -/
def spareQuotes (mark : Char) : List Char → List Char × List Char
  | a :: b :: rest =>
    if a = mark then if b = mark then ([a, b], rest) else ([a], b :: rest) else ([], a :: b :: rest)
  | [a] => if a = mark then ([a], []) else ([], [a])
  | [] => ([], [])

/-- Whether a line ends here, blanks aside. -/
def endsLine (cs : List Char) : Bool :=
  match cs.dropWhile isBlank with
  | '\n' :: _ => true
  | '\r' :: '\n' :: _ => true
  | _ => false

/-- A basic text of several lines up to its closing quotes, and what follows. A backslash at the end of a
line leaves out all blanks and line breaks up to the next character. -/
def multiBasicBody (skipping : Bool) : List Char → Option (List Char × List Char)
  | [] => none
  | '"' :: '"' :: '"' :: rest => some (spareQuotes '"' rest)
  | '\\' :: 'u' :: a :: b :: c :: d :: rest => do
    return prepend (← coded? [a, b, c, d]) (← multiBasicBody false rest)
  | '\\' :: 'U' :: a :: b :: c :: d :: e :: f :: g :: h :: rest => do
    return prepend (← coded? [a, b, c, d, e, f, g, h]) (← multiBasicBody false rest)
  | '\r' :: '\n' :: rest =>
    if skipping then multiBasicBody true rest
    else (multiBasicBody false rest).map fun read => prepend '\r' (prepend '\n' read)
  | '\\' :: c :: rest =>
    if endsLine (c :: rest) then multiBasicBody true (c :: rest)
    else do return prepend (← unescape? c) (← multiBasicBody false rest)
  | c :: rest =>
    if skipping && (isBlank c || c = '\n') then multiBasicBody true rest
    else if (isPlain c || c = '\n') && c != '\\' then (multiBasicBody false rest).map (prepend c)
    else none

/-- A literal text of several lines up to its closing quotes, and what follows. -/
def multiLiteralBody : List Char → Option (List Char × List Char)
  | [] => none
  | '\'' :: '\'' :: '\'' :: rest => some (spareQuotes '\'' rest)
  | '\r' :: '\n' :: rest => (multiLiteralBody rest).map fun read => prepend '\r' (prepend '\n' read)
  | c :: rest =>
    if isPlain c || c = '\n' then (multiLiteralBody rest).map (prepend c) else none

def dropNewline : List Char → List Char
  | '\n' :: rest => rest
  | '\r' :: '\n' :: rest => rest
  | cs => cs

/-- A text in any style, and what follows. -/
def read : List Char → Option (List Char × List Char)
  | '"' :: '"' :: '"' :: rest => multiBasicBody false (dropNewline rest)
  | '\'' :: '\'' :: '\'' :: rest => multiLiteralBody (dropNewline rest)
  | '"' :: rest => basicBody rest
  | '\'' :: rest => literalBody rest
  | _ => none

end GraphPlan.Toml
