import GraphPlan.Text.Invisible

namespace GraphPlan.Text

/-- The code point of a character in hexadecimal, as `\u` and braces. -/
def showCode (c : Char) : List Char :=
  ['\\', 'u', '\x7b'] ++ Nat.toDigits 16 c.toNat ++ ['\x7d']

def showChar (quote : Char) (c : Char) : List Char :=
  if c = '\x00' then ['\\', '0']
  else if c = '\t' then ['\\', 't']
  else if c = '\r' then ['\\', 'r']
  else if c = '\n' then ['\\', 'n']
  else if c = '\\' then ['\\', '\\']
  else if c = quote then ['\\', c]
  else if isInvisible c then showCode c
  else [c]

/-- A text as it is shown inside messages, between quotes. -/
def shown (text : String) : String :=
  String.ofList ('"' :: (text.toList.flatMap (showChar '"') ++ ['"']))

def shownChar (c : Char) : String :=
  String.ofList ('\'' :: (showChar '\'' c ++ ['\'']))

end GraphPlan.Text
