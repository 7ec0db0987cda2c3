import GraphPlan.Json.Value
import GraphPlan.Text.Hex

namespace GraphPlan.Json

inductive Token where
  | openArray
  | closeArray
  | openObject
  | closeObject
  | comma
  | colon
  | null
  | bool (b : Bool)
  | number (n : Option Number)
  | text (s : Option String)

def isBlank (c : Char) : Bool := c = ' ' || c = '\t' || c = '\n' || c = '\r'

/-- A part of a string: a character, or a sixteen-bit unit given by its code. -/
inductive Piece where
  | char (c : Char)
  | unit (code : Nat)

/-- What a letter after a backslash stands for. -/
def unescape? (c : Char) : Option Char :=
  if c = '"' then some '"'
  else if c = '\\' then some '\\'
  else if c = '/' then some '/'
  else if c = 'b' then some '\x08'
  else if c = 'f' then some '\x0c'
  else if c = 'n' then some '\n'
  else if c = 'r' then some '\r'
  else if c = 't' then some '\t'
  else none

/-- The parts of a string up to its closing quote, and what follows the quote. -/
def pieces : List Char → Option (List Piece × List Char)
  | [] => none
  | '"' :: rest => some ([], rest)
  | '\\' :: 'u' :: a :: b :: c :: d :: rest => do
    let code ← Text.hexNumber? [a, b, c, d]
    let (ps, rest) ← pieces rest
    some (.unit code :: ps, rest)
  | '\\' :: c :: rest => do
    let c ← unescape? c
    let (ps, rest) ← pieces rest
    some (.char c :: ps, rest)
  | c :: rest =>
    if c.toNat < 32 ∨ c = '\\' then none
    else do
      let (ps, rest) ← pieces rest
      some (.char c :: ps, rest)

def isHighUnit (code : Nat) : Bool := 0xD800 ≤ code && code < 0xDC00

def isLowUnit (code : Nat) : Bool := 0xDC00 ≤ code && code < 0xE000

/-- Put the parts together. A high unit and the low unit right after it make one character, and
neither makes one alone. -/
def joinPieces : List Piece → Option (List Char)
  | [] => some []
  | .char c :: ps => (joinPieces ps).map (c :: ·)
  | [.unit code] => if isHighUnit code || isLowUnit code then none else some [Char.ofNat code]
  | .unit code :: .char c :: ps =>
    if isHighUnit code || isLowUnit code then none
    else (joinPieces ps).map (Char.ofNat code :: c :: ·)
  | .unit code :: .unit next :: ps =>
    if isHighUnit code then
      if isLowUnit next then
        (joinPieces ps).map (Char.ofNat (0x10000 + 1024 * (code - 0xD800) + (next - 0xDC00)) :: ·)
      else none
    else if isLowUnit code then none
    else (joinPieces (.unit next :: ps)).map (Char.ofNat code :: ·)

/-- A number as it is spelled: whole digits, then perhaps a fraction, then perhaps an exponent. -/
structure Numeral where
  negative : Bool
  whole : List Char
  fraction : Option (List Char)
  exponent : Option Int

/-- An integer spelling within 64 bits stays an integer, negative zero excepted. -/
def Numeral.value (n : Numeral) : Option Number :=
  let z : Int := if n.negative then -(Decimal.digitsValue n.whole : Int)
    else Decimal.digitsValue n.whole
  if h : -0x8000000000000000 ≤ z ∧ z < 0x10000000000000000 ∧ n.fraction = none ∧ n.exponent = none ∧
      ¬(n.negative ∧ z = 0) then
    some (.int ⟨z, h.1, h.2.1⟩)
  else
    (Decimal.Double.ofScaled
      (Decimal.scaledOf n.negative n.whole (n.fraction.getD []) (n.exponent.getD 0))).map .double

/-- The digits at the front, of which there must be one. -/
def takeDigits (cs : List Char) : Option (List Char × List Char) :=
  match cs.takeWhile Decimal.isDigit with
  | [] => none
  | digits => some (digits, cs.dropWhile Decimal.isDigit)

/-- Whole digits have no leading zero. -/
def takeWhole : List Char → Option (List Char × List Char)
  | '0' :: rest => some (['0'], rest)
  | cs => takeDigits cs

def takeFraction : List Char → Option (Option (List Char) × List Char)
  | '.' :: rest => (takeDigits rest).map fun (digits, rest) => (some digits, rest)
  | cs => some (none, cs)

def takeExponent : List Char → Option (Option Int × List Char)
  | c :: rest =>
    if c = 'e' ∨ c = 'E' then
      let split := Decimal.Double.splitSign rest
      (takeDigits split.2).map fun (digits, rest) =>
        let n : Int := Decimal.digitsValue digits
        (some (if split.1 then -n else n), rest)
    else some (none, c :: rest)
  | [] => some (none, [])

def takeUnsigned (negative : Bool) (cs : List Char) : Option (Numeral × List Char) := do
  let (whole, cs) ← takeWhole cs
  let (fraction, cs) ← takeFraction cs
  let (exponent, cs) ← takeExponent cs
  some (⟨negative, whole, fraction, exponent⟩, cs)

def takeNumeral : List Char → Option (Numeral × List Char)
  | '-' :: rest => takeUnsigned true rest
  | cs => takeUnsigned false cs

/-- The first token of a text that does not start with a blank. -/
def takeToken : List Char → Option (Token × List Char)
  | '[' :: rest => some (.openArray, rest)
  | ']' :: rest => some (.closeArray, rest)
  | '\x7b' :: rest => some (.openObject, rest)
  | '\x7d' :: rest => some (.closeObject, rest)
  | ',' :: rest => some (.comma, rest)
  | ':' :: rest => some (.colon, rest)
  | '"' :: rest => (pieces rest).map fun (ps, rest) => (.text ((joinPieces ps).map String.ofList), rest)
  | 'n' :: 'u' :: 'l' :: 'l' :: rest => some (.null, rest)
  | 't' :: 'r' :: 'u' :: 'e' :: rest => some (.bool true, rest)
  | 'f' :: 'a' :: 'l' :: 's' :: 'e' :: rest => some (.bool false, rest)
  | cs => (takeNumeral cs).map fun (n, rest) => (.number n.value, rest)

theorem pieces_shorter {cs rest : List Char} {ps : List Piece} (h : pieces cs = some (ps, rest)) :
    rest.length < cs.length := by
  fun_induction pieces cs generalizing ps rest with
  | case1 => simp at h
  | case2 r => simp_all
  | case3 a b c d r ih =>
    simp only [Option.bind_eq_bind, Option.bind_eq_some_iff] at h
    obtain ⟨code, -, ⟨ps', r'⟩, hp, h⟩ := h
    have := ih hp
    simp_all; omega
  | case4 c r _ ih =>
    simp only [Option.bind_eq_bind, Option.bind_eq_some_iff] at h
    obtain ⟨code, -, ⟨ps', r'⟩, hp, h⟩ := h
    have := ih hp
    simp_all; omega
  | case5 => simp at h
  | case6 c r _ _ _ _ ih =>
    simp only [Option.bind_eq_bind, Option.bind_eq_some_iff] at h
    obtain ⟨⟨ps', r'⟩, hp, h⟩ := h
    have := ih hp
    simp_all; omega

theorem takeDigits_shorter {cs rest digits : List Char} (h : takeDigits cs = some (digits, rest)) :
    rest.length < cs.length := by
  have hs := congrArg List.length (List.takeWhile_append_dropWhile (p := Decimal.isDigit) (l := cs))
  unfold takeDigits at h
  split at h
  · simp at h
  · next hne =>
    have hpos : 0 < (cs.takeWhile Decimal.isDigit).length := List.length_pos_iff.mpr hne
    simp only [Option.some.injEq, Prod.mk.injEq] at h
    obtain ⟨-, rfl⟩ := h
    simp only [List.length_append] at hs
    omega

theorem takeWhole_shorter {cs rest digits : List Char} (h : takeWhole cs = some (digits, rest)) :
    rest.length < cs.length := by
  unfold takeWhole at h
  split at h
  · simp_all
  · exact takeDigits_shorter h

theorem takeFraction_le {cs rest : List Char} {f : Option (List Char)}
    (h : takeFraction cs = some (f, rest)) : rest.length ≤ cs.length := by
  unfold takeFraction at h
  split at h
  · obtain ⟨⟨ds, r⟩, hd, he⟩ := Option.map_eq_some_iff.mp h
    have := takeDigits_shorter hd
    simp_all; omega
  · simp_all

theorem splitSign_le (cs : List Char) : (Decimal.Double.splitSign cs).2.length ≤ cs.length := by
  unfold Decimal.Double.splitSign
  split <;> simp

theorem takeExponent_le {cs rest : List Char} {e : Option Int}
    (h : takeExponent cs = some (e, rest)) : rest.length ≤ cs.length := by
  unfold takeExponent at h
  split at h
  · next c r =>
    split at h
    · obtain ⟨⟨ds, r'⟩, hd, he⟩ := Option.map_eq_some_iff.mp h
      have := takeDigits_shorter hd
      have := splitSign_le r
      simp_all; omega
    · simp_all
  · simp_all

theorem takeUnsigned_shorter {negative : Bool} {cs rest : List Char} {n : Numeral}
    (h : takeUnsigned negative cs = some (n, rest)) : rest.length < cs.length := by
  simp only [takeUnsigned, Option.bind_eq_bind, Option.bind_eq_some_iff] at h
  obtain ⟨⟨w, r1⟩, h1, ⟨f, r2⟩, h2, ⟨e, r3⟩, h3, h⟩ := h
  have := takeWhole_shorter h1
  have := takeFraction_le h2
  have := takeExponent_le h3
  simp_all; omega

theorem takeNumeral_shorter {cs rest : List Char} {n : Numeral}
    (h : takeNumeral cs = some (n, rest)) : rest.length < cs.length := by
  unfold takeNumeral at h
  split at h
  · have := takeUnsigned_shorter h
    simp; omega
  · exact takeUnsigned_shorter h

theorem takeToken_shorter {cs rest : List Char} {t : Token} (h : takeToken cs = some (t, rest)) :
    rest.length < cs.length := by
  unfold takeToken at h
  split at h
  case h_7 r =>
    obtain ⟨⟨ps, r'⟩, hp, he⟩ := Option.map_eq_some_iff.mp h
    have := pieces_shorter hp
    simp_all; omega
  case h_11 =>
    obtain ⟨⟨n, r'⟩, hn, he⟩ := Option.map_eq_some_iff.mp h
    have := takeNumeral_shorter hn
    simp_all
  all_goals simp_all; try omega

/-- All tokens of a text, blanks between them left out. -/
def tokens (cs : List Char) : Option (List Token) :=
  match cs with
  | [] => some []
  | c :: rest =>
    if isBlank c then tokens rest
    else
      match h : takeToken (c :: rest) with
      | none => none
      | some (t, after) =>
        have := takeToken_shorter h
        (tokens after).map (t :: ·)
termination_by cs.length
decreasing_by all_goals simp only [List.length_cons] at *; omega

end GraphPlan.Json
