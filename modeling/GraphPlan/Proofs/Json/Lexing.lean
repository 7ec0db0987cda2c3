import GraphPlan.Json.Document
import Mathlib.Data.List.Forall2

/-!
The text of a value without doubles is read back token by token.

Where a token ends is clear from the token, except for a number: it goes on as long as there are characters
that could belong to it. So what is read is said together with what may come next (`Lexes`), and in the text
of a value a number is followed by a comma, a closing bracket or nothing.
-/

namespace GraphPlan.Json

/-- Controls that are escaped by a letter of their own. -/
def lettered : List Char := ['\x08', '\x0c', '\n', '\r', '\t']

/-- How a character of a string comes back: the other controls are written by their code. -/
def piece (c : Char) : Piece :=
  if c.toNat < 32 ∧ c ∉ lettered then .unit c.toNat else .char c

theorem hexNumber?_control : ∀ n < 32,
    Text.hexNumber? ['0', '0', hexDigit (n / 16), hexDigit (n % 16)] = some n := by
  decide

/-- The escape of a character is read as that character. -/
theorem pieces_escape {rest after : List Char} {ps : List Piece} (h : pieces rest = some (ps, after))
    (c : Char) : pieces (escape c ++ rest) = some (piece c :: ps, after) := by
  unfold escape
  split_ifs with h1 h2 h3 h4 h5 h6 h7 h8
  case pos => simp [h1, pieces, unescape?, h, piece, lettered]
  case pos => simp [h2, pieces, unescape?, h, piece, lettered]
  case pos => simp [h3, pieces, unescape?, h, piece, lettered]
  case pos => simp [h4, pieces, unescape?, h, piece, lettered]
  case pos => simp [h5, pieces, unescape?, h, piece, lettered]
  case pos => simp [h6, pieces, unescape?, h, piece, lettered]
  case pos => simp [h7, pieces, unescape?, h, piece, lettered]
  case pos => simp [pieces, hexNumber?_control _ h8, h, piece, lettered, h3, h4, h5, h6, h7, h8]
  case neg => simp [pieces, h, piece, h2, h8]

theorem pieces_quoted (cs rest : List Char) :
    pieces (cs.flatMap escape ++ '"' :: rest) = some (cs.map piece, rest) := by
  induction cs with
  | nil => simp [pieces]
  | cons c cs ih =>
    rw [List.flatMap_cons, List.append_assoc]
    exact pieces_escape ih c

/-- A character that comes back by its code is no half of a pair, so it can be put before any parts. -/
theorem joinPieces_piece (c : Char) (ps : List Piece) :
    joinPieces (piece c :: ps) = (joinPieces ps).map (c :: ·) := by
  unfold piece
  split
  · next hc =>
    have hhigh : isHighUnit c.toNat = false := by simp [isHighUnit]; omega
    have hlow : isLowUnit c.toNat = false := by simp [isLowUnit]; omega
    cases ps with
    | nil => simp [joinPieces, hhigh, hlow]
    | cons p ps =>
      cases p with
      | char d => simp [joinPieces, hhigh, hlow, Function.comp_def]
      | unit next => simp [joinPieces, hhigh, hlow]
  · simp [joinPieces]

theorem joinPieces_map (cs : List Char) : joinPieces (cs.map piece) = some cs := by
  induction cs with
  | nil => simp [joinPieces]
  | cons c cs ih => rw [List.map_cons, joinPieces_piece, ih, Option.map_some]

theorem isDigit_eq (c : Char) : Decimal.isDigit c = c.isDigit := rfl

theorem digitsValue_toDigits (n : Nat) : Decimal.digitsValue (Nat.toDigits 10 n) = n := by
  have h := Nat.ofDigitChars_ten_toDigits (n := n)
  rwa [Nat.ofDigitChars_eq_foldl] at h

/-- Only zero starts with the digit zero. -/
theorem eq_zero_of_toDigits {n : Nat} {rest : List Char} (h : Nat.toDigits 10 n = '0' :: rest) :
    n = 0 := by
  have hdigit : ∀ d < 10, Nat.digitChar d = '0' → d = 0 := by decide
  induction n using Nat.strongRecOn generalizing rest with
  | ind n ih =>
    rw [Nat.toDigits_eq_if (by decide)] at h
    split at h
    · next hn => exact hdigit n hn (List.cons.inj h).1
    · next hn =>
      cases hd : Nat.toDigits 10 (n / 10) with
      | nil => exact absurd hd Nat.toDigits_ne_nil
      | cons d ds =>
        rw [hd, List.cons_append] at h
        rw [(List.cons.inj h).1] at hd
        have hzero := ih (n / 10) (by omega) hd
        omega

/-- A character with which a number could go on. -/
def extendsNumber (c : Char) : Bool := Decimal.isDigit c || c == '.' || c == 'e' || c == 'E'

/-- A number ends before this text. -/
def Stops (rest : List Char) : Prop := ∀ c ∈ rest.head?, extendsNumber c = false

theorem stops_nil : Stops [] := by
  intro c hc
  cases hc

theorem stops_cons {c : Char} (h : extendsNumber c = false) (rest : List Char) : Stops (c :: rest) := by
  intro d hd
  cases hd
  exact h

section Numbers

variable {rest : List Char}

theorem takeDigits_append (hs : Stops rest) {digits : List Char} (hne : digits ≠ [])
    (hd : ∀ c ∈ digits, Decimal.isDigit c = true) : takeDigits (digits ++ rest) = some (digits, rest) := by
  have hrest : rest.takeWhile Decimal.isDigit = [] ∧ rest.dropWhile Decimal.isDigit = rest := by
    cases rest with
    | nil => exact ⟨rfl, rfl⟩
    | cons c rest =>
      have hc := hs c rfl
      simp only [extendsNumber, Bool.or_eq_false_iff] at hc
      simp [hc]
  have htake : (digits ++ rest).takeWhile Decimal.isDigit = digits := by
    rw [List.takeWhile_append_of_pos hd, hrest.1, List.append_nil]
  have hdrop : (digits ++ rest).dropWhile Decimal.isDigit = rest := by
    rw [List.dropWhile_append_of_pos hd, hrest.2]
  unfold takeDigits
  rw [htake, hdrop]
  cases digits with
  | nil => exact absurd rfl hne
  | cons c digits => rfl

theorem takeWhole_toDigits (hs : Stops rest) (n : Nat) :
    takeWhole (Nat.toDigits 10 n ++ rest) = some (Nat.toDigits 10 n, rest) := by
  have hdigits : ∀ c ∈ Nat.toDigits 10 n, Decimal.isDigit c = true := by
    intro c hc
    rw [isDigit_eq]
    exact Nat.isDigit_of_mem_toDigits (by decide) (by decide) hc
  have htake := takeDigits_append hs Nat.toDigits_ne_nil hdigits
  cases hd : Nat.toDigits 10 n with
  | nil => exact absurd hd Nat.toDigits_ne_nil
  | cons d ds =>
    by_cases h0 : d = '0'
    · subst h0
      have hn := eq_zero_of_toDigits hd
      subst hn
      rw [Nat.toDigits_zero] at hd
      cases hd
      rfl
    · rw [hd] at htake
      unfold takeWhole
      split
      · next heq => exact absurd (List.cons.inj heq).1 h0
      · exact htake

theorem takeFraction_stops (hs : Stops rest) : takeFraction rest = some (none, rest) := by
  unfold takeFraction
  split
  · exact absurd (hs '.' rfl) (by decide)
  · rfl

theorem takeExponent_stops (hs : Stops rest) : takeExponent rest = some (none, rest) := by
  unfold takeExponent
  split
  · next c rest =>
    have hc := hs c rfl
    simp only [extendsNumber, Bool.or_eq_false_iff, beq_eq_false_iff_ne] at hc
    rw [if_neg (by simp [hc])]
  · rfl

theorem takeUnsigned_toDigits (hs : Stops rest) (negative : Bool) (n : Nat) :
    takeUnsigned negative (Nat.toDigits 10 n ++ rest) =
      some (⟨negative, Nat.toDigits 10 n, none, none⟩, rest) := by
  simp [takeUnsigned, takeWhole_toDigits hs, takeFraction_stops hs, takeExponent_stops hs]

theorem takeNumeral_intText (hs : Stops rest) (z : Int) :
    takeNumeral ((intText z).toList ++ rest) =
      some (⟨decide (z < 0), Nat.toDigits 10 z.natAbs, none, none⟩, rest) := by
  have htake := takeUnsigned_toDigits hs (decide (z < 0)) z.natAbs
  rw [toList_intText]
  split
  · next hz =>
    simp only [hz, decide_true] at htake ⊢
    exact htake
  · next hz =>
    simp only [hz, decide_false] at htake ⊢
    unfold takeNumeral
    split
    · next heq =>
      -- a sign is no digit
      have hsign : '-' ∈ Nat.toDigits 10 z.natAbs := by
        cases hd : Nat.toDigits 10 z.natAbs with
        | nil => exact absurd hd Nat.toDigits_ne_nil
        | cons d ds =>
          rw [hd, List.cons_append] at heq
          simp [(List.cons.inj heq).1]
      exact absurd (Nat.isDigit_of_mem_toDigits (by decide) (by decide) hsign) (by decide)
    · exact htake

/-- The digits of an integer of 64 bits stand for that integer. -/
theorem numeral_value (z : ExactInt) :
    Numeral.value ⟨decide (z.val < 0), Nat.toDigits 10 z.val.natAbs, none, none⟩ = some (.int z) := by
  obtain ⟨z, low, high⟩ := z
  have hz : (if z < 0 then -(z.natAbs : Int) else z.natAbs) = z := by
    split <;> omega
  have hzero : ¬(z < 0 ∧ z = 0) := by omega
  simp only [Numeral.value, digitsValue_toDigits, decide_eq_true_eq, hz]
  rw [dif_pos ⟨low, high, trivial, trivial, hzero⟩]

end Numbers

theorem tokens_of_takeToken {c : Char} {cs after : List Char} {t : Token} (hb : isBlank c = false)
    (h : takeToken (c :: cs) = some (t, after)) : tokens (c :: cs) = (tokens after).map (t :: ·) := by
  rw [tokens]
  simp only [hb, Bool.false_eq_true, if_false]
  split
  · next hn => rw [h] at hn; cases hn
  · next hn =>
    rw [h] at hn
    cases hn
    rfl

/-- The characters are read as these tokens, wherever a number may end. -/
def Lexes (cs : List Char) (ts : List Token) : Prop :=
  ∀ rest, Stops rest → tokens (cs ++ rest) = (tokens rest).map (ts ++ ·)

theorem lexes_nil : Lexes [] [] := by
  intro rest hs
  simp

theorem lexes_token {c : Char} {cs : List Char} {t : Token} (hb : isBlank c = false)
    (h : ∀ rest, Stops rest → takeToken (c :: cs ++ rest) = some (t, rest)) : Lexes (c :: cs) [t] := by
  intro rest hs
  exact tokens_of_takeToken hb (h rest hs)

/-- A character that is a token, and ends a number before it. -/
structure Punctuates (c : Char) (t : Token) : Prop where
  stops : extendsNumber c = false
  blank : isBlank c = false
  token : ∀ rest, takeToken (c :: rest) = some (t, rest)

section Punctuation

variable {c : Char} {t : Token} {cs ds : List Char} {ts us : List Token}

theorem Lexes.cons (hc : Punctuates c t) (h : Lexes cs ts) : Lexes (c :: cs) (t :: ts) := by
  intro rest hs
  rw [List.cons_append, tokens_of_takeToken hc.blank (hc.token _), h rest hs, Option.map_map]
  rfl

theorem Lexes.append_cons (h : Lexes cs ts) (hc : Punctuates c t) (hd : Lexes ds us) :
    Lexes (cs ++ c :: ds) (ts ++ t :: us) := by
  intro rest hs
  rw [List.append_assoc, List.cons_append, h _ (stops_cons hc.stops _),
    ← List.cons_append, hd.cons hc rest hs, Option.map_map]
  simp [Function.comp_def]

/-- Values with commas between them. -/
theorem Lexes.intercalate {css : List (List Char)} {tss : List (List Token)} (hc : Punctuates c t)
    (h : List.Forall₂ Lexes css tss) : Lexes ([c].intercalate css) ([t].intercalate tss) := by
  induction h with
  | nil =>
    rw [List.intercalate_nil, List.intercalate_nil]
    exact lexes_nil
  | cons h hrest ih =>
    cases hrest with
    | nil =>
      rw [List.intercalate_singleton, List.intercalate_singleton]
      exact h
    | cons h' hrest =>
      rw [List.intercalate_cons_cons, List.intercalate_cons_cons, List.append_assoc,
        List.append_assoc]
      exact h.append_cons hc ih

end Punctuation

theorem punctuates_comma : Punctuates ',' .comma := ⟨by decide, by decide, fun _ => rfl⟩

theorem punctuates_colon : Punctuates ':' .colon := ⟨by decide, by decide, fun _ => rfl⟩

theorem punctuates_openArray : Punctuates '[' .openArray := ⟨by decide, by decide, fun _ => rfl⟩

theorem punctuates_closeArray : Punctuates ']' .closeArray := ⟨by decide, by decide, fun _ => rfl⟩

theorem punctuates_openObject : Punctuates '\x7b' .openObject := ⟨by decide, by decide, fun _ => rfl⟩

theorem punctuates_closeObject : Punctuates '\x7d' .closeObject := ⟨by decide, by decide, fun _ => rfl⟩

theorem lexes_quoted (s : String) : Lexes (quoted s).toList [.text (some s)] := by
  rw [quoted, String.toList_ofList]
  apply lexes_token (by decide)
  intro rest hs
  have hp := pieces_quoted s.toList rest
  simp [takeToken, hp, joinPieces_map]

theorem lexes_intText (z : ExactInt) : Lexes (intText z.val).toList [.number (some (.int z))] := by
  have hfirst : ∃ c cs, (intText z.val).toList = c :: cs ∧ (c.isDigit = true ∨ c = '-') := by
    rw [toList_intText]
    split
    · exact ⟨_, _, rfl, .inr rfl⟩
    · cases hd : Nat.toDigits 10 z.val.natAbs with
      | nil => exact absurd hd Nat.toDigits_ne_nil
      | cons d ds =>
        have hdigit : d ∈ Nat.toDigits 10 z.val.natAbs := by simp [hd]
        exact ⟨d, ds, rfl, .inl (Nat.isDigit_of_mem_toDigits (by decide) (by decide) hdigit)⟩
  obtain ⟨c, cs, hcs, hc⟩ := hfirst
  have hother : ∀ d : Char, d.isDigit = false → d ≠ '-' → c ≠ d := by
    intro d hd hne he
    subst he
    rcases hc with hc | hc
    · rw [hd] at hc
      cases hc
    · exact hne hc
  rw [hcs]
  apply lexes_token
  · simp [isBlank, hother]
  · intro rest hs
    have hn := takeNumeral_intText hs z.val
    rw [hcs] at hn
    have htoken : takeToken (c :: cs ++ rest) =
        (takeNumeral (c :: cs ++ rest)).map fun found => (.number found.1.value, found.2) := by
      unfold takeToken
      split
      case h_11 => rfl
      all_goals
        next heq => exact absurd (List.cons.inj heq).1 (hother _ (by decide) (by decide))
    rw [htoken, hn]
    simp [numeral_value]

/-- What a container has from all its parts, every value has. -/
theorem inductionOn {motive : Json → Prop} (null : motive .null) (bool : ∀ b, motive (.bool b))
    (number : ∀ n, motive (.number n)) (text : ∀ s, motive (.text s))
    (array : ∀ items, (∀ j ∈ items, motive j) → motive (.array items))
    (object : ∀ members, (∀ m ∈ members, motive m.2) → motive (.object members)) :
    (j : Json) → motive j
  | .null => null
  | .bool b => bool b
  | .number n => number n
  | .text s => text s
  | .array items => array items fun j _ => inductionOn null bool number text array object j
  | .object members => object members fun m _ => inductionOn null bool number text array object m.2
termination_by j => sizeOf j
decreasing_by
  · have hlt := List.sizeOf_lt_of_mem ‹_›
    simp only [Json.array.sizeOf_spec]
    omega
  · have hlt := List.sizeOf_lt_of_mem ‹_›
    have hm : sizeOf m.2 < sizeOf m := by
      obtain ⟨key, j⟩ := m
      simp only [Prod.mk.sizeOf_spec]
      omega
    simp only [Json.object.sizeOf_spec]
    omega

theorem renderItems_eq (items : List Json) : renderItems items = items.map render := by
  induction items with
  | nil => rfl
  | cons j js ih => rw [renderItems, ih, List.map_cons]

theorem renderMembers_eq (members : List (String × Json)) :
    renderMembers members = members.map fun m => quoted m.1 ++ ":" ++ render m.2 := by
  induction members with
  | nil => rfl
  | cons m members ih => rw [renderMembers, ih, List.map_cons]

mutual

/-- No number is a double. -/
def Exact : Json → Prop
  | number (.double _) => False
  | array items => ExactItems items
  | object members => ExactMembers members
  | _ => True

def ExactItems : List Json → Prop
  | [] => True
  | j :: js => Exact j ∧ ExactItems js

def ExactMembers : List (String × Json) → Prop
  | [] => True
  | (_, j) :: members => Exact j ∧ ExactMembers members

end

theorem exactItems_iff {items : List Json} : ExactItems items ↔ ∀ j ∈ items, Exact j := by
  induction items with
  | nil => simp [ExactItems]
  | cons j js ih => simp [ExactItems, ih]

theorem exactMembers_iff {members : List (String × Json)} :
    ExactMembers members ↔ ∀ m ∈ members, Exact m.2 := by
  induction members with
  | nil => simp [ExactMembers]
  | cons m members ih => simp [ExactMembers, ih]

mutual

/-- The tokens of the text of a value. -/
def spell : Json → List Token
  | null => [.null]
  | bool b => [.bool b]
  | number n => [.number (some n)]
  | text s => [.text (some s)]
  | array items => .openArray :: ([.comma].intercalate (spellItems items) ++ [.closeArray])
  | object members => .openObject :: ([.comma].intercalate (spellMembers members) ++ [.closeObject])

def spellItems : List Json → List (List Token)
  | [] => []
  | j :: js => spell j :: spellItems js

def spellMembers : List (String × Json) → List (List Token)
  | [] => []
  | (key, j) :: members => (.text (some key) :: .colon :: spell j) :: spellMembers members

end

theorem lexes_items {items : List Json} (h : ∀ j ∈ items, Lexes j.render.toList j.spell) :
    List.Forall₂ Lexes ((renderItems items).map String.toList) (spellItems items) := by
  induction items with
  | nil => exact .nil
  | cons j js ih =>
    refine .cons (h j List.mem_cons_self) (ih ?_)
    intro k hk
    exact h k (List.mem_cons_of_mem j hk)

theorem lexes_members {members : List (String × Json)}
    (h : ∀ m ∈ members, Lexes m.2.render.toList m.2.spell) :
    List.Forall₂ Lexes ((renderMembers members).map String.toList) (spellMembers members) := by
  induction members with
  | nil => exact .nil
  | cons m members ih =>
    have hvalue := h m List.mem_cons_self
    have hmember := (lexes_quoted m.1).append_cons punctuates_colon hvalue
    refine .cons ?_ (ih ?_)
    · simpa [String.toList_append] using hmember
    · intro k hk
      exact h k (List.mem_cons_of_mem m hk)

theorem lexes_render (j : Json) (h : j.Exact) : Lexes j.render.toList j.spell := by
  induction j using inductionOn with
  | null => exact lexes_token (by decide) fun _ _ => rfl
  | bool b => cases b <;> exact lexes_token (by decide) fun _ _ => rfl
  | number n =>
    cases n with
    | int z => exact lexes_intText z
    | double d => exact h.elim
  | text s => exact lexes_quoted s
  | array items ih =>
    have heach := fun j hj => ih j hj (exactItems_iff.mp h j hj)
    have hitems := Lexes.intercalate punctuates_comma (lexes_items heach)
    have hall := (hitems.append_cons punctuates_closeArray lexes_nil).cons punctuates_openArray
    simpa [render, spell, String.toList_append, String.toList_intercalate] using hall
  | object members ih =>
    have heach := fun m hm => ih m hm (exactMembers_iff.mp h m hm)
    have hmembers := Lexes.intercalate punctuates_comma (lexes_members heach)
    have hall := (hmembers.append_cons punctuates_closeObject lexes_nil).cons punctuates_openObject
    simpa [render, spell, String.toList_append, String.toList_intercalate] using hall

theorem tokens_render {j : Json} (h : j.Exact) : tokens j.render.toList = some j.spell := by
  have hl := lexes_render j h [] stops_nil
  rw [List.append_nil, tokens] at hl
  simpa using hl

end GraphPlan.Json
