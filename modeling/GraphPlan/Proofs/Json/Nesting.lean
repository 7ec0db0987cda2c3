import GraphPlan.Proofs.Json.Lexing

namespace GraphPlan.Json

/-- Where in a text a character stands. -/
inductive Place where
  | outside
  | inString
  /-- In a string, after a backslash. -/
  | escaped

def opensBracket (c : Char) : Bool := c == '[' || c == '\x7b'

def closesBracket (c : Char) : Bool := c == ']' || c == '\x7d'

/-- The greatest number of brackets that are open at once, where so many are open at the start. -/
def peak : Place → Nat → List Char → Nat
  | _, level, [] => level
  | .escaped, level, _ :: cs => peak .inString level cs
  | .inString, level, c :: cs =>
    if c = '"' then peak .outside level cs
    else if c = '\\' then peak .escaped level cs
    else peak .inString level cs
  | .outside, level, c :: cs =>
    if c = '"' then peak .inString level cs
    else if opensBracket c then peak .outside (level + 1) cs
    else if closesBracket c then max level (peak .outside (level - 1) cs)
    else peak .outside level cs

def openBrackets (text : String) : Nat := peak .outside 0 text.toList

theorem le_peak (place : Place) (level : Nat) (cs : List Char) : level ≤ peak place level cs := by
  fun_induction peak place level cs <;> omega

/-- The text leaves the brackets as it finds them, and opens at most so many at once. -/
def Spans (cs : List Char) (n : Nat) : Prop :=
  ∀ level rest, peak .outside level (cs ++ rest) = max (level + n) (peak .outside level rest)

theorem spans_nil : Spans [] 0 := by
  intro level rest
  have hle := le_peak .outside level rest
  rw [List.nil_append]
  omega

theorem Spans.append {cs ds : List Char} {m n : Nat} (h : Spans cs m) (h' : Spans ds n) :
    Spans (cs ++ ds) (max m n) := by
  intro level rest
  have hc := h level (ds ++ rest)
  have hd := h' level rest
  rw [List.append_assoc, hc, hd]
  omega

/-- A character that is neither a bracket nor a quote. -/
def isFlat (c : Char) : Bool := !(c == '"' || opensBracket c || closesBracket c)

theorem peak_flat {c : Char} (hc : isFlat c = true) (level : Nat) (cs : List Char) :
    peak .outside level (c :: cs) = peak .outside level cs := by
  simp only [isFlat, Bool.not_eq_true', Bool.or_eq_false_iff, beq_eq_false_iff_ne] at hc
  rw [peak, if_neg hc.1.1, if_neg (by simp [hc]), if_neg (by simp [hc])]

theorem spans_flat {cs : List Char} (h : cs.all isFlat = true) : Spans cs 0 := by
  induction cs with
  | nil => exact spans_nil
  | cons c cs ih =>
    rw [List.all_cons, Bool.and_eq_true] at h
    intro level rest
    rw [List.cons_append, peak_flat h.1, ih h.2 level rest]

/-- Brackets around a text. -/
theorem Spans.bracket {cs : List Char} {n : Nat} (h : Spans cs n) {opening closing : Char}
    (ho : opensBracket opening = true) (hc : closesBracket closing = true) :
    Spans (opening :: (cs ++ [closing])) (n + 1) := by
  intro level rest
  have hquote : opening ≠ '"' ∧ closing ≠ '"' ∧ opensBracket closing = false := by
    simp only [opensBracket, closesBracket, Bool.or_eq_true, beq_iff_eq] at ho hc
    refine ⟨?_, ?_, ?_⟩
    · rcases ho with rfl | rfl <;> decide
    · rcases hc with rfl | rfl <;> decide
    · rcases hc with rfl | rfl <;> decide
  have hclosing : peak .outside (level + 1) (closing :: rest) =
      max (level + 1) (peak .outside level rest) := by
    rw [peak, if_neg hquote.2.1, if_neg (by simp [hquote]), if_pos hc]
    rfl
  rw [List.cons_append, peak, if_neg hquote.1, if_pos ho, List.append_assoc, List.singleton_append,
    h (level + 1), hclosing]
  omega

/-- The escape of a character does not end the string that it stands in. -/
theorem peak_escape (c : Char) (level : Nat) (rest : List Char) :
    peak .inString level (escape c ++ rest) = peak .inString level rest := by
  have hhex : ∀ n < 16, hexDigit n ≠ '"' ∧ hexDigit n ≠ '\\' := by decide
  unfold escape
  split_ifs with h1 h2 h3 h4 h5 h6 h7 h8
  case pos => rfl
  case pos => rfl
  case pos => rfl
  case pos => rfl
  case pos => rfl
  case pos => rfl
  case pos => rfl
  case pos =>
    have hhigh := hhex (c.toNat / 16) (by omega)
    have hlow := hhex (c.toNat % 16) (by omega)
    simp [peak, hhigh, hlow]
  case neg => simp [peak, h1, h2]

theorem spans_quoted (s : String) : Spans (quoted s).toList 0 := by
  have hbody : ∀ (cs : List Char) (level : Nat) (rest : List Char),
      peak .inString level (cs.flatMap escape ++ '"' :: rest) = peak .outside level rest := by
    intro cs level rest
    induction cs with
    | nil => rfl
    | cons c cs ih => rw [List.flatMap_cons, List.append_assoc, peak_escape, ih]
  intro level rest
  have hle := le_peak .outside level rest
  rw [quoted, String.toList_ofList, List.cons_append, List.append_assoc, List.singleton_append, peak,
    if_pos rfl, hbody]
  omega

theorem spans_intText (z : Int) : Spans (intText z).toList 0 := by
  have hdigit : ∀ c : Char, c.isDigit = true → isFlat c = true := by
    intro c hc
    by_contra hflat
    simp only [isFlat, Bool.not_eq_true', Bool.not_eq_false, opensBracket, closesBracket, Bool.or_eq_true,
      beq_iff_eq] at hflat
    rcases hflat with (rfl | rfl | rfl) | rfl | rfl <;> exact absurd hc (by decide)
  have hdigits : (Nat.toDigits 10 z.natAbs).all isFlat = true := by
    apply List.all_eq_true.mpr
    intro c hc
    exact hdigit c (Nat.isDigit_of_mem_toDigits (by decide) (by decide) hc)
  have hsign : isFlat '-' = true := rfl
  apply spans_flat
  rw [toList_intText]
  split
  · rw [List.all_cons, hsign, hdigits]
    rfl
  · exact hdigits

theorem depthItems_eq (items : List Json) : depthItems items = (items.map depth).foldr max 0 := by
  induction items with
  | nil => rfl
  | cons j js ih => rw [depthItems, ih, List.map_cons, List.foldr_cons]

theorem depthMembers_eq (members : List (String × Json)) :
    depthMembers members = (members.map fun m => depth m.2).foldr max 0 := by
  induction members with
  | nil => rfl
  | cons m members ih => rw [depthMembers, ih, List.map_cons, List.foldr_cons]

/-- Texts with commas between them are as deep as the deepest. -/
theorem spans_intercalate {css : List (List Char)} {ns : List Nat} (h : List.Forall₂ Spans css ns) :
    Spans ([','].intercalate css) (ns.foldr max 0) := by
  have hcomma : Spans [','] 0 := spans_flat (by decide)
  induction h with
  | nil =>
    rw [List.intercalate_nil]
    exact spans_nil
  | cons h hrest ih =>
    cases hrest with
    | nil =>
      rw [List.intercalate_singleton]
      simpa using h
    | cons h' hrest =>
      rw [List.intercalate_cons_cons, List.foldr_cons]
      have hall := (h.append hcomma).append ih
      rwa [Nat.max_zero] at hall

theorem spans_render (j : Json) (h : j.Exact) : Spans j.render.toList j.depth := by
  induction j using inductionOn with
  | null => exact spans_flat (by decide)
  | bool b => cases b <;> exact spans_flat (by decide)
  | number n =>
    cases n with
    | int z => exact spans_intText z.val
    | double d => exact h.elim
  | text s => exact spans_quoted s
  | array items ih =>
    have heach : List.Forall₂ Spans ((renderItems items).map String.toList) (items.map depth) := by
      rw [renderItems_eq, List.map_map, List.forall₂_map_left_iff, List.forall₂_map_right_iff,
        List.forall₂_same]
      intro j hj
      exact ih j hj (exactItems_iff.mp h j hj)
    have hopen : opensBracket '[' = true := rfl
    have hclose : closesBracket ']' = true := rfl
    have hall := (spans_intercalate heach).bracket hopen hclose
    rw [depth, depthItems_eq]
    simpa [render, String.toList_append, String.toList_intercalate] using hall
  | object members ih =>
    have heach : List.Forall₂ Spans ((renderMembers members).map String.toList)
        (members.map fun m => depth m.2) := by
      rw [renderMembers_eq, List.map_map, List.forall₂_map_left_iff, List.forall₂_map_right_iff,
        List.forall₂_same]
      intro m hm
      have hcolon : Spans [':'] 0 := spans_flat (by decide)
      have hvalue := ih m hm (exactMembers_iff.mp h m hm)
      have hmember := ((spans_quoted m.1).append hcolon).append hvalue
      simpa [String.toList_append] using hmember
    have hopen : opensBracket '\x7b' = true := rfl
    have hclose : closesBracket '\x7d' = true := rfl
    have hall := (spans_intercalate heach).bracket hopen hclose
    rw [depth, depthMembers_eq]
    simpa [render, String.toList_append, String.toList_intercalate] using hall

/-- In the text of a value as many brackets are open at once as the value is deep. -/
theorem openBrackets_render {j : Json} (h : j.Exact) : openBrackets j.render = j.depth := by
  have hs := spans_render j h 0 []
  rw [List.append_nil] at hs
  rw [openBrackets, hs]
  simp [peak]

end GraphPlan.Json
