import GraphPlan.Proofs.Json.Lexing
import GraphPlan.Sql.Statement

/-!
Terms are read back from their text.

What to read next is clear from the next characters: a quote, a bracket, a digit or a word. Where a term
ends is clear from the term, except that words, numbers and names could go on. In the text of a statement
they never do, since a blank, a comma, a closing bracket, a line break or nothing comes next (`EndsTerm`).
-/

namespace GraphPlan.Sql

def isWordChar (c : Char) : Bool := c.isAlphanum || c = '_'

/-- A word of letters, digits and underscores. -/
def IsWord (s : String) : Prop := s ≠ "" ∧ s.toList.all isWordChar = true

/-- Doubles are left out: some are written as an integer is. -/
def Constant.Legible : Constant → Prop
  | double _ => False
  | _ => True

namespace Term

mutual

/-- A term that its text tells apart from others. A list of no terms is written as a truth value, and one
of a single term is not told apart by its operator. -/
def Legible : Term → Prop
  | .column .. => True
  | .constant c => c.Legible
  | .param name => IsWord name
  | .cast e type => Legible e ∧ IsWord type
  | .concat parts => 2 ≤ parts.length ∧ LegibleEach parts
  | .add left right => Legible left ∧ Legible right
  | .compare _ left right => Legible left ∧ Legible right
  | .and terms => 2 ≤ terms.length ∧ LegibleEach terms
  | .or terms => 2 ≤ terms.length ∧ LegibleEach terms
  | .not e => Legible e
  | .like e pattern => Legible e ∧ Legible pattern
  | .isNull e => Legible e
  | .isNotNull e => Legible e
  | .inList e items => Legible e ∧ items ≠ [] ∧ LegibleEach items

def LegibleEach : List Term → Prop
  | [] => True
  | e :: es => Legible e ∧ LegibleEach es

end

end Term

namespace Reader

/-- What follows a given text. -/
def after (text : String) (cs : List Char) : Option (List Char) := text.toList.isPrefixOf? cs

theorem after_append (text : String) (cs : List Char) : after text (text.toList ++ cs) = some cs :=
  List.isPrefixOf?_eq_some_iff_append_eq.mpr rfl

/-- A text does not come next where its first character does not. -/
theorem after_eq_none {text : String} {c : Char} {cs : List Char} (ht : text.toList = c :: cs)
    {rest : List Char} (hr : rest.head? ≠ some c) : after text rest = none := by
  unfold after
  rw [ht]
  cases rest with
  | nil => rfl
  | cons d rest =>
    have hne : c ≠ d := fun h => hr (by simp [h])
    simp [List.isPrefixOf?, hne]

/-- The text before its closing mark, and what follows. -/
def quotedBody (mark : Char) : List Char → Option (List Char × List Char)
  | [] => none
  | c :: cs =>
    if c = mark then
      match cs with
      | [] => some ([], [])
      | d :: rest =>
        if d = mark then (quotedBody mark rest).map fun read => (mark :: read.1, read.2)
        else some ([], d :: rest)
    else (quotedBody mark cs).map fun read => (c :: read.1, read.2)

/-- A text between two marks. -/
def quoted? (mark : Char) : List Char → Option (String × List Char)
  | [] => none
  | c :: cs =>
    if c = mark then (quotedBody mark cs).map fun read => (String.ofList read.1, read.2) else none

theorem quotedBody_doubled {mark : Char} {rest : List Char} (hr : rest.head? ≠ some mark)
    (cs : List Char) : quotedBody mark (doubled mark cs ++ mark :: rest) = some (cs, rest) := by
  induction cs with
  | nil => cases rest <;> simp_all [doubled, quotedBody]
  | cons c cs ih =>
    rw [doubled]
    split
    · next hc => simp [quotedBody, ih, hc]
    · next hc =>
      rw [List.cons_append]
      unfold quotedBody
      simp [ih, hc]

theorem quoted?_enclosed {mark : Char} {rest : List Char} (hr : rest.head? ≠ some mark)
    (text : String) : quoted? mark ((enclosed mark text).toList ++ rest) = some (text, rest) := by
  have hbody := quotedBody_doubled hr text.toList
  simp [enclosed, quoted?, hbody]

def word? (cs : List Char) : Option (String × List Char) :=
  match cs.takeWhile isWordChar with
  | [] => none
  | word => some (String.ofList word, cs.dropWhile isWordChar)

def integer? (cs : List Char) : Option (Int × List Char) :=
  (Json.takeNumeral cs).map fun read =>
    let n : Int := Decimal.digitsValue read.1.whole
    (if read.1.negative then -n else n, read.2)

/-- A term can end before this text. -/
def EndsTerm (rest : List Char) : Prop := ∀ c ∈ rest.head?, c ∈ [' ', ',', ')', '\n']

theorem EndsTerm.head_ne {rest : List Char} (h : EndsTerm rest) {c : Char} (hc : c ∉ [' ', ',', ')', '\n']) :
    rest.head? ≠ some c := fun hr => hc (h c hr)

theorem EndsTerm.stops {rest : List Char} (h : EndsTerm rest) : Json.Stops rest := by
  intro c hc
  have hm := h c hc
  simp only [List.mem_cons, List.not_mem_nil, or_false] at hm
  rcases hm with rfl | rfl | rfl | rfl <;> rfl

theorem word?_append {s : String} (hs : IsWord s) {rest : List Char} (hr : EndsTerm rest) :
    word? (s.toList ++ rest) = some (s, rest) := by
  obtain ⟨hne, hall⟩ := hs
  have hall : ∀ c ∈ s.toList, isWordChar c = true := List.all_eq_true.mp hall
  have hend : rest.takeWhile isWordChar = [] ∧ rest.dropWhile isWordChar = rest := by
    cases rest with
    | nil => exact ⟨rfl, rfl⟩
    | cons c rest =>
      have hc := hr c rfl
      have hword : isWordChar c = false := by
        simp only [List.mem_cons, List.not_mem_nil, or_false] at hc
        rcases hc with rfl | rfl | rfl | rfl <;> rfl
      simp [hword]
  have htake : (s.toList ++ rest).takeWhile isWordChar = s.toList := by
    rw [List.takeWhile_append_of_pos hall, hend.1, List.append_nil]
  have hdrop : (s.toList ++ rest).dropWhile isWordChar = rest := by
    rw [List.dropWhile_append_of_pos hall, hend.2]
  unfold word?
  rw [htake, hdrop]
  cases hl : s.toList with
  | nil => exact absurd (by simpa using hl) hne
  | cons c cs => simp [← hl]

theorem integer?_intText (z : Int) {rest : List Char} (hr : EndsTerm rest) :
    integer? ((intText z).toList ++ rest) = some (z, rest) := by
  have htake := Json.takeNumeral_intText hr.stops z
  have hsign : (if z < 0 then -(z.natAbs : Int) else z.natAbs) = z := by
    split <;> omega
  simp only [integer?, htake, Option.map_some, Json.digitsValue_toDigits, decide_eq_true_eq, hsign]

/-- A list is read part by part, as long as a separator comes next. No text has more parts than the bound. -/
def parts? {α : Type} (read : List Char → Option (α × List Char)) (separator : String) :
    Nat → List Char → Option (List α × List Char)
  | 0, _ => none
  | bound + 1, cs => do
    let (a, cs) ← read cs
    match after separator cs with
    | none => some ([a], cs)
    | some cs => do
      let (as, cs) ← parts? read separator bound cs
      some (a :: as, cs)

def separated? {α : Type} (read : List Char → Option (α × List Char)) (separator : String)
    (cs : List Char) : Option (List α × List Char) :=
  parts? read separator (cs.length + 1) cs

theorem length_pos_of_after_eq_none {text : String} {cs : List Char} (h : after text cs = none) :
    0 < text.toList.length := by
  unfold after at h
  cases ht : text.toList with
  | nil =>
    rw [ht] at h
    cases h
  | cons c cs => exact Nat.succ_pos _

section Separated

variable {α : Type} {separator : String} {read : List Char → Option (α × List Char)}
  {text : α → List Char} {follows : List Char → Prop} {as : List α} {limit : Nat} {rest : List Char}

theorem parts?_intercalate
    (hread : ∀ a ∈ as, ∀ rest, follows rest → (text a ++ rest).length < limit →
      read (text a ++ rest) = some (a, rest))
    (hs : ∀ cs, follows (separator.toList ++ cs)) (hne : as ≠ []) (hr : follows rest)
    (hstop : after separator rest = none)
    (hlimit : (separator.toList.intercalate (as.map text) ++ rest).length < limit) {bound : Nat}
    (hbound : (separator.toList.intercalate (as.map text) ++ rest).length < bound) :
    parts? read separator bound (separator.toList.intercalate (as.map text) ++ rest) =
      some (as, rest) := by
  have hpos := length_pos_of_after_eq_none hstop
  induction as generalizing bound with
  | nil => exact absurd rfl hne
  | cons a as ih =>
    have hfirst := hread a List.mem_cons_self
    obtain ⟨bound, rfl⟩ := Nat.exists_eq_succ_of_ne_zero (Nat.ne_zero_of_lt hbound)
    cases as with
    | nil =>
      rw [List.map_singleton, List.intercalate_singleton] at hlimit ⊢
      rw [parts?, hfirst rest hr hlimit]
      simp [hstop]
    | cons a' as =>
      have hrest := @ih fun a hm => hread a (List.mem_cons_of_mem _ hm)
      rw [List.map_cons] at hrest
      rw [List.map_cons, List.map_cons, List.intercalate_cons_cons, List.append_assoc,
        List.append_assoc] at hlimit hbound ⊢
      have hfirst := hfirst _ (hs _) hlimit
      rw [List.length_append, List.length_append] at hlimit hbound
      have hothers := hrest (by simp) (by omega) (show _ < bound by omega)
      rw [parts?, hfirst]
      simp [after_append, hothers]

theorem separated?_intercalate
    (hread : ∀ a ∈ as, ∀ rest, follows rest → (text a ++ rest).length < limit →
      read (text a ++ rest) = some (a, rest))
    (hs : ∀ cs, follows (separator.toList ++ cs)) (hne : as ≠ []) (hr : follows rest)
    (hstop : after separator rest = none)
    (hlimit : (separator.toList.intercalate (as.map text) ++ rest).length < limit) :
    separated? read separator (separator.toList.intercalate (as.map text) ++ rest) =
      some (as, rest) :=
  parts?_intercalate hread hs hne hr hstop hlimit (Nat.lt_succ_self _)

end Separated

theorem intercalate_front (separator text : List Char) (texts : List (List Char)) :
    ∃ cs, separator.intercalate (text :: texts) = text ++ cs := by
  cases texts with
  | nil => exact ⟨[], by simp⟩
  | cons text' texts => exact ⟨separator ++ separator.intercalate (text' :: texts), by simp⟩

/-- What stands between brackets after a first term. -/
inductive Operator where
  | concat
  | add
  | compare (op : Comparison)
  | and
  | or
  | like
  | isNull
  | isNotNull
  | inList

namespace Operator

def text : Operator → String
  | concat => " || "
  | add => " + "
  | compare op => " " ++ op.symbol ++ " "
  | and => " AND "
  | or => " OR "
  | like => " LIKE "
  | isNull => " IS NULL"
  | isNotNull => " IS NOT NULL"
  | inList => " IN ("

/-- What stands between the further terms, if there are any. -/
def separator : Operator → Option String
  | isNull => none
  | isNotNull => none
  | inList => some ", "
  | op => some op.text

def closing : Operator → String
  | inList => "))"
  | _ => ")"

def make? : Operator → Term → List Term → Option Term
  | concat, e, es => some (.concat (e :: es))
  | add, e, [e'] => some (.add e e')
  | compare op, e, [e'] => some (.compare op e e')
  | and, e, es => some (.and (e :: es))
  | or, e, es => some (.or (e :: es))
  | like, e, [e'] => some (.like e e')
  | isNull, e, [] => some (.isNull e)
  | isNotNull, e, [] => some (.isNotNull e)
  | inList, e, es => some (.inList e es)
  | _, _, _ => none

def all : List Operator :=
  [concat, add, and, or, like, isNull, isNotNull, inList] ++
    [.eq, .notEq, .lt, .ltEq, .gt, .gtEq].map compare

end Operator

def operator? (cs : List Char) : Option (Operator × List Char) :=
  Operator.all.findSome? fun op => (after op.text cs).map (op, ·)

/-- No operator is the front of another. -/
theorem operator?_text (op : Operator) (rest : List Char) :
    operator? (op.text.toList ++ rest) = some (op, rest) := by
  cases op with
  | compare op => cases op <;> rfl
  | _ => rfl

def constant? (cs : List Char) : Option (Constant × List Char) :=
  match cs with
  | 'N' :: cs => (after "ULL" cs).map (.null, ·)
  | 'T' :: cs => (after "RUE" cs).map (.bool true, ·)
  | 'F' :: cs => (after "ALSE" cs).map (.bool false, ·)
  | '\'' :: _ => (quoted? '\'' cs).map fun read => (.text read.1, read.2)
  | _ => (integer? cs).map fun read => (.int read.1, read.2)

/-- A name that may stand under another. -/
def qualified? (cs : List Char) : Option ((Option String × String) × List Char) := do
  let (name, cs) ← quoted? '"' cs
  match after "." cs with
  | some cs =>
    let (inner, cs) ← quoted? '"' cs
    some ((some name, inner), cs)
  | none => some ((none, name), cs)

/-- The terms after the first one and its operator. -/
def operands? (read : List Char → Option (Term × List Char)) (op : Operator) (cs : List Char) :
    Option (List Term × List Char) :=
  match op.separator with
  | none => some ([], cs)
  | some separator => separated? read separator cs

/-- A term is read from a text that is shorter than the bound. -/
def termWithin? : Nat → List Char → Option (Term × List Char)
  | 0, _ => none
  | bound + 1, cs =>
    match cs with
    | '"' :: _ => do
      let ((qualifier, name), cs) ← qualified? cs
      some (.column qualifier name, cs)
    | ':' :: cs => do
      let (name, cs) ← word? cs
      some (.param name, cs)
    | 'C' :: cs => do
      let cs ← after "AST(" cs
      let (e, cs) ← termWithin? bound cs
      let cs ← after " AS " cs
      let (type, cs) ← word? cs
      let cs ← after ")" cs
      some (.cast e type, cs)
    | '(' :: cs =>
      match after "NOT " cs with
      | some cs => do
        let (e, cs) ← termWithin? bound cs
        let cs ← after ")" cs
        some (.not e, cs)
      | none => do
        let (e, cs) ← termWithin? bound cs
        let (op, cs) ← operator? cs
        let (es, cs) ← operands? (termWithin? bound) op cs
        let cs ← after op.closing cs
        let read ← op.make? e es
        some (read, cs)
    | cs => do
      let (c, cs) ← constant? cs
      some (.constant c, cs)

def term? (cs : List Char) : Option (Term × List Char) := termWithin? (cs.length + 1) cs

/-- A term is read back wherever it can end. -/
def ReadsBack (e : Term) : Prop :=
  ∀ rest bound, EndsTerm rest → (e.render.toList ++ rest).length < bound →
    termWithin? bound (e.render.toList ++ rest) = some (e, rest)

theorem ReadsBack.of_succ {e : Term}
    (h : ∀ rest bound, EndsTerm rest → (e.render.toList ++ rest).length < bound + 1 →
      termWithin? (bound + 1) (e.render.toList ++ rest) = some (e, rest)) : ReadsBack e := by
  intro rest bound hr hbound
  obtain ⟨bound, rfl⟩ := Nat.exists_eq_succ_of_ne_zero (Nat.ne_zero_of_lt hbound)
  exact h rest bound hr hbound

/-- The text of the further terms of an operator. -/
def operandsText (op : Operator) (es : List Term) : List Char :=
  match op.separator with
  | none => []
  | some separator => separator.toList.intercalate (es.map fun e => e.render.toList)

theorem ends_text (op : Operator) (cs : List Char) : EndsTerm (op.text.toList ++ cs) := by
  cases op <;> simp [EndsTerm, Operator.text]

/-- What separates terms does not close their bracket. -/
theorem of_separator {op : Operator} {separator : String} (h : op.separator = some separator)
    (cs : List Char) :
    EndsTerm (separator.toList ++ cs) ∧ after separator (op.closing.toList ++ cs) = none := by
  cases op with
  | isNull => cases h
  | isNotNull => cases h
  | compare op => cases h; cases op <;> exact ⟨ends_text _ cs, rfl⟩
  | _ => cases h; exact ⟨by simp [EndsTerm, Operator.text], rfl⟩

theorem ends_closing (op : Operator) (cs : List Char) : EndsTerm (op.closing.toList ++ cs) := by
  cases op <;> simp [EndsTerm, Operator.closing]

theorem operands?_text {op : Operator} {es : List Term} (he : ∀ e ∈ es, ReadsBack e)
    (hes : es = [] ↔ op.separator = none) {rest : List Char} {bound : Nat}
    (hbound : (operandsText op es ++ (op.closing.toList ++ rest)).length < bound) :
    operands? (termWithin? bound) op (operandsText op es ++ (op.closing.toList ++ rest)) =
      some (es, op.closing.toList ++ rest) := by
  rw [operandsText] at hbound ⊢
  rw [operands?]
  cases hs : op.separator with
  | none =>
    have hnil := hes.mpr hs
    simp [hnil]
  | some separator =>
    have hne : es ≠ [] := fun h => by simp [hes.mp h] at hs
    have hends := fun cs => (of_separator hs cs).1
    rw [hs] at hbound
    exact separated?_intercalate (fun e hm rest => he e hm rest bound) hends hne (ends_closing op rest)
      (of_separator hs rest).2 hbound

/-- An integer starts with none of the characters that other terms start with. -/
theorem intText_cons (z : Int) : ∃ c cs, (intText z).toList = c :: cs ∧
    c ∉ ['N', 'D', 'T', 'F', '\'', '"', ':', 'C', '('] := by
  rw [toList_intText]
  split
  · exact ⟨'-', _, rfl, by decide⟩
  · cases hd : Nat.toDigits 10 z.natAbs with
    | nil => exact absurd hd Nat.toDigits_ne_nil
    | cons c cs =>
      have hmem : c ∈ Nat.toDigits 10 z.natAbs := by simp [hd]
      have hdigit := Nat.isDigit_of_mem_toDigits (by decide) (by decide) hmem
      have hnone : ['N', 'D', 'T', 'F', '\'', '"', ':', 'C', '('].all (!·.isDigit) = true := by decide
      refine ⟨c, cs, rfl, fun hc => ?_⟩
      have hfalse := List.all_eq_true.mp hnone c hc
      simp [hdigit] at hfalse

/-- Only the null constant starts with a letter that a word before a term starts with. -/
theorem render_cons {e : Term} (he : e.Legible) :
    e = .constant .null ∨ ∃ c cs, e.render.toList = c :: cs ∧ c ∉ ['N', 'D'] := by
  cases e with
  | constant c =>
    cases c with
    | double d => exact he.elim
    | null => exact .inl rfl
    | bool b => cases b <;> exact .inr ⟨_, _, rfl, by decide⟩
    | text s => simp [Term.render, Constant.render, quoteText, enclosed]
    | int z =>
      obtain ⟨c, cs, hl, hc⟩ := intText_cons z
      exact .inr ⟨c, cs, hl, fun h => hc (List.mem_append_left ['T', 'F', '\'', '"', ':', 'C', '('] h)⟩
  | column qualifier name => cases qualifier <;> simp [Term.render, quoteName, enclosed]
  | concat es | and es | or es => cases es <;> simp [Term.render, Term.renderEach, Term.joined]
  | inList e es => cases es <;> simp [Term.render]
  | _ => simp [Term.render]

/-- A word that can stand before a term is not the start of one. -/
theorem after_render {text : String} {c : Char} {cs : List Char} (ht : text.toList = c :: cs)
    (hc : c ∈ ['N', 'D']) (hnull : ∀ rest, after text ("NULL".toList ++ rest) = none) {e : Term}
    (he : e.Legible) (rest : List Char) : after text (e.render.toList ++ rest) = none := by
  rcases render_cons he with he | ⟨d, ds, hl, hd⟩
  · rw [he]
    exact hnull rest
  · have hne : d ≠ c := fun h => hd (h ▸ hc)
    rw [hl]
    exact after_eq_none ht (by simpa using hne)

theorem after_not {e : Term} (he : e.Legible) (rest : List Char) :
    after "NOT " (e.render.toList ++ rest) = none :=
  after_render (by rfl) (by decide) (fun _ => rfl) he rest

theorem ReadsBack.operation (op : Operator) {e t : Term} {es : List Term} (he : ReadsBack e)
    (hl : e.Legible) (hes : ∀ e ∈ es, ReadsBack e) (hop : es = [] ↔ op.separator = none)
    (ht : op.make? e es = some t)
    (htext : t.render.toList = '(' :: (e.render.toList ++ (op.text.toList ++
      (operandsText op es ++ op.closing.toList)))) : ReadsBack t := by
  refine .of_succ fun rest bound hr hbound => ?_
  have hends := ends_text op (operandsText op es ++ (op.closing.toList ++ rest))
  rw [htext, List.cons_append, List.append_assoc, List.append_assoc, List.append_assoc] at hbound ⊢
  have hfirst := he _ bound hends (Nat.lt_of_succ_lt_succ hbound)
  have hlength : (operandsText op es ++ (op.closing.toList ++ rest)).length < bound := by
    rw [List.length_cons, List.length_append, List.length_append] at hbound
    omega
  have hothers := operands?_text hes hop hlength
  rw [termWithin?]
  simp only [after_not hl, hfirst]
  simp [operator?_text, hothers, after_append, ht]

theorem renderEach_eq (es : List Term) : Term.renderEach es = es.map Term.render := by
  induction es with
  | nil => rfl
  | cons e es ih => simp [Term.renderEach, ih]

/-- Two terms or more between which an operator stands. -/
theorem readsBack_joined (op : Operator) {make : List Term → Term} {whenEmpty : String}
    (hs : op.separator = some op.text) (hc : op.closing = ")")
    (hm : ∀ e es, op.make? e es = some (make (e :: es)))
    (ht : ∀ es, (make es).render = Term.joined op.text whenEmpty (Term.renderEach es))
    {es : List Term} (hl : 2 ≤ es.length ∧ Term.LegibleEach es) (he : ∀ e ∈ es, ReadsBack e) :
    ReadsBack (make es) := by
  obtain ⟨hlen, hl⟩ := hl
  match es, hlen with
  | e :: e' :: es, _ =>
    have htext : (make (e :: e' :: es)).render.toList = '(' :: (e.render.toList ++ (op.text.toList ++
        (operandsText op (e' :: es) ++ op.closing.toList))) := by
      simp [ht, Term.joined, renderEach_eq, operandsText, hs, hc, String.toList_intercalate,
        Function.comp_def]
    have hrest : ∀ x ∈ e' :: es, ReadsBack x := fun x hx => he x (List.mem_cons_of_mem e hx)
    exact ReadsBack.operation op (he e List.mem_cons_self) hl.1 hrest (by simp [hs]) (hm e (e' :: es)) htext

theorem readsBack_binary (op : Operator) {left right t : Term} (hs : op.separator = some op.text)
    (hc : op.closing = ")") (hm : op.make? left [right] = some t)
    (ht : t.render = "(" ++ left.render ++ op.text ++ right.render ++ ")") (hl : left.Legible)
    (hleft : ReadsBack left) (hright : ReadsBack right) : ReadsBack t := by
  have htext : t.render.toList = '(' :: (left.render.toList ++ (op.text.toList ++
      (operandsText op [right] ++ op.closing.toList))) := by
    simp [ht, operandsText, hs, hc]
  exact ReadsBack.operation op hleft hl (by simpa using hright) (by simp [hs]) hm htext

theorem readsBack_test (op : Operator) {e t : Term} (hs : op.separator = none) (hc : op.closing = ")")
    (hm : op.make? e [] = some t)
    (ht : t.render.toList = '(' :: (e.render.toList ++ (op.text ++ ")").toList)) (hl : e.Legible)
    (he : ReadsBack e) : ReadsBack t := by
  have htext : t.render.toList = '(' :: (e.render.toList ++ (op.text.toList ++
      (operandsText op [] ++ op.closing.toList))) := by
    simp [ht, operandsText, hs, hc]
  exact ReadsBack.operation op he hl (by simp) (by simp [hs]) hm htext

theorem reads_inList {e : Term} {items : List Term} (hne : items ≠ []) (hl : e.Legible) (he : ReadsBack e)
    (hitems : ∀ x ∈ items, ReadsBack x) : ReadsBack (.inList e items) := by
  cases items with
  | nil => exact absurd rfl hne
  | cons item items =>
    have htext : (Term.inList e (item :: items)).render.toList = '(' :: (e.render.toList ++
        (Operator.inList.text.toList ++
          (operandsText .inList (item :: items) ++ Operator.inList.closing.toList))) := by
      simp [Term.render, renderEach_eq, operandsText, Operator.separator, Operator.text,
        Operator.closing, String.toList_intercalate, Function.comp_def]
    exact ReadsBack.operation .inList he hl hitems (by simp [Operator.separator]) rfl htext

/-- A name, or two with a dot between them. -/
theorem qualified?_render (t : Table) {rest : List Char} (hr : EndsTerm rest) :
    qualified? (t.render.toList ++ rest) = some ((t.schema, t.name), rest) := by
  have hquote : rest.head? ≠ some '"' := hr.head_ne (by decide)
  have hname := quoted?_enclosed hquote t.name
  obtain ⟨schema, name⟩ := t
  cases schema with
  | none =>
    have hdot : after "." rest = none := after_eq_none (by rfl) (hr.head_ne (by decide))
    simp [qualified?, Table.render, quoteName, hname, hdot]
  | some schema =>
    have hdot : ('.' :: ((enclosed '"' name).toList ++ rest)).head? ≠ some '"' := by simp
    have hschema := quoted?_enclosed hdot schema
    simp [qualified?, Table.render, quoteName, hschema, after, List.isPrefixOf?, hname]

theorem readsBack_column (qualifier : Option String) (name : String) :
    ReadsBack (.column qualifier name) := by
  refine .of_succ fun rest bound hr _ => ?_
  have hread := qualified?_render ⟨qualifier, name⟩ hr
  have hsame : (Term.column qualifier name).render = (Table.mk qualifier name).render := by
    cases qualifier <;> rfl
  obtain ⟨cs, htext⟩ : ∃ cs, (Table.mk qualifier name).render.toList ++ rest = '"' :: cs := by
    cases qualifier <;> simp [Table.render, quoteName, enclosed]
  rw [htext] at hread
  rw [hsame, htext, termWithin?]
  simp [hread]

theorem constant?_render {c : Constant} (hc : c.Legible) {rest : List Char} (hr : EndsTerm rest) :
    constant? (c.render.toList ++ rest) = some (c, rest) := by
  cases c with
  | double d => exact hc.elim
  | null => simp [Constant.render, constant?, after, List.isPrefixOf?]
  | bool b => cases b <;> simp [Constant.render, constant?, after, List.isPrefixOf?]
  | text s =>
    have hread := quoted?_enclosed (hr.head_ne (show '\'' ∉ _ by decide)) s
    have htext : (Constant.text s).render.toList ++ rest =
        '\'' :: (doubled '\'' s.toList ++ '\'' :: rest) := by
      simp [Constant.render, quoteText, enclosed]
    have hsame : (enclosed '\'' s).toList ++ rest =
        '\'' :: (doubled '\'' s.toList ++ '\'' :: rest) := by
      simp [enclosed]
    rw [hsame] at hread
    rw [htext, constant?]
    simp [hread]
  | int z =>
    obtain ⟨c, cs, hl, hc⟩ := intText_cons z
    have hread := integer?_intText z hr
    rw [hl, List.cons_append] at hread
    simp only [List.mem_cons, List.not_mem_nil, or_false, not_or] at hc
    rw [Constant.render, hl, List.cons_append, constant?]
    · simp [hread]
    all_goals simp [hc]

/-- A constant starts with none of the characters that tell other terms. -/
theorem constant_head {c : Constant} (hc : c.Legible) :
    ∃ d ds, c.render.toList = d :: ds ∧ d ∉ ['"', ':', 'C', '('] := by
  cases c with
  | double d => exact hc.elim
  | null => exact ⟨_, _, rfl, by decide⟩
  | bool b => cases b <;> exact ⟨_, _, rfl, by decide⟩
  | text s =>
    exact ⟨'\'', doubled '\'' s.toList ++ ['\''], by simp [Constant.render, quoteText, enclosed], by decide⟩
  | int z =>
    obtain ⟨d, ds, hl, hd⟩ := intText_cons z
    exact ⟨d, ds, hl, fun h => hd (List.mem_append_right ['N', 'D', 'T', 'F', '\''] h)⟩

theorem readsBack_constant {c : Constant} (hc : c.Legible) : ReadsBack (.constant c) := by
  refine .of_succ fun rest bound hr _ => ?_
  have hread := constant?_render hc hr
  obtain ⟨d, ds, hl, hd⟩ := constant_head hc
  simp only [List.mem_cons, List.not_mem_nil, or_false, not_or] at hd
  rw [hl, List.cons_append] at hread
  rw [Term.render, hl, List.cons_append, termWithin?]
  · simp [hread]
  all_goals simp [hd]

mutual

theorem reads_of_legible (t : Term) (h : t.Legible) : ReadsBack t := by
  cases t with
  | column qualifier name => exact readsBack_column qualifier name
  | constant c => exact readsBack_constant h
  | param name =>
    refine .of_succ fun rest bound hr _ => ?_
    have hword := word?_append h hr
    have htext : (Term.param name).render.toList ++ rest = ':' :: (name.toList ++ rest) := by
      simp [Term.render]
    rw [htext, termWithin?]
    simp [hword]
  | cast e type =>
    refine .of_succ fun rest bound hr hbound => ?_
    have hword := word?_append h.2 (show EndsTerm (')' :: rest) by simp [EndsTerm])
    have he := reads_of_legible e h.1
    have htext : (Term.cast e type).render.toList ++ rest = 'C' :: 'A' :: 'S' :: 'T' :: '(' ::
        (e.render.toList ++ ' ' :: 'A' :: 'S' :: ' ' :: (type.toList ++ ')' :: rest)) := by
      simp [Term.render]
    rw [htext] at hbound ⊢
    have hread := he (' ' :: 'A' :: 'S' :: ' ' :: (type.toList ++ ')' :: rest)) bound (by simp [EndsTerm])
      (by simp only [List.length_cons] at hbound ⊢; omega)
    rw [termWithin?]
    simp [after, List.isPrefixOf?, hread, hword]
  | concat parts =>
    exact readsBack_joined .concat rfl rfl (fun _ _ => rfl) (fun _ => rfl) h (readsBack_each parts h.2)
  | and terms =>
    exact readsBack_joined .and rfl rfl (fun _ _ => rfl) (fun _ => rfl) h (readsBack_each terms h.2)
  | or terms =>
    exact readsBack_joined .or rfl rfl (fun _ _ => rfl) (fun _ => rfl) h (readsBack_each terms h.2)
  | add left right =>
    exact readsBack_binary .add rfl rfl rfl rfl h.1 (reads_of_legible left h.1)
      (reads_of_legible right h.2)
  | compare op left right =>
    have htext : (Term.compare op left right).render =
        "(" ++ left.render ++ (Operator.compare op).text ++ right.render ++ ")" := by
      simp [Term.render, Operator.text, String.append_assoc]
    exact readsBack_binary (.compare op) rfl rfl rfl htext h.1 (reads_of_legible left h.1)
      (reads_of_legible right h.2)
  | like e pattern =>
    exact readsBack_binary .like rfl rfl rfl rfl h.1 (reads_of_legible e h.1)
      (reads_of_legible pattern h.2)
  | not e =>
    refine .of_succ fun rest bound hr hbound => ?_
    have htext : (Term.not e).render.toList ++ rest =
        '(' :: 'N' :: 'O' :: 'T' :: ' ' :: (e.render.toList ++ ')' :: rest) := by
      simp [Term.render]
    rw [htext] at hbound ⊢
    have hread := reads_of_legible e h (')' :: rest) bound (by simp [EndsTerm])
      (by simp only [List.length_cons] at hbound ⊢; omega)
    rw [termWithin?]
    simp [after, List.isPrefixOf?, hread]
  | isNull e =>
    exact readsBack_test .isNull rfl rfl rfl (by simp [Term.render, Operator.text]) h
      (reads_of_legible e h)
  | isNotNull e =>
    exact readsBack_test .isNotNull rfl rfl rfl (by simp [Term.render, Operator.text]) h
      (reads_of_legible e h)
  | inList e items =>
    exact reads_inList h.2.1 h.1 (reads_of_legible e h.1) (readsBack_each items h.2.2)

theorem readsBack_each (es : List Term) (h : Term.LegibleEach es) : ∀ e ∈ es, ReadsBack e := by
  cases es with
  | nil => simp
  | cons e es =>
    intro x hx
    rcases List.mem_cons.mp hx with hx | hx
    · rw [hx]
      exact reads_of_legible e h.1
    · exact readsBack_each es h.2 x hx

end

theorem term?_render {t : Term} (h : t.Legible) {rest : List Char} (hr : EndsTerm rest) :
    term? (t.render.toList ++ rest) = some (t, rest) :=
  reads_of_legible t h rest _ hr (Nat.lt_succ_self _)

end Reader

/-- The text of a term tells the term, and where it ends, whatever may come after a term. -/
theorem Term.render_append_inj {e₁ e₂ : Term} (h₁ : e₁.Legible) (h₂ : e₂.Legible) {r₁ r₂ : String}
    (hr₁ : Reader.EndsTerm r₁.toList) (hr₂ : Reader.EndsTerm r₂.toList)
    (h : e₁.render ++ r₁ = e₂.render ++ r₂) : e₁ = e₂ ∧ r₁ = r₂ := by
  have hchars : e₁.render.toList ++ r₁.toList = e₂.render.toList ++ r₂.toList := by
    rw [← String.toList_append, ← String.toList_append, h]
  have hread := Reader.term?_render h₁ hr₁
  rw [hchars, Reader.term?_render h₂ hr₂] at hread
  obtain ⟨hterm, hrest⟩ := Prod.mk.inj (Option.some.inj hread)
  exact ⟨hterm.symm, (String.toList_inj.mp hrest).symm⟩

/-- A name is one of two, where the second is written so that it could end its quotes. -/
def eitherName (first : Term) : Term :=
  .or [first, .equal (.column (some "pet\".\"id") "name") (.text "Rex') OR ('' = '")]

/-- The name is given and is one of two. -/
def givenName : Term :=
  .and [.not (.isNull (.param "name")), eitherName (.inList (.param "name") [.text "Tom"])]

/-- The name is given and is the first, or it is the second. -/
def givenFirst : Term :=
  eitherName (.and [.not (.isNull (.param "name")), .inList (.param "name") [.text "Tom"]])

/-- The same conditions in the same order have another text if they are grouped in another way. -/
theorem Term.render_append_inj_grouped : givenName.Legible ∧ givenFirst.Legible ∧
    Reader.EndsTerm " AS ok".toList ∧ Reader.EndsTerm ")".toList ∧
    givenName.render ++ " AS ok" ≠ givenFirst.render ++ ")" := by
  have hword : IsWord "name" := ⟨by decide, by decide⟩
  have hname : givenName.Legible := by
    simp [givenName, eitherName, Legible, LegibleEach, Constant.Legible, Term.equal, Term.text, hword]
  have hfirst : givenFirst.Legible := by
    simp [givenFirst, eitherName, Legible, LegibleEach, Constant.Legible, Term.equal, Term.text, hword]
  have hlabel : Reader.EndsTerm " AS ok".toList := by simp [Reader.EndsTerm]
  have hclose : Reader.EndsTerm ")".toList := by simp [Reader.EndsTerm]
  refine ⟨hname, hfirst, hlabel, hclose, fun h => ?_⟩
  have hsame := (Term.render_append_inj hname hfirst hlabel hclose h).1
  cases hsame

end GraphPlan.Sql
