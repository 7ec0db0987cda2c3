import GraphPlan.Proofs.Sql.Reading

/-!
Statements are read back from their text, so that different statements have different texts.

Joins are written without brackets. Each has its condition after its right side, so a reader that has read
a source may go on with a join whose left side it is: the next words tell, since a source is followed by a
join, by ` ON `, by ` WHERE ` or by the end of its query.
-/

namespace GraphPlan.Sql

/-- A projection has items, and their terms are told apart. -/
def LegibleItems (projection : List Item) : Prop :=
  projection ≠ [] ∧ ∀ i ∈ projection, i.term.Legible

def LegibleFilter (filter : Option Term) : Prop := ∀ condition ∈ filter, condition.Legible

def Source.Legible : Source → Prop
  | table _ => True
  | query _ projection source filter _ => LegibleItems projection ∧ source.Legible ∧ LegibleFilter filter
  | join _ left right on => left.Legible ∧ right.Legible ∧ on.Legible

def Select.Legible (s : Select) : Prop :=
  LegibleItems s.projection ∧ s.source.Legible ∧ LegibleFilter s.filter

def Body.Legible : Body → Prop
  | plain s => s.Legible
  | compound anchor _ step => anchor.Legible ∧ step.Legible

/-- A common table expression does not say on its own whether it is recursive: its body does. -/
def Cte.Legible (c : Cte) : Prop := c.body.Legible ∧ c.recursive = c.body.isCompound

def Statement.Legible (s : Statement) : Prop := (∀ c ∈ s.ctes, c.Legible) ∧ s.body.Legible

namespace Reader

/-- A name after ` AS `, if one is given. -/
def label? (cs : List Char) : Option (Option String × List Char) :=
  match after " AS " cs with
  | some cs => (quoted? '"' cs).map fun read => (some read.1, read.2)
  | none => some (none, cs)

/-- What a labelled thing can be followed by. -/
def EndsLabelled (rest : List Char) : Prop := EndsTerm rest ∧ after " AS " rest = none

theorem quoted?_quoteName (name : String) {rest : List Char} (hr : EndsTerm rest) :
    quoted? '"' ((quoteName name).toList ++ rest) = some (name, rest) :=
  quoted?_enclosed (hr.head_ne (by decide)) name

theorem label?_some (label : String) {rest : List Char} (hr : EndsTerm rest) :
    label? (" AS ".toList ++ ((quoteName label).toList ++ rest)) = some (some label, rest) := by
  simp only [label?, after_append, quoted?_quoteName label hr, Option.map_some]

theorem label?_none {rest : List Char} (hr : EndsLabelled rest) : label? rest = some (none, rest) := by
  simp only [label?, hr.2]

/-- Whether a word comes next, and what follows. -/
def optional? (word : String) (cs : List Char) : Bool × List Char :=
  match after word cs with
  | some cs => (true, cs)
  | none => (false, cs)

def optionalText (word : String) (given : Bool) : List Char := if given then word.toList else []

theorem optional?_optionalText {word : String} {cs : List Char} (h : after word cs = none)
    (given : Bool) : optional? word (optionalText word given ++ cs) = (given, cs) := by
  cases given with
  | false => simp [optional?, optionalText, h]
  | true => simp [optional?, optionalText, after_append]

def table? (cs : List Char) : Option (BoundTable × List Char) := do
  let ((schema, name), cs) ← qualified? cs
  let (label, cs) ← label? cs
  some (⟨⟨schema, name⟩, label⟩, cs)

def item? (cs : List Char) : Option (Item × List Char) := do
  let (e, cs) ← term? cs
  let (label, cs) ← label? cs
  some (⟨e, label⟩, cs)

def joinKind? (cs : List Char) : Option (JoinKind × List Char) :=
  [JoinKind.inner, .leftOuter].findSome? fun kind => (after (" " ++ kind.words ++ " ") cs).map (kind, ·)

def filter? (cs : List Char) : Option (Option Term × List Char) :=
  match after " WHERE " cs with
  | some cs => (term? cs).map fun read => (some read.1, read.2)
  | none => some (none, cs)

mutual

/-- A source is read from a text that is shorter than the bound, and so are joins and queries. -/
def source? : Nat → List Char → Option (Source × List Char)
  | 0, _ => none
  | bound + 1, cs =>
    match cs with
    | '(' :: cs => do
      let (s, cs) ← select? bound cs
      let cs ← after ") AS " cs
      let (label, cs) ← quoted? '"' cs
      joins? bound (s.toSource label) cs
    | cs => do
      let (t, cs) ← table? cs
      joins? bound (.table t) cs

/-- The joins whose left side has been read. -/
def joins? : Nat → Source → List Char → Option (Source × List Char)
  | 0, _, _ => none
  | bound + 1, left, cs =>
    match joinKind? cs with
    | none => some (left, cs)
    | some (kind, cs) => do
      let (right, cs) ← source? bound cs
      let cs ← after " ON " cs
      let (on, cs) ← term? cs
      joins? bound (.join kind left right on) cs

def select? : Nat → List Char → Option (Select × List Char)
  | 0, _ => none
  | bound + 1, cs => do
    let cs ← after "SELECT " cs
    let (projection, rest) ← separated? item? ", " (optional? "DISTINCT " cs).2
    let rest ← after " FROM " rest
    let (source, rest) ← source? bound rest
    let (filter, rest) ← filter? rest
    some (⟨(optional? "DISTINCT " cs).1, projection, source, filter⟩, rest)

end

theorem table?_render (t : BoundTable) {rest : List Char} (hr : EndsLabelled rest) :
    table? (t.render.toList ++ rest) = some (t, rest) := by
  obtain ⟨table, label⟩ := t
  cases label with
  | none =>
    have hname := qualified?_render table hr.1
    simp [table?, BoundTable.render, hname, label?_none hr]
  | some label =>
    have hends : EndsTerm (" AS ".toList ++ ((quoteName label).toList ++ rest)) := by simp [EndsTerm]
    have hname := qualified?_render table hends
    rw [BoundTable.render, String.toList_append, String.toList_append, List.append_assoc,
      List.append_assoc, table?, hname]
    simp only [Option.bind_eq_bind, Option.bind_some, label?_some label hr.1]

theorem item?_render {i : Item} (hi : i.term.Legible) {rest : List Char} (hr : EndsLabelled rest) :
    item? (i.render.toList ++ rest) = some (i, rest) := by
  obtain ⟨e, label⟩ := i
  cases label with
  | none =>
    have hterm := term?_render hi hr.1
    simp [item?, Item.render, hterm, label?_none hr]
  | some label =>
    have hends : EndsTerm (" AS ".toList ++ ((quoteName label).toList ++ rest)) := by simp [EndsTerm]
    have hterm := term?_render hi hends
    rw [Item.render, String.toList_append, String.toList_append, List.append_assoc,
      List.append_assoc, item?, hterm]
    simp only [Option.bind_eq_bind, Option.bind_some, label?_some label hr.1]

/-- What a query can be followed by. -/
def EndsQuery (rest : List Char) : Prop := ∀ c ∈ rest.head?, c ∈ [')', '\n']

theorem EndsQuery.head_ne {rest : List Char} (h : EndsQuery rest) : rest.head? ≠ some ' ' :=
  fun hr => absurd (h ' ' hr) (by decide)

theorem EndsQuery.endsTerm {rest : List Char} (h : EndsQuery rest) : EndsTerm rest :=
  fun c hc => List.mem_append_right [' ', ','] (h c hc)

theorem EndsQuery.endsLabelled {rest : List Char} (h : EndsQuery rest) : EndsLabelled rest :=
  ⟨h.endsTerm, after_eq_none (by rfl) h.head_ne⟩

theorem joinKind?_words (kind : JoinKind) (rest : List Char) :
    joinKind? (' ' :: (kind.words.toList ++ ' ' :: rest)) = some (kind, rest) := by
  cases kind <;> rfl

theorem joinKind?_eq_none {rest : List Char} (hr : rest.head? ≠ some ' ') : joinKind? rest = none := by
  have hnone (kind : JoinKind) : after (" " ++ kind.words ++ " ") rest = none := by
    have htext : (" " ++ kind.words ++ " ").toList = ' ' :: (kind.words.toList ++ [' ']) := by simp
    exact after_eq_none htext hr
  simp [joinKind?, hnone]

/-- Without a join the source has been read. -/
theorem joins?_done {left : Source} {rest : List Char} (hr : joinKind? rest = none) {bound : Nat}
    (hbound : 0 < bound) : joins? bound left rest = some (left, rest) := by
  obtain ⟨bound, rfl⟩ := Nat.exists_eq_succ_of_ne_zero (Nat.ne_zero_of_lt hbound)
  rw [joins?]
  simp only [hr]

def filterText : Option Term → List Char
  | none => []
  | some condition => " WHERE ".toList ++ condition.render.toList

@[simp] theorem filterText_none : filterText none = [] := rfl

@[simp] theorem filterText_some (condition : Term) :
    filterText (some condition) = " WHERE ".toList ++ condition.render.toList := rfl

theorem endsLabelled_filterText (filter : Option Term) {rest : List Char} (hr : EndsQuery rest) :
    EndsLabelled (filterText filter ++ rest) := by
  cases filter with
  | none => exact hr.endsLabelled
  | some condition => exact ⟨by simp [EndsTerm], by rfl⟩

theorem joinKind?_filterText (filter : Option Term) {rest : List Char} (hr : EndsQuery rest) :
    joinKind? (filterText filter ++ rest) = none := by
  cases filter with
  | none => exact joinKind?_eq_none hr.head_ne
  | some condition => rfl

theorem filter?_filterText {filter : Option Term} (hf : LegibleFilter filter) {rest : List Char}
    (hr : EndsQuery rest) : filter? (filterText filter ++ rest) = some (filter, rest) := by
  cases filter with
  | none =>
    have hnone : after " WHERE " rest = none := after_eq_none (by rfl) hr.head_ne
    simp [filter?, hnone]
  | some condition =>
    have hterm := term?_render (hf condition rfl) hr.endsTerm
    simp only [filter?, filterText_some, List.append_assoc, after_append, hterm, Option.map_some]

def itemsText (projection : List Item) : List Char :=
  ", ".toList.intercalate (projection.map fun i => i.render.toList)

theorem items?_itemsText {projection : List Item} (hp : LegibleItems projection) {rest : List Char}
    (hr : EndsLabelled rest) (hstop : after ", " rest = none) :
    separated? item? ", " (itemsText projection ++ rest) = some (projection, rest) :=
  separated?_intercalate (fun i hi _ hrest _ => item?_render (hp.2 i hi) hrest)
    (fun cs => ⟨by simp [EndsTerm], by rfl⟩) hp.1 hr hstop (Nat.lt_succ_self _)

/-- No item starts like the word that can stand before the first. -/
theorem after_distinct {projection : List Item} (hp : LegibleItems projection) (rest : List Char) :
    after "DISTINCT " (itemsText projection ++ rest) = none := by
  obtain ⟨hne, hp⟩ := hp
  cases projection with
  | nil => exact absurd rfl hne
  | cons i projection =>
    have hterm := after_render (show "DISTINCT ".toList = 'D' :: "ISTINCT ".toList by rfl) (by decide)
      (fun _ => rfl) (hp i List.mem_cons_self)
    have hitem (cs : List Char) : after "DISTINCT " (i.render.toList ++ cs) = none := by
      obtain ⟨e, label⟩ := i
      cases label with
      | none => exact hterm cs
      | some label =>
        rw [Item.render, String.toList_append, String.toList_append, List.append_assoc, List.append_assoc]
        exact hterm _
    obtain ⟨cs, htext⟩ := intercalate_front ", ".toList i.render.toList
      (projection.map fun i => i.render.toList)
    rw [itemsText, List.map_cons, htext, List.append_assoc]
    exact hitem _

theorem toList_selectText (distinct : Bool) (projection : List Item) (source : String)
    (filter : Option Term) : (selectText distinct projection source filter).toList =
      "SELECT ".toList ++ (optionalText "DISTINCT " distinct ++ (itemsText projection ++
        (" FROM ".toList ++ (source.toList ++ filterText filter)))) := by
  cases distinct <;> cases filter <;>
    simp [selectText, optionalText, itemsText, String.toList_intercalate, Function.comp_def]

/-- After a source, the joins are read whose left side it is. -/
def Continues (s : Source) : Prop :=
  ∀ rest bound, EndsLabelled rest → (s.render.toList ++ rest).length < bound →
    ∃ left, rest.length < left ∧ source? bound (s.render.toList ++ rest) = joins? left s rest

theorem Continues.of_succ {s : Source}
    (h : ∀ rest bound, EndsLabelled rest → (s.render.toList ++ rest).length < bound + 1 →
      ∃ left, rest.length < left ∧ source? (bound + 1) (s.render.toList ++ rest) = joins? left s rest) :
    Continues s := by
  intro rest bound hr hbound
  obtain ⟨bound, rfl⟩ := Nat.exists_eq_succ_of_ne_zero (Nat.ne_zero_of_lt hbound)
  exact h rest bound hr hbound

theorem Continues.source?_done {s : Source} (hs : Continues s) {rest : List Char}
    (hr : EndsLabelled rest) (hdone : joinKind? rest = none) {bound : Nat}
    (hbound : (s.render.toList ++ rest).length < bound) :
    source? bound (s.render.toList ++ rest) = some (s, rest) := by
  obtain ⟨left, hleft, hsource⟩ := hs rest bound hr hbound
  rw [hsource, joins?_done hdone (Nat.zero_lt_of_lt hleft)]

/-- A query is read back if its source is. -/
theorem select?_of_continues {s : Select} (hs : Continues s.source) (hp : LegibleItems s.projection)
    (hf : LegibleFilter s.filter) {rest : List Char} (hr : EndsQuery rest) {bound : Nat}
    (hbound : (s.render.toList ++ rest).length < bound) :
    select? bound (s.render.toList ++ rest) = some (s, rest) := by
  obtain ⟨distinct, projection, source, filter⟩ := s
  obtain ⟨bound, rfl⟩ := Nat.exists_eq_succ_of_ne_zero (Nat.ne_zero_of_lt hbound)
  have hfrom : EndsLabelled (" FROM ".toList ++ (source.render.toList ++ (filterText filter ++ rest))) :=
    ⟨by simp [EndsTerm], by rfl⟩
  have hitems := items?_itemsText hp hfrom (by rfl)
  have hdistinct := optional?_optionalText (after_distinct hp
    (" FROM ".toList ++ (source.render.toList ++ (filterText filter ++ rest)))) distinct
  rw [Select.render, toList_selectText] at hbound ⊢
  simp only [List.append_assoc] at hbound ⊢
  have hlength : (source.render.toList ++ (filterText filter ++ rest)).length < bound := by
    rw [List.length_append, List.length_append, List.length_append, List.length_append] at hbound
    have hselect : "SELECT ".toList.length = 7 := rfl
    omega
  have hsource := hs.source?_done (endsLabelled_filterText filter hr) (joinKind?_filterText filter hr)
    hlength
  rw [select?]
  simp only [after_append, Option.bind_eq_bind, Option.bind_some, hdistinct, hitems, hsource,
    filter?_filterText hf hr]

theorem continues_of_legible {s : Source} (hs : s.Legible) : Continues s := by
  induction s with
  | table t =>
    refine .of_succ fun rest bound hr hbound => ⟨bound, ?_⟩
    have htable := table?_render t hr
    obtain ⟨cs, htext⟩ : ∃ cs, t.render.toList = '"' :: cs := by
      obtain ⟨⟨schema, name⟩, label⟩ := t
      cases schema <;> cases label <;> simp [BoundTable.render, Table.render, quoteName, enclosed]
    rw [htext, List.cons_append] at htable
    rw [Source.render, htext, List.cons_append] at hbound ⊢
    rw [List.length_cons, List.length_append] at hbound
    refine ⟨by omega, ?_⟩
    rw [source?]
    · simp [htable]
    · simp
  | query distinct projection source filter label ih =>
    obtain ⟨hp, hsource, hf⟩ := hs
    refine .of_succ fun rest bound hr hbound => ⟨bound, ?_⟩
    have htext : (Source.query distinct projection source filter label).render.toList ++ rest =
        '(' :: ((Select.mk distinct projection source filter).render.toList ++
          (") AS ".toList ++ ((quoteName label).toList ++ rest))) := by
      simp [Source.render, Select.render]
    rw [htext] at hbound ⊢
    have hquery := select?_of_continues (s := ⟨distinct, projection, source, filter⟩)
      (ih hsource) hp hf
      (show EndsQuery (") AS ".toList ++ ((quoteName label).toList ++ rest)) by simp [EndsQuery])
      (Nat.lt_of_succ_lt_succ hbound)
    rw [List.length_cons, List.length_append, List.length_append, List.length_append] at hbound
    refine ⟨by omega, ?_⟩
    rw [source?]
    simp only [hquery, after_append, Option.bind_eq_bind, Option.bind_some,
      quoted?_quoteName label hr.1, Select.toSource]
  | join kind left right on ihl ihr =>
    obtain ⟨hleft, hright, hon⟩ := hs
    intro rest bound hr hbound
    have hterm := term?_render hon hr.1
    have htext : (Source.join kind left right on).render.toList ++ rest = left.render.toList ++
        ' ' :: (kind.words.toList ++ ' ' ::
          (right.render.toList ++ (" ON ".toList ++ (on.render.toList ++ rest)))) := by
      simp [Source.render]
    have hwords : EndsLabelled (' ' :: (kind.words.toList ++ ' ' ::
        (right.render.toList ++ (" ON ".toList ++ (on.render.toList ++ rest))))) :=
      ⟨by simp [EndsTerm], by cases kind <;> rfl⟩
    rw [htext] at hbound ⊢
    obtain ⟨next, hnext, hfirst⟩ := ihl hleft _ bound hwords hbound
    obtain ⟨next, rfl⟩ := Nat.exists_eq_succ_of_ne_zero (Nat.ne_zero_of_lt hnext)
    have hlength : (right.render.toList ++ (" ON ".toList ++ (on.render.toList ++ rest))).length < next := by
      rw [List.length_cons, List.length_append, List.length_cons] at hnext
      omega
    have hsecond := (ihr hright).source?_done
      (show EndsLabelled (" ON ".toList ++ (on.render.toList ++ rest)) from ⟨by simp [EndsTerm], by rfl⟩)
      (by rfl) hlength
    refine ⟨next, ?_, ?_⟩
    · rw [List.length_append, List.length_append, List.length_append] at hlength
      omega
    · rw [hfirst, joins?, joinKind?_words]
      simp only [hsecond, after_append, Option.bind_eq_bind, Option.bind_some, hterm]

/-- A query, whatever its length. -/
def query? (cs : List Char) : Option (Select × List Char) := select? (cs.length + 1) cs

theorem query?_render {s : Select} (hs : s.Legible) {rest : List Char} (hr : EndsQuery rest) :
    query? (s.render.toList ++ rest) = some (s, rest) :=
  select?_of_continues (continues_of_legible hs.2.1) hs.1 hs.2.2 hr (Nat.lt_succ_self _)

def combinator? (cs : List Char) : Option (Combinator × List Char) :=
  [Combinator.union, .unionAll].findSome? fun combinator =>
    (after ("\n" ++ combinator.words ++ "\n") cs).map (combinator, ·)

def body? (cs : List Char) : Option (Body × List Char) := do
  let (s, cs) ← query? cs
  match combinator? cs with
  | none => some (.plain s, cs)
  | some (combinator, cs) => do
    let (step, cs) ← query? cs
    some (.compound s combinator step, cs)

def cte? (cs : List Char) : Option (Cte × List Char) := do
  let (name, cs) ← quoted? '"' cs
  let cs ← after " AS (\n" cs
  let (body, cs) ← body? cs
  let cs ← after "\n)" cs
  some (⟨name, body.isCompound, body⟩, cs)

def ctes? (cs : List Char) : Option (List Cte × List Char) :=
  match after "WITH " cs with
  | none => some ([], cs)
  | some cs => do
    let (ctes, cs) ← separated? cte? ",\n" (optional? "RECURSIVE " cs).2
    let cs ← after "\n" cs
    some (ctes, cs)

def statement? (text : String) : Option Statement := do
  let (ctes, cs) ← ctes? text.toList
  let (body, cs) ← query? cs
  if cs = [] then some ⟨ctes, body⟩ else none

theorem combinator?_words (combinator : Combinator) (rest : List Char) :
    combinator? ('\n' :: (combinator.words.toList ++ '\n' :: rest)) = some (combinator, rest) := by
  cases combinator <;> rfl

theorem body?_render {b : Body} (hb : b.Legible) (rest : List Char) :
    body? (b.render.toList ++ '\n' :: ')' :: rest) = some (b, '\n' :: ')' :: rest) := by
  have hends (cs : List Char) : EndsQuery ('\n' :: cs) := by simp [EndsQuery]
  have hend : combinator? ('\n' :: ')' :: rest) = none := rfl
  cases b with
  | plain s =>
    have hs := query?_render hb (hends (')' :: rest))
    simp [body?, Body.render, hs, hend]
  | compound anchor combinator step =>
    have hanchor := query?_render hb.1
      (hends (combinator.words.toList ++ '\n' :: (step.render.toList ++ '\n' :: ')' :: rest)))
    have hstep := query?_render hb.2 (hends (')' :: rest))
    simp [body?, Body.render, hanchor, combinator?_words, hstep]

theorem cte?_render {c : Cte} (hc : c.Legible) (rest : List Char) :
    cte? (c.render.toList ++ rest) = some (c, rest) := by
  obtain ⟨name, recursive, body⟩ := c
  obtain ⟨hbody, rfl⟩ : body.Legible ∧ recursive = body.isCompound := hc
  have hname := quoted?_quoteName name
    (show EndsTerm (" AS (\n".toList ++ (body.render.toList ++ '\n' :: ')' :: rest)) by simp [EndsTerm])
  have htext : (Cte.mk name body.isCompound body).render.toList ++ rest =
      (quoteName name).toList ++ (" AS (\n".toList ++ (body.render.toList ++ '\n' :: ')' :: rest)) := by
    simp [Cte.render]
  have hclose : after "\n)" ('\n' :: ')' :: rest) = some rest := rfl
  rw [htext, cte?, hname]
  simp only [Option.bind_eq_bind, Option.bind_some, after_append, body?_render hbody, hclose]

def ctesText (ctes : List Cte) : List Char :=
  ",\n".toList.intercalate (ctes.map fun c => c.render.toList)

theorem toList_heading {s : Statement} (hs : s.ctes ≠ []) : s.heading.toList =
    "WITH ".toList ++ (optionalText "RECURSIVE " s.isRecursive ++ (ctesText s.ctes ++ ['\n'])) := by
  unfold Statement.heading
  split
  · next hnil => exact absurd hnil hs
  · cases s.isRecursive <;>
      simp [optionalText, ctesText, String.toList_intercalate, Function.comp_def]

/-- The name of a common table expression is no word. -/
theorem after_recursive {ctes : List Cte} (hne : ctes ≠ []) (rest : List Char) :
    after "RECURSIVE " (ctesText ctes ++ rest) = none := by
  cases ctes with
  | nil => exact absurd rfl hne
  | cons c ctes =>
    obtain ⟨cs, htext⟩ := intercalate_front ",\n".toList c.render.toList
      (ctes.map fun c => c.render.toList)
    have hhead : (c.render.toList ++ (cs ++ rest)).head? ≠ some 'R' := by
      simp [Cte.render, quoteName, enclosed]
    rw [ctesText, List.map_cons, htext, List.append_assoc]
    exact after_eq_none (by rfl) hhead

theorem ctes?_heading {s : Statement} (hs : ∀ c ∈ s.ctes, c.Legible) {rest : List Char}
    (hr : after "WITH " rest = none) : ctes? (s.heading.toList ++ rest) = some (s.ctes, rest) := by
  by_cases hne : s.ctes = []
  · have hnil : s.heading = "" := by simp [Statement.heading, hne]
    simp [ctes?, hnil, hr, hne]
  · have hctes := @separated?_intercalate Cte ",\n" cte? (fun c => c.render.toList) (fun _ => True) s.ctes
      _ ('\n' :: rest) (fun c hc cs _ _ => cte?_render (hs c hc) cs) (fun _ => trivial) hne trivial
      (by rfl) (Nat.lt_succ_self _)
    have hword := optional?_optionalText (after_recursive hne ('\n' :: rest)) s.isRecursive
    have hend : after "\n" ('\n' :: rest) = some rest := rfl
    rw [← ctesText] at hctes
    rw [toList_heading hne, ctes?]
    simp only [List.append_assoc, after_append, List.singleton_append, hword, hctes,
      Option.bind_eq_bind, Option.bind_some, hend]

/-- A statement is read back from its text. -/
theorem statement?_render {s : Statement} (hs : s.Legible) : statement? s.render = some s := by
  have hwith : after "WITH " (s.body.render.toList ++ []) = none := by
    rw [Select.render, toList_selectText]
    rfl
  have hctes := ctes?_heading hs.1 hwith
  have hbody := query?_render hs.2 (show EndsQuery [] by simp [EndsQuery])
  rw [List.append_nil] at hctes hbody
  simp [statement?, Statement.render, hctes, hbody]

end Reader

/-- Statements of the same text are the same. -/
theorem Statement.render_eq_iff {s t : Statement} (hs : s.Legible) (ht : t.Legible) :
    s.render = t.render ↔ s = t := by
  constructor
  · intro h
    have hread := Reader.statement?_render hs
    rw [h, Reader.statement?_render ht] at hread
    exact (Option.some.inj hread).symm
  · intro h
    rw [h]

/-- The rows of two tables have the same identifier. -/
def sameId (left right : String) : Term :=
  .compare .eq (.column (some left) "id") (.column (some right) "id")

/-- Three tables, the first two of which are joined first. -/
def leftNested : Source :=
  .join .inner (.join .leftOuter (.table (.named "den")) (.table (.named "cub")) (sameId "den" "cub"))
    (.table (.named "bear\" ON \"cub")) (sameId "den" "cub")

/-- Three tables, the last two of which are joined first. -/
def rightNested : Source :=
  .join .leftOuter (.table (.named "den"))
    (.join .inner (.table (.named "cub")) (.table (.named "bear\" ON \"cub")) (sameId "den" "cub"))
    (sameId "den" "cub")

/-- Everything there is of a source, with what a recursion makes of it. -/
def everyId (source : Source) : Statement :=
  let s : Select := ⟨true, [⟨.column none "id", none⟩], source, none⟩
  ⟨[⟨"walk\" AS (\n", true, .compound s .unionAll s⟩], s⟩

theorem Statement.render_eq_iff_nested : (everyId leftNested).Legible ∧ (everyId rightNested).Legible ∧
    (everyId leftNested).render ≠ (everyId rightNested).render := by
  have hon : (sameId "den" "cub").Legible := ⟨trivial, trivial⟩
  have hitems : LegibleItems [⟨.column none "id", none⟩] := by simp [LegibleItems, Term.Legible]
  have hfilter : LegibleFilter none := by simp [LegibleFilter]
  have hevery {source : Source} (hs : source.Legible) : (everyId source).Legible := by
    have hselect : (everyId source).body.Legible := ⟨hitems, hs, hfilter⟩
    have hcte : ∀ c ∈ (everyId source).ctes, c.Legible := by
      intro c hc
      rw [List.mem_singleton.mp hc]
      exact ⟨⟨hselect, hselect⟩, rfl⟩
    exact ⟨hcte, hselect⟩
  have hleft : (everyId leftNested).Legible := hevery ⟨⟨trivial, trivial, hon⟩, trivial, hon⟩
  have hright : (everyId rightNested).Legible := hevery ⟨trivial, ⟨trivial, trivial, hon⟩, hon⟩
  refine ⟨hleft, hright, fun h => ?_⟩
  have hsame := (Statement.render_eq_iff hleft hright).mp h
  have hsource : leftNested = rightNested := congrArg (fun s => s.body.source) hsame
  exact absurd hsource (by simp [leftNested, rightNested])

end GraphPlan.Sql
