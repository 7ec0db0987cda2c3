import GraphPlan.Proofs.Json.Lexing

namespace GraphPlan.Document

open Json (spell spellItems spellMembers inductionOn)

/-- The tokens take the machine from one state to another. -/
def Runs (s : State) (ts : List Json.Token) (s' : State) : Prop := ts.foldlM step s = some s'

theorem runs_nil (s : State) : Runs s [] s := rfl

theorem Runs.cons {s s' s'' : State} {t : Json.Token} {ts : List Json.Token} (ht : step s t = some s')
    (h : Runs s' ts s'') : Runs s (t :: ts) s'' := by
  rw [Runs, List.foldlM_cons, ht]
  exact h

theorem Runs.append {s s' s'' : State} {ts us : List Json.Token} (h : Runs s ts s')
    (h' : Runs s' us s'') : Runs s (ts ++ us) s'' := by
  rw [Runs, List.foldlM_append, h]
  exact h'

/-- A value is read and handed to the container around it. -/
def Read (j : Json) : Prop := ∀ stack, Runs (.value stack) j.spell (plug (ofJson j) stack)

/-- The items of an array, of which some have been read before. -/
theorem runs_items {items : List Json} (hne : items ≠ []) (h : ∀ j ∈ items, Read j)
    (done : List Document) (stack : List Frame) :
    Runs (.value (.array done :: stack)) ([.comma].intercalate (spellItems items))
      (.after (.array ((ofItems items).reverse ++ done)) stack) := by
  induction items generalizing done with
  | nil => exact absurd rfl hne
  | cons j js ih =>
    have hj := h j List.mem_cons_self (.array done :: stack)
    cases js with
    | nil => simpa [spellItems, ofItems, List.intercalate_singleton, plug] using hj
    | cons k js =>
      have hrest := ih (by simp) (fun i hi => h i (List.mem_cons_of_mem j hi)) (ofJson j :: done)
      have hcomma : step (.after (.array (ofJson j :: done)) stack) .comma =
        some (.value (.array (ofJson j :: done) :: stack)) := rfl
      rw [spellItems, spellItems, List.intercalate_cons_cons, ← spellItems, List.append_assoc]
      have hall := hj.append (hrest.cons hcomma)
      rwa [ofItems, List.reverse_cons, List.append_assoc]

/-- No value starts with a closing bracket. -/
theorem exists_spell_cons (j : Json) : ∃ t ts, j.spell = t :: ts ∧ t ≠ .closeArray := by
  cases j <;> exact ⟨_, _, rfl, by simp⟩

theorem runs_firstItem {stack : List Frame} {t : Json.Token} {ts : List Json.Token} {s : State}
    (ht : t ≠ .closeArray) (h : Runs (.value (.array [] :: stack)) (t :: ts) s) :
    Runs (.firstItem stack) (t :: ts) s := by
  have hstep : step (.firstItem stack) t = step (.value (.array [] :: stack)) t := by
    cases t <;> first | rfl | exact absurd rfl ht
  rw [Runs, List.foldlM_cons, hstep, ← List.foldlM_cons]
  exact h

theorem read_array {items : List Json} (h : ∀ j ∈ items, Read j) : Read (.array items) := by
  intro stack
  have hopen : step (.value stack) .openArray = some (.firstItem stack) := rfl
  cases items with
  | nil =>
    have hclose : step (.firstItem stack) .closeArray = some (plug (.array []) stack) := rfl
    exact ((runs_nil _).cons hclose).cons hopen
  | cons j js =>
    have hitems := runs_items (by simp) h [] stack
    have hclose : step (.after (.array ((ofItems (j :: js)).reverse ++ [])) stack) .closeArray =
        some (plug (.array (ofItems (j :: js))) stack) := by
      simp [step]
    have hall := hitems.append ((runs_nil _).cons hclose)
    obtain ⟨t, ts, ht, hne⟩ := exists_spell_cons j
    rw [spell, ofJson]
    apply Runs.cons hopen
    rw [spellItems, ht, List.intercalate_cons_cons_left, List.cons_append] at hall ⊢
    exact runs_firstItem hne hall

/-- The members of an object as they are collected, each with a key that can be read. -/
def keyed (members : List (String × Json)) : List (Option String × Document) :=
  members.map fun m => (some m.1, ofJson m.2)

theorem ofMembers_keyed (members : List (String × Json)) :
    ofMembers (keyed members).reverse = .object (ofJsonMembers members) := by
  have hm : (keyed members).mapM (fun m => m.1.map (·, m.2)) = some (ofJsonMembers members) := by
    induction members with
    | nil => rfl
    | cons m members ih =>
      simp [keyed] at ih
      simp [keyed, ofJsonMembers, ih]
  rw [ofMembers, List.reverse_reverse, hm]

theorem runs_members {members : List (String × Json)} (hne : members ≠ [])
    (h : ∀ m ∈ members, Read m.2) (done : List (Option String × Document)) (stack : List Frame) :
    ∃ key, Runs (.key done stack) ([.comma].intercalate (spellMembers members))
      (.after (.member ((keyed members).reverse ++ done) key) stack) := by
  induction members generalizing done with
  | nil => exact absurd rfl hne
  | cons m members ih =>
    obtain ⟨name, j⟩ := m
    have hkey : step (.key done stack) (.text (some name)) = some (.colon done (some name) stack) := rfl
    have hcolon : step (.colon done (some name) stack) .colon =
      some (.value (.member done (some name) :: stack)) := rfl
    have hvalue := h (name, j) List.mem_cons_self (.member done (some name) :: stack)
    have hmember := (hvalue.cons hcolon).cons hkey
    cases members with
    | nil =>
      refine ⟨some name, ?_⟩
      simpa [spellMembers, keyed, List.intercalate_singleton, plug] using hmember
    | cons m' members =>
      obtain ⟨key, hrest⟩ := ih (by simp) (fun i hi => h i (List.mem_cons_of_mem _ hi))
        ((some name, ofJson j) :: done)
      have hcomma : step (.after (.member ((some name, ofJson j) :: done) (some name)) stack) .comma =
        some (.key ((some name, ofJson j) :: done) stack) := rfl
      have hall := hmember.append (hrest.cons hcomma)
      refine ⟨key, ?_⟩
      rw [spellMembers, spellMembers, List.intercalate_cons_cons, ← spellMembers, List.append_assoc]
      rwa [keyed, List.map_cons, List.reverse_cons, List.append_assoc]

theorem runs_firstKey {stack : List Frame} {key : Option String} {ts : List Json.Token} {s : State}
    (h : Runs (.key [] stack) (.text key :: ts) s) : Runs (.firstKey stack) (.text key :: ts) s := h

theorem read_object {members : List (String × Json)} (h : ∀ m ∈ members, Read m.2) :
    Read (.object members) := by
  intro stack
  have hopen : step (.value stack) .openObject = some (.firstKey stack) := rfl
  cases members with
  | nil =>
    have hclose : step (.firstKey stack) .closeObject = some (plug (.object []) stack) := rfl
    exact ((runs_nil _).cons hclose).cons hopen
  | cons m members =>
    obtain ⟨key, hmembers⟩ := runs_members (by simp) h [] stack
    have hclose : step (.after (.member ((keyed (m :: members)).reverse ++ []) key) stack)
        .closeObject = some (plug (.object (ofJsonMembers (m :: members))) stack) := by
      simp [step, ofMembers_keyed]
    have hall := hmembers.append ((runs_nil _).cons hclose)
    rw [spell, ofJson]
    apply Runs.cons hopen
    rw [spellMembers, List.intercalate_cons_cons_left, List.cons_append] at hall ⊢
    exact runs_firstKey hall

theorem read_all (j : Json) : Read j := by
  induction j using inductionOn with
  | array items ih => exact read_array ih
  | object members ih => exact read_object ih
  | _ => exact fun stack => (runs_nil _).cons rfl

theorem ofTokens_spell (j : Json) : ofTokens j.spell = some (ofJson j) := by
  have hr : j.spell.foldlM step (.value []) = some (.finished (ofJson j)) := read_all j []
  rw [ofTokens, hr]

/-- The text of a value without doubles is the document of that value. -/
theorem ofText_render {j : Json} (h : j.Exact) : ofText j.render = some (ofJson j) := by
  rw [ofText, Json.tokens_render h]
  exact ofTokens_spell j

end GraphPlan.Document
