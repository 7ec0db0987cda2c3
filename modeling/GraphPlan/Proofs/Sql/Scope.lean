import GraphPlan.Proofs.Names

namespace GraphPlan.Sql

namespace Term

mutual

/-- The columns that a term mentions, with their qualifiers. -/
def columns : Term → List (Option String × String)
  | .column qualifier name => [(qualifier, name)]
  | .constant _ => []
  | .param _ => []
  | .cast e _ => columns e
  | .concat parts => columnsEach parts
  | .add left right => columns left ++ columns right
  | .compare _ left right => columns left ++ columns right
  | .and terms => columnsEach terms
  | .or terms => columnsEach terms
  | .not e => columns e
  | .like e pattern => columns e ++ columns pattern
  | .isNull e => columns e
  | .isNotNull e => columns e
  | .inList e items => columns e ++ columnsEach items

def columnsEach : List Term → List (Option String × String)
  | [] => []
  | e :: es => columns e ++ columnsEach es

end

theorem mem_columnsEach {c : Option String × String} {es : List Term} :
    c ∈ columnsEach es ↔ ∃ e ∈ es, c ∈ columns e := by
  induction es with
  | nil => simp [columnsEach]
  | cons e es ih => simp [columnsEach, ih]

/-- A conjunction mentions what its terms mention. -/
theorem mem_columns_all {c : Option String × String} {es : List Term} :
    c ∈ columns (all es) ↔ ∃ e ∈ es, c ∈ columns e := by
  unfold all
  split
  · simp
  · rw [columns, mem_columnsEach]

/-- Every column stands under one of the given qualifiers. -/
def QualifiedBy (qualifiers : List String) (e : Term) : Prop :=
  ∀ c ∈ columns e, ∃ q ∈ qualifiers, c.1 = some q

theorem QualifiedBy.mono {qs rs : List String} {e : Term} (h : QualifiedBy qs e) (hs : qs ⊆ rs) :
    QualifiedBy rs e := by
  intro c hc
  obtain ⟨q, hq, he⟩ := h c hc
  exact ⟨q, hs hq, he⟩

end Term

theorem column_qualifiedBy (t : BoundTable) (name : String) :
    (t.column name).QualifiedBy [t.qualifier] := by
  intro c hc
  have he : c = (some t.qualifier, name) := by
    simpa [BoundTable.column, Term.columns] using hc
  exact ⟨t.qualifier, by simp, by rw [he]⟩

/-- Something that can be selected from: its qualifier, and its columns if they are known. -/
structure Range where
  qualifier : String
  columns : Option (List String)

namespace Range

/-- A range whose columns are not known, such as a table of the database. -/
def ofQualifier (qualifier : String) : Range := ⟨qualifier, none⟩

def Has (r : Range) (column : String) : Prop := ∀ columns ∈ r.columns, column ∈ columns

end Range

/-- Every column belongs to one of the ranges. -/
def Term.Within (ranges : List Range) (e : Term) : Prop :=
  ∀ c ∈ e.columns, ∃ range ∈ ranges, c.1 = some range.qualifier ∧ range.Has c.2

namespace Term

theorem Within.mono {rs ts : List Range} {e : Term} (h : e.Within rs) (hs : rs ⊆ ts) :
    e.Within ts := by
  intro c hc
  obtain ⟨range, hr, hq⟩ := h c hc
  exact ⟨range, hs hr, hq⟩

theorem within_of_qualifiedBy {qs : List String} {e : Term} (h : e.QualifiedBy qs) :
    e.Within (qs.map Range.ofQualifier) := by
  intro c hc
  obtain ⟨q, hq, he⟩ := h c hc
  exact ⟨_, List.mem_map_of_mem hq, he, by simp [Range.Has, Range.ofQualifier]⟩

theorem within_column {ranges : List Range} (range : Range) (hr : range ∈ ranges) {name : String}
    (hn : range.Has name) : (Term.column (some range.qualifier) name).Within ranges := by
  intro c hc
  have he : c = (some range.qualifier, name) := by simpa [columns] using hc
  subst he
  exact ⟨range, hr, rfl, hn⟩

theorem within_all {ranges : List Range} {es : List Term} (h : ∀ e ∈ es, e.Within ranges) :
    (all es).Within ranges := by
  intro c hc
  obtain ⟨e, he, hce⟩ := mem_columns_all.mp hc
  exact h e he c hce

end Term

/-- Generated tables by name, with their columns. -/
abbrev Known := List (String × List String)

/-- A name by itself stands for the generated table of that name, if there is one. -/
def BoundTable.range (known : Known) (t : BoundTable) : Range :=
  ⟨t.qualifier, if t.table.schema = none then known.lookup t.table.name else none⟩

def labels (projection : List Item) : List String := projection.filterMap Item.label

namespace Source

def qualifiers : Source → List String
  | table t => [t.qualifier]
  | query _ _ _ _ label => [label]
  | join _ left right _ => left.qualifiers ++ right.qualifiers

def ranges (known : Known) : Source → List Range
  | table t => [t.range known]
  | query _ projection _ _ label => [⟨label, some (labels projection)⟩]
  | join _ left right _ => left.ranges known ++ right.ranges known

theorem ranges_qualifier (known : Known) (s : Source) :
    (s.ranges known).map Range.qualifier = s.qualifiers := by
  induction s with
  | table t => rfl
  | query => rfl
  | join kind left right on hl hr => simp [ranges, qualifiers, hl, hr]

end Source

/-- What a query selects and asks for is in scope, and no two ranges have one qualifier. -/
def PartsScoped (ranges : List Range) (projection : List Item) (filter : Option Term) : Prop :=
  (ranges.map Range.qualifier).Nodup ∧ (∀ item ∈ projection, item.term.Within ranges) ∧
    ∀ condition ∈ filter, condition.Within ranges

/-- The generated tables of a FROM clause are known, the condition of each join is about its own two
sides, and its queries are in scope themselves. -/
def Source.Scoped (stem : String) (known : Known) : Source → Prop
  | .table t =>
    Reserved stem t.table.name → t.table.schema = none ∧ t.table.name ∈ known.map Prod.fst
  | .query _ projection source filter _ =>
    source.Scoped stem known ∧ PartsScoped (source.ranges known) projection filter
  | .join _ left right on =>
    left.Scoped stem known ∧ right.Scoped stem known ∧
      on.Within (left.ranges known ++ right.ranges known)

def Select.Scoped (stem : String) (known : Known) (s : Select) : Prop :=
  s.source.Scoped stem known ∧ PartsScoped (s.source.ranges known) s.projection s.filter

namespace Cte

/-- The columns of a recursion are named by its anchor. -/
def columns (c : Cte) : List String :=
  match c.body with
  | .plain s => labels s.projection
  | .compound anchor _ _ => labels anchor.projection

def signature (c : Cte) : String × List String := (c.name, c.columns)

/-- The step of a recursion may use the recursion itself. -/
def Scoped (stem : String) (known : Known) (c : Cte) : Prop :=
  match c.body with
  | .plain s => s.Scoped stem known
  | .compound anchor _ step =>
    anchor.Scoped stem known ∧ step.Scoped stem (known ++ [c.signature])

end Cte

/-- Each expression only uses those before it. -/
def CtesScoped (stem : String) : Known → List Cte → Prop
  | _, [] => True
  | known, c :: cs => c.Scoped stem known ∧ CtesScoped stem (known ++ [c.signature]) cs

def Statement.Scoped (stem : String) (s : Statement) : Prop :=
  CtesScoped stem [] s.ctes ∧ s.body.Scoped stem (s.ctes.map Cte.signature)

theorem ctesScoped_append {stem : String} {known : Known} {cs ds : List Cte} :
    CtesScoped stem known (cs ++ ds) ↔
      CtesScoped stem known cs ∧ CtesScoped stem (known ++ cs.map Cte.signature) ds := by
  induction cs generalizing known with
  | nil => simp [CtesScoped]
  | cons c cs ih => simp [CtesScoped, ih, and_assoc]

/-- Further generated tables change nothing for a table that is in scope already. -/
theorem BoundTable.range_append {stem : String} {known more : Known} {t : BoundTable}
    (ht : Reserved stem t.table.name → t.table.schema = none ∧ t.table.name ∈ known.map Prod.fst)
    (hm : ∀ x ∈ more, Reserved stem x.1) : t.range (known ++ more) = t.range known := by
  unfold range
  congr 1
  split
  · rw [List.lookup_append]
    by_cases hr : Reserved stem t.table.name
    · obtain ⟨x, hx, hn⟩ := List.mem_map.mp (ht hr).2
      cases hl : known.lookup t.table.name with
      | some columns => simp
      | none =>
        have hne := List.lookup_eq_none_iff.mp hl x hx
        simp [hn] at hne
    · have hl : more.lookup t.table.name = none := by
        apply List.lookup_eq_none_iff.mpr
        intro x hx
        have hne : t.table.name ≠ x.1 := by
          intro h
          exact hr (h ▸ hm x hx)
        simpa using hne
      simp [hl]
  · rfl

namespace Source

variable {stem : String} {known more : Known}

theorem ranges_append {s : Source} (hs : s.Scoped stem known) (hm : ∀ x ∈ more, Reserved stem x.1) :
    s.ranges (known ++ more) = s.ranges known := by
  induction s with
  | table t => simp only [ranges, BoundTable.range_append hs hm]
  | query => rfl
  | join kind left right on hl hr => simp only [ranges, hl hs.1, hr hs.2.1]

theorem scoped_append {s : Source} (hs : s.Scoped stem known) (hm : ∀ x ∈ more, Reserved stem x.1) :
    s.Scoped stem (known ++ more) := by
  induction s with
  | table t =>
    intro hr
    have ht := hs hr
    exact ⟨ht.1, by simpa using Or.inl (by simpa using ht.2)⟩
  | query distinct projection source filter label ih =>
    refine ⟨ih hs.1, ?_⟩
    rw [ranges_append hs.1 hm]
    exact hs.2
  | join kind left right on hl hr =>
    refine ⟨hl hs.1, hr hs.2.1, ?_⟩
    rw [ranges_append hs.1 hm, ranges_append hs.2.1 hm]
    exact hs.2.2

end Source

end GraphPlan.Sql
