import GraphPlan.Proofs.Emission.Derivation
import GraphPlan.Proofs.Emission.TrunkScope

namespace GraphPlan.Sql

section

variable {stem : String} {known : Known}

/-- A generated table that has just been made has the columns it was made with. -/
theorem range_named_append {name : String} (hn : name ∉ known.map Prod.fst) (columns : List String) :
    (BoundTable.named name).range (known ++ [(name, columns)]) = ⟨name, some columns⟩ := by
  have hl : known.lookup name = none := by
    apply List.lookup_eq_none_iff.mpr
    intro x hx
    have hne : name ≠ x.1 := fun he => hn (he ▸ List.mem_map_of_mem hx)
    simpa using hne
  simp [BoundTable.range, BoundTable.named, BoundTable.qualifier, List.lookup_append, hl]

theorem named_scoped {name : String} (hn : name ∈ known.map Prod.fst) :
    (Source.table (.named name)).Scoped stem known := fun _ => ⟨rfl, hn⟩

theorem labels_items (columns : List Column) :
    labels (columns.map Column.item) = columns.map Column.name := by
  induction columns with
  | nil => rfl
  | cons c columns ih => simpa [labels, Column.item, Item.labelled] using ih

theorem query_scoped {r : Relation} (hs : r.source.Scoped stem known)
    (hq : r.source.qualifiers.Nodup)
    (hc : ∀ c ∈ r.outputs ++ r.links, c.term.Within (r.source.ranges known))
    (he : ∀ e ∈ r.conditions, e.Within (r.source.ranges known)) {node : Node} {query : Select}
    (h : r.query node = .ok query) : query.Scoped stem known := by
  rw [(Relation.query_ok h).2]
  refine ⟨hs, by rwa [Source.ranges_qualifier], ?_, ?_⟩
  · intro item hi
    obtain ⟨c, hm, rfl⟩ := List.mem_map.mp hi
    exact hc c hm
  · intro condition hi
    simp only [Option.mem_def] at hi
    split at hi
    · cases hi
    · cases hi
      exact Term.within_all he

end

namespace Recursion

variable {stem : String} {known : Known} (r : Recursion)

theorem anchor_scoped (hk : ∀ x ∈ known, Reserved stem x.1)
    (hv : ¬Reserved stem r.vertices.table.name)
    (hp : (Source.table r.link.parent).Scoped stem known)
    (hc : (r.link.parent.range known).Has r.link.column)
    (hne : r.vertices.qualifier ≠ r.linkLabel) : r.anchor.Scoped stem known := by
  have hvertices := plain_table hk hv
  have hlinks : r.parentLinks.Scoped stem known := by
    refine ⟨hp, by simp [parentLinks, Source.ranges], ?_, by simp [parentLinks]⟩
    intro item hi
    rw [List.mem_singleton.mp hi]
    exact Term.within_column (r.link.parent.range known) (by simp [parentLinks, Source.ranges]) hc
  have hranges : r.anchor.source.ranges known =
      [Range.ofQualifier r.vertices.qualifier, ⟨r.linkLabel, some [linkName]⟩] := by
    simp [anchor, Source.ranges, range_of_not_reserved hk hv, Select.toSource, parentLinks, labels,
      Item.labelled]
  have hbase : r.base.Within (r.anchor.source.ranges known) := by
    rw [hranges]
    exact Term.within_column (Range.ofQualifier r.vertices.qualifier) (by simp)
      (by simp [Range.Has, Range.ofQualifier])
  have hlink : (Term.column (some r.linkLabel) linkName).Within (r.anchor.source.ranges known) := by
    rw [hranges]
    exact Term.within_column ⟨r.linkLabel, some [linkName]⟩ (by simp) (by simp [Range.Has])
  refine ⟨⟨hvertices.1, hlinks, ?_⟩, ?_, ?_, by simp [anchor]⟩
  · intro c hc
    rcases List.mem_append.mp hc with hc | hc
    · exact hbase c hc
    · exact hlink c hc
  · rw [hranges]
    simpa [Range.ofQualifier] using hne
  · intro item hi c hc
    have hsub : item.term.columns ⊆ r.base.columns := by
      simp only [anchor, projection, List.mem_cons, List.not_mem_nil, or_false] at hi
      rcases hi with rfl | rfl | rfl | rfl <;>
        simp [Item.labelled, Term.columns, Term.columnsEach, Term.int, delimiter, Term.text, onPath]
    exact hbase c (hsub hc)

/-- The four columns of the recursion. -/
def columnNames : List String :=
  [r.track.source, r.track.sink, r.settings.depthColumn, r.settings.pathColumn]

theorem step_scoped (hk : ∀ x ∈ known, Reserved stem x.1) (he : ¬Reserved stem r.edges.table.name)
    (hp : (Source.table r.previous).Scoped stem known)
    (hc : ∀ name ∈ r.columnNames, (r.previous.range known).Has name)
    (hne : r.edges.qualifier ≠ r.previous.qualifier) : r.step.Scoped stem known := by
  have hranges : r.step.source.ranges known =
      [Range.ofQualifier r.edges.qualifier, r.previous.range known] := by
    simp [step, Source.ranges, range_of_not_reserved hk he]
  have hedges : ∀ name, (r.edges.column name).Within (r.step.source.ranges known) := by
    intro name
    rw [hranges]
    exact Term.within_column (Range.ofQualifier r.edges.qualifier) (by simp)
      (by simp [Range.Has, Range.ofQualifier])
  have hprevious : ∀ name ∈ r.columnNames,
      (r.previous.column name).Within (r.step.source.ranges known) := by
    intro name hn
    rw [hranges]
    exact Term.within_column (r.previous.range known) (by simp) (hc name hn)
  have hall : ∀ e : Term, (∀ c ∈ e.columns, (∃ name, c ∈ (r.edges.column name).columns) ∨
      ∃ name ∈ r.columnNames, c ∈ (r.previous.column name).columns) →
      e.Within (r.step.source.ranges known) := by
    intro e h c hm
    rcases h c hm with ⟨name, hcol⟩ | ⟨name, hn, hcol⟩
    · exact hedges name c hcol
    · exact hprevious name hn c hcol
  refine ⟨⟨(plain_table hk he).1, hp, hall _ ?_⟩, ?_, ?_, ?_⟩
  · simp [Term.equal, Term.columns, BoundTable.column, columnNames]
  · rw [hranges]
    simpa [Range.ofQualifier, BoundTable.range] using hne
  · intro item hi
    apply hall
    simp only [step, projection, List.mem_cons, List.not_mem_nil, or_false] at hi
    rcases hi with rfl | rfl | rfl | rfl <;>
      simp [Item.labelled, Term.columns, Term.columnsEach, Term.int, delimiter, Term.text, onPath,
        next, BoundTable.column, columnNames]
  · intro condition hi
    cases hi
    apply hall
    simp [withinDepth, unvisited, Term.columns, Term.columnsEach, Term.int, Term.text, onPath, next,
      BoundTable.column, columnNames]

end Recursion

/-- The table of a group that a recursion has been joined to. -/
theorem enter_scoped {stem : String} {known : Known} {collapsed : Relation} {recursion : Recursion}
    (hc : collapsed.Rooted stem known) (hd : collapsed.source.qualifiers.Nodup)
    (hv : recursion.vertices = collapsed.table)
    (hp : (Source.table recursion.previous).Scoped stem known)
    (hm : ∀ name ∈ recursion.columnNames, (recursion.previous.range known).Has name)
    (hn : recursion.previous.qualifier ∉ collapsed.source.qualifiers) {node : Node} {back : String}
    {query : Select} (hq : (collapsed.enter recursion back).query node = .ok query) :
    query.Scoped stem known := by
  have hranges : (collapsed.enter recursion back).source.ranges known =
      collapsed.source.qualifiers.map Range.ofQualifier ++ [recursion.previous.range known] := by
    rw [← hc.plain.2]
    rfl
  have hown : ∀ e : Term, e.QualifiedBy collapsed.source.qualifiers →
      e.Within ((collapsed.enter recursion back).source.ranges known) := by
    intro e he
    rw [hranges]
    exact (Term.within_of_qualifiedBy he).mono (List.subset_append_left _ _)
  have hcolumn : ∀ name ∈ recursion.columnNames, (recursion.previous.column name).Within
      ((collapsed.enter recursion back).source.ranges known) := by
    intro name hname
    rw [hranges]
    exact Term.within_column (recursion.previous.range known) (by simp) (hm name hname)
  have hbase : recursion.base.QualifiedBy collapsed.source.qualifiers := by
    rw [Recursion.base, hv]
    exact (column_qualifiedBy collapsed.table _).mono (by simpa using hc.table)
  have hsource : (collapsed.enter recursion back).source.Scoped stem known := by
    refine ⟨hc.plain.1, hp, ?_⟩
    intro c hcol
    rcases List.mem_append.mp hcol with hcol | hcol
    · exact hown recursion.base hbase c hcol
    · exact hcolumn recursion.track.source (by simp [Recursion.columnNames]) c hcol
  refine query_scoped hsource ?_ ?_ (fun e he => hown e (hc.conditions e he)) hq
  · refine List.nodup_append.mpr ⟨hd, by simp [Source.qualifiers], ?_⟩
    intro p hmem q hprevious he
    exact hn (List.mem_singleton.mp hprevious ▸ he ▸ hmem)
  · intro c hcol
    rcases List.mem_append.mp hcol with hcol | hcol
    · exact hown c.term (hc.outputs c hcol)
    · rcases List.mem_append.mp hcol with hcol | hcol
      · exact hown c.term (hc.links c hcol)
      · rw [List.mem_singleton.mp hcol]
        exact hcolumn recursion.track.sink (by simp [Recursion.columnNames])

end GraphPlan.Sql
