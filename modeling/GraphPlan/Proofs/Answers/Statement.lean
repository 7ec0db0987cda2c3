import GraphPlan.Proofs.Answers.Trunk
import GraphPlan.Proofs.Emission.Derivation
import GraphPlan.Proofs.QueryTree.Below
import GraphPlan.Proofs.Sql.Dialect

namespace GraphPlan.Sql

/-- A row under names of their own has each value under its name. -/
theorem get_of_nodup {columns : List Column} (hn : (columns.map Column.name).Nodup)
    (value : Column → Constant) {c : Column} (hc : c ∈ columns) :
    Row.get (columns.map fun c => (c.name, value c)) c.name = value c := by
  induction columns with
  | nil => cases hc
  | cons c' columns ih =>
    rw [List.map_cons, List.nodup_cons] at hn
    rw [List.map_cons, Row.get_cons]
    rcases List.mem_cons.mp hc with rfl | hc
    · simp
    · have hne : c.name ≠ c'.name := fun heq => hn.1 (heq ▸ List.mem_map_of_mem hc)
      rw [if_neg hne]
      exact ih hn.2 hc

section

variable {d : Dialect} {db : Database}

/-- The rows of the query of a group. -/
theorem mem_query_rows {r : Relation} {node : Node} {query : Select} (h : r.query node = .ok query)
    {row : Row} :
    row ∈ query.rows d db ↔ ∃ f ∈ r.source.frames d db, (∀ e ∈ r.conditions, e.Holds d f) ∧
      row = (r.outputs ++ r.links).map fun c => (c.name, c.term.eval d f) := by
  obtain ⟨_, rfl⟩ := Relation.query_ok h
  have hfilter : ∀ f, (∀ e ∈ (if r.conditions.isEmpty then none else some (Term.all r.conditions)),
      e.Holds d f) ↔ ∀ e ∈ r.conditions, e.Holds d f := by
    intro f
    split
    · next hempty => simp [List.isEmpty_iff.mp hempty]
    · rw [← Term.holds_all]
      simp
  simp only [Select.rows, mem_selected, hfilter, List.map_map]
  rfl

/-- The final query takes the outputs of a group from its table. -/
theorem mem_final_rows {r : Relation} {name : String} {body : Select}
    (h : (r.rebind (.named name)).finalQuery = .ok body) {rows : List Row} {row : Row} :
    row ∈ body.rows d (db.put name rows) ↔
      ∃ x ∈ rows, row = r.outputs.map fun c => (c.name, x.get c.name) := by
  have hbody : body = ⟨true, (r.rebind (.named name)).outputs.map Column.item,
      .table (.named name), none⟩ := by
    unfold Relation.finalQuery at h
    split at h
    · cases h
    · exact (Except.ok.inj h).symm
  have hput : (db.put name rows) (BoundTable.named name).table = rows := by
    simp [Database.put, BoundTable.named]
  subst hbody
  simp only [Select.rows, mem_selected, Source.mem_frames_table, hput]
  constructor
  · rintro ⟨f, ⟨x, hx, rfl⟩, _, rfl⟩
    exact ⟨x, hx, by simp [Relation.rebind, Column.item, Item.labelled, Function.comp_def]⟩
  · rintro ⟨x, hx, rfl⟩
    exact ⟨_, ⟨x, hx, rfl⟩, by simp, by
      simp [Relation.rebind, Column.item, Item.labelled, Function.comp_def]⟩

theorem nodup_rows {s : Select} (h : s.distinct = true) : (s.rows d db).Nodup := by
  unfold Select.rows selected
  rw [h]
  exact List.nodup_dedup _

end

/-- A statement without recursions returns exactly the answers of its query, each once. Its nodes are those
of one group, under the aliases that the emission gives them. -/
theorem emit_answers {settings : Settings} {catalog : Catalog} {tree : QueryTree}
    {statement : Statement} (hc : catalog.Direct)
    (ht : ∀ e ∈ tree.entries, e.node.isRecursive = false)
    (h : emit settings catalog tree = .ok statement) :
    ∃ ordered, tree.ordered = .ok ordered ∧
      ∀ b, b = ordered.group.trunk.bind catalog 0 0 →
      ∀ d db, catalog.ShowsPresence d db →
        ∃ rows, statement.Yields d db rows ∧ rows.Nodup ∧
          ∀ row, row ∈ rows ↔ ∃ a, b.Solves d catalog db a ∧ b.Satisfies d catalog a ∧
            row = b.outputs d catalog a := by
  obtain ⟨_, combinator, ordered, _, hordered, hemit⟩ := emitTree_of_emit h
  obtain ⟨r, query, name, final, last, hr, hq, _, hemitted, hctes, hbody⟩ :=
    emitted_of_emitTree _ _ _ hemit
  rw [QueryTree.below_recursions_eq_nil ht hordered] at hemitted
  obtain ⟨rfl, rfl⟩ := hemitted.eq_of_nil
  refine ⟨ordered, hordered, ?_⟩
  rintro b rfl d db hp
  have hmeant : (ordered.group.trunk.bind catalog 0 0).MeantBy d catalog db r :=
    relation_meant hc hp ordered.group.trunk 0 0 hr
  refine ⟨statement.body.rows d (db.put name (query.rows d db)), ?_, ?_, ?_⟩
  · rw [Statement.Yields, hctes]
    exact .cte rfl (.body _ _)
  · apply nodup_rows
    unfold Relation.finalQuery at hbody
    split at hbody
    · cases hbody
    · rw [← Except.ok.inj hbody]
  · intro row
    have hnames := (nodup_of_firstRepeated (Relation.query_ok hq).1).1
    -- each output is found again under its name
    have hagain : ∀ f : Frame, (r.outputs.map fun c => (c.name,
        Row.get ((r.outputs ++ r.links).map fun c => (c.name, c.term.eval d f)) c.name)) =
        r.outputs.map fun c => (c.name, c.term.eval d f) := by
      intro f
      apply List.map_congr_left
      intro c hm
      rw [get_of_nodup hnames (fun c => c.term.eval d f) (List.mem_append_left _ hm)]
    rw [mem_final_rows hbody]
    constructor
    · rintro ⟨x, hx, rfl⟩
      obtain ⟨f, hf, hconditions, rfl⟩ := (mem_query_rows hq).mp hx
      obtain ⟨a, ha, rfl⟩ := (hmeant.frames f).mp hf
      have hshows := Frame.shows_frame a (ordered.group.trunk.bind catalog 0 0).aliases
      refine ⟨a, ha, (hmeant.conditions a _ ha hshows).mp hconditions, ?_⟩
      rw [hagain, hmeant.outputs a _ hshows]
    · rintro ⟨a, ha, hsatisfies, rfl⟩
      have hshows := Frame.shows_frame a (ordered.group.trunk.bind catalog 0 0).aliases
      refine ⟨_, (mem_query_rows hq).mpr ⟨_, (hmeant.frames _).mpr ⟨a, ha, rfl⟩,
        (hmeant.conditions a _ ha hshows).mpr hsatisfies, rfl⟩, ?_⟩
      rw [hagain, hmeant.outputs a _ hshows]

/-- Animals below their parents. -/
def litterCatalog : Catalog where
  table relation := ⟨some "zoo", relation⟩
  tableNamed name := ⟨some "zoo", name⟩
  edge _ := none
  joins _ _ parent child := [⟨child, .equal (parent.column "id") (child.column "parent_id")⟩]
  column selection table := table.column selection.field
  condition _ _ table := .ok (.isNotNull (table.column "name"))
  presence _ table := table.column "id"
  combinator := "union"

/-- An animal, a cub with a name that it may have, and a toy that the cub must have. -/
def litterTree : QueryTree :=
  (QueryTree.start (.root "Animal") "animal").after
    [.child 0 ((Location.root "Animal").descend "out_Cub") "animal" ⟨.outward, "cub", true, false⟩,
      .child 1 ((Location.root "Animal").descend "out_Toy") "toy" ⟨.outward, "toy", false, true⟩,
      .filter 1 (.localField "name"), .select 0 ⟨"name", "name"⟩, .select 2 ⟨"name", "toy_name"⟩]

/-- An animal with two cubs, one of them without a name, and toys for both. -/
def litter : Database := fun _ =>
  [[("id", .int 1), ("parent_id", .null), ("name", .text "Ada")],
    [("id", .int 2), ("parent_id", .int 1), ("name", .text "Bo")],
    [("id", .int 3), ("parent_id", .int 1), ("name", .null)],
    [("id", .int 4), ("parent_id", .int 2), ("name", .text "ball")],
    [("id", .int 5), ("parent_id", .int 3), ("name", .text "bell")]]

theorem litterCatalog_direct : litterCatalog.Direct where
  column selection table := column_qualifiedBy table selection.field
  condition node predicate table term h := by
    cases h
    exact column_qualifiedBy table "name"
  presence node table := ⟨"id", rfl⟩
  joins parent child parentTable childTable := by
    refine ⟨_, rfl, ?_⟩
    intro c hc
    have heq : c = (some parentTable.qualifier, "id") ∨ c = (some childTable.qualifier, "parent_id") := by
      simpa [Term.equal, BoundTable.column, Term.columns] using hc
    rcases heq with rfl | rfl <;> simp

theorem litter_shows : litterCatalog.ShowsPresence .plain litter := by
  intro node table _ row hrow
  simp only [litter, List.mem_cons, List.not_mem_nil, or_false] at hrow
  rcases hrow with rfl | rfl | rfl | rfl | rfl <;> simp [litterCatalog]

theorem emit_answers_litter : ∃ statement ordered rows, litterTree.size = 3 ∧
    emit .standard litterCatalog litterTree = .ok statement ∧ litterTree.ordered = .ok ordered ∧
    statement.Yields .plain litter rows ∧ rows.Nodup ∧
    ∀ row, row ∈ rows ↔
      ∃ a, (ordered.group.trunk.bind litterCatalog 0 0).Solves .plain litterCatalog litter a ∧
        (ordered.group.trunk.bind litterCatalog 0 0).Satisfies .plain litterCatalog a ∧
        row = (ordered.group.trunk.bind litterCatalog 0 0).outputs .plain litterCatalog a := by
  have hctes : (emit .standard litterCatalog litterTree).toOption.map (·.ctes.length) = some 1 := by
    decide +kernel
  have hplain : ∀ e ∈ litterTree.entries, e.node.isRecursive = false := by decide +kernel
  obtain ⟨statement, hemit, -⟩ := exists_statement hctes
  obtain ⟨ordered, hordered, hanswers⟩ := emit_answers litterCatalog_direct hplain hemit
  obtain ⟨rows, hrows⟩ := hanswers _ rfl .plain litter litter_shows
  exact ⟨statement, ordered, rows, by decide +kernel, hemit, hordered, hrows⟩

end GraphPlan.Sql
