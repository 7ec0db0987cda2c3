import GraphPlan.Proofs.Emission.Trunk
import GraphPlan.Proofs.Sql.Scope
import Mathlib.Data.List.Perm.Basic

namespace GraphPlan.Sql

/-- The condition of each clause is about the parent and the tables that have been joined by then. -/
def ClausesScoped : List String → List JoinClause → Prop
  | _, [] => True
  | qualifiers, clause :: clauses =>
    clause.on.QualifiedBy (qualifiers ++ [clause.table.qualifier]) ∧
      ClausesScoped (qualifiers ++ [clause.table.qualifier]) clauses

/-- What a catalog promises for all questions. -/
structure Catalog.Orderly (catalog : Catalog) (stem : String) : Prop where
  column : ∀ selection table, (catalog.column selection table).QualifiedBy [table.qualifier]
  condition : ∀ node predicate table term, catalog.condition node predicate table = .ok term →
    term.QualifiedBy [table.qualifier]
  presence : ∀ node table, (catalog.presence node table).QualifiedBy [table.qualifier]
  joins : ∀ parent child parentTable childTable,
    ClausesScoped [parentTable.qualifier] (catalog.joins parent child parentTable childTable)
  table : ∀ relation, ¬Reserved stem (catalog.table relation).name
  tableNamed : ∀ name, ¬Reserved stem (catalog.tableNamed name).name
  between : ∀ parent child parentTable childTable,
    ∀ clause ∈ catalog.joins parent child parentTable childTable, clause.table ≠ childTable →
      ¬Reserved stem clause.table.table.name ∧ ¬Reserved stem clause.table.qualifier

namespace BoundBranch

/-- The tables that are joined on the way from a node to a child, by their qualifiers. -/
def between (catalog : Catalog) (parent : Node) (parentTable : BoundTable) (child : BoundBranch) :
    List String :=
  ((catalog.joins parent child.node parentTable child.table).filter
    (·.table ≠ child.table)).map (·.table.qualifier)

mutual

/-- The tables that are joined on the way to any node, by their qualifiers. -/
def waypoints (catalog : Catalog) : BoundBranch → List String
  | mk node table _ children =>
    children.flatMap (between catalog node table) ++ waypointsEach catalog children

def waypointsEach (catalog : Catalog) : List BoundBranch → List String
  | [] => []
  | b :: bs => waypoints catalog b ++ waypointsEach catalog bs

end

/-- No two tables on the way have one qualifier, and none has that of a node. -/
def Apart (catalog : Catalog) (b : BoundBranch) : Prop :=
  (b.waypoints catalog).Nodup ∧ ∀ q ∈ b.waypoints catalog, q ∉ b.aliases

instance (catalog : Catalog) (b : BoundBranch) : Decidable (b.Apart catalog) :=
  inferInstanceAs (Decidable (_ ∧ _))

end BoundBranch

/-- A FROM clause that only has tables of the database. -/
def Source.Plain (stem : String) (known : Known) (s : Source) : Prop :=
  s.Scoped stem known ∧ s.ranges known = s.qualifiers.map Range.ofQualifier

/-- A relation over tables of the database, with all that it selects and asks for in scope. -/
structure Relation.Rooted (stem : String) (known : Known) (r : Relation) : Prop where
  plain : r.source.Plain stem known
  table : r.table.qualifier ∈ r.source.qualifiers
  outputs : ∀ c ∈ r.outputs, c.term.QualifiedBy r.source.qualifiers
  conditions : ∀ e ∈ r.conditions, e.QualifiedBy r.source.qualifiers
  links : ∀ c ∈ r.links, c.term.QualifiedBy r.source.qualifiers

section

variable {stem : String} {known : Known} {setup : Setup}

theorem range_of_not_reserved (hk : ∀ x ∈ known, Reserved stem x.1) {t : BoundTable}
    (ht : ¬Reserved stem t.table.name) : t.range known = Range.ofQualifier t.qualifier := by
  have h := @BoundTable.range_append stem [] known t (fun hr => absurd hr ht) hk
  rw [List.nil_append] at h
  rw [h]
  simp [BoundTable.range, Range.ofQualifier]

theorem Source.Plain.join {left right : Source} (hl : left.Plain stem known)
    (hr : right.Plain stem known) {on : Term}
    (ho : on.QualifiedBy (left.qualifiers ++ right.qualifiers)) (kind : JoinKind) :
    (Source.join kind left right on).Plain stem known := by
  have hrange : left.ranges known ++ right.ranges known =
      (left.qualifiers ++ right.qualifiers).map Range.ofQualifier := by
    rw [hl.2, hr.2, List.map_append]
  exact ⟨⟨hl.1, hr.1, hrange ▸ Term.within_of_qualifiedBy ho⟩, hrange⟩

theorem plain_table (hk : ∀ x ∈ known, Reserved stem x.1) {t : BoundTable}
    (ht : ¬Reserved stem t.table.name) : (Source.table t).Plain stem known := by
  refine ⟨fun hr => absurd hr ht, ?_⟩
  simp [Source.ranges, Source.qualifiers, range_of_not_reserved hk ht]

theorem ofNode_rooted (ho : setup.catalog.Orderly stem) (hk : ∀ x ∈ known, Reserved stem x.1)
    {node : Node} {table : BoundTable} (ht : ¬Reserved stem table.table.name) {r : Relation}
    (h : Relation.ofNode setup node table = .ok r) :
    r.Rooted stem known ∧ r.table = table ∧ r.source = .table table := by
  obtain ⟨conditions, hc, hr⟩ := bind_ok h
  cases hr
  refine ⟨⟨plain_table hk ht, by simp [Source.qualifiers], ?_, ?_, by simp⟩, rfl, rfl⟩
  · intro c hc
    obtain ⟨selection, _, rfl⟩ := List.mem_map.mp hc
    exact ho.column selection table
  · intro e he
    obtain ⟨predicate, _, hp⟩ := exists_of_mem_mapM hc he
    exact ho.condition node predicate table e hp

/-- A join brings the qualifiers of both sides into scope. -/
theorem subset_join {left right : Source} {qs : List String} {q : String} (kind : JoinKind)
    (on : Term) (hl : qs ⊆ left.qualifiers) (hr : q ∈ right.qualifiers) :
    qs ++ [q] ⊆ (Source.join kind left right on).qualifiers := by
  intro q' hm
  rcases List.mem_append.mp hm with hm | hm
  · exact List.mem_append_left _ (hl hm)
  · exact List.mem_append_right _ (List.mem_singleton.mp hm ▸ hr)

/-- The tables on the way are joined one by one, and what the child has grown to takes the place of its
own table. -/
theorem joinClauses_plain (hk : ∀ x ∈ known, Reserved stem x.1) {kind : JoinKind}
    {parent child : Node} {below : Relation} (hb : below.source.Plain stem known)
    (ht : below.table.qualifier ∈ below.source.qualifiers) {clauses : List JoinClause}
    (hn : ∀ c ∈ clauses, c.table ≠ below.table → ¬Reserved stem c.table.table.name)
    {qs : List String} (hc : ClausesScoped qs clauses) {pending : Option Source}
    (hp : ∀ s ∈ pending, s = below.source) {left source : Source} (hq : qs ⊆ left.qualifiers)
    (hl : left.Plain stem known)
    (h : joinClauses kind parent child below clauses pending left = .ok source) :
    source.Plain stem known ∧
    source.qualifiers.Perm (left.qualifiers ++ (pending.elim [] Source.qualifiers ++
      (clauses.filter (·.table ≠ below.table)).map (·.table.qualifier))) := by
  induction clauses generalizing pending left qs with
  | nil =>
    cases pending with
    | none =>
      cases h
      exact ⟨hl, by simp⟩
    | some s => cases h
  | cons clause clauses ih =>
    have hn' : ∀ c ∈ clauses, c.table ≠ below.table → ¬Reserved stem c.table.table.name :=
      fun c hc => hn c (List.mem_cons_of_mem _ hc)
    simp only [joinClauses] at h
    split at h
    · next he =>
      cases pending with
      | none => cases h
      | some s =>
        cases hp s rfl
        have hsub := subset_join kind clause.on hq (he ▸ ht)
        have hj := hl.join hb (hc.1.mono hsub) kind
        obtain ⟨hs, hperm⟩ := ih hn' hc.2 (by simp) hsub hj h
        refine ⟨hs, hperm.trans ?_⟩
        simp [Source.qualifiers, he]
    · next he =>
      have htable : clause.table.qualifier ∈ (Source.table clause.table).qualifiers :=
        List.mem_singleton_self _
      have hsub := subset_join kind clause.on hq htable
      have hj := hl.join (plain_table hk (hn clause List.mem_cons_self he)) (hc.1.mono hsub) kind
      obtain ⟨hs, hperm⟩ := ih hn' hc.2 hp hsub hj h
      refine ⟨hs, hperm.trans ?_⟩
      simp only [Source.qualifiers, List.append_assoc]
      refine List.Perm.append_left _ ?_
      simp only [he, List.filter_cons_of_pos, ne_eq, List.map_cons,
        decide_not, decide_false, Bool.not_false, List.singleton_append]
      exact List.perm_middle.symm

theorem linkTo_rooted {r linked : Relation} (hr : r.Rooted stem known)
    {hanging : List (Node × String)} (h : r.linkTo setup hanging = .ok linked) :
    linked.Rooted stem known ∧ linked.table = r.table ∧ linked.source = r.source := by
  obtain ⟨links, rfl, hl⟩ := linkTo_ok h
  refine ⟨⟨hr.plain, hr.table, hr.outputs, hr.conditions, ?_⟩, rfl, rfl⟩
  intro c hc
  rcases List.mem_append.mp hc with hc | hc
  · exact hr.links c hc
  · obtain ⟨name, he⟩ := hl c hc
    rw [he]
    exact (column_qualifiedBy r.table name).mono (by simpa using hr.table)

theorem guarded_qualifiedBy (ho : setup.catalog.Orderly stem) {child : Node} {below : Relation}
    (hb : below.Rooted stem known) {e : Term} (he : e ∈ guarded setup child below) :
    e.QualifiedBy below.source.qualifiers := by
  unfold guarded at he
  split at he
  · rw [List.mem_singleton.mp he]
    intro c hc
    simp only [Term.columns, Term.columnsEach, List.append_nil, List.mem_append] at hc
    rcases hc with hc | hc
    · exact (ho.presence child below.table).mono (by simpa using hb.table) c hc
    · obtain ⟨f, hf, hcf⟩ := Term.mem_columns_all.mp hc
      exact hb.conditions f hf c hcf
  · exact hb.conditions e he

theorem absorb_rooted (ho : setup.catalog.Orderly stem) (hk : ∀ x ∈ known, Reserved stem x.1)
    {parent child : Node} {r below joined : Relation} (hr : r.Rooted stem known)
    (hb : below.Rooted stem known) (h : absorb setup parent r child below = .ok joined) :
    joined.Rooted stem known ∧ joined.table = r.table ∧
    joined.source.qualifiers.Perm (r.source.qualifiers ++ (below.source.qualifiers ++
      ((setup.catalog.joins parent child r.table below.table).filter
        (·.table ≠ below.table)).map (·.table.qualifier))) := by
  obtain ⟨source, hs, rfl⟩ := absorb_ok h
  obtain ⟨hp, hperm⟩ := joinClauses_plain hk hb.plain hb.table
    (fun c hc hne => (ho.between parent child r.table below.table c hc hne).1)
    (ho.joins parent child r.table below.table) (by simp) (by simpa using hr.table) hr.plain hs
  have hleft : r.source.qualifiers ⊆ source.qualifiers := by
    intro q hq
    exact hperm.mem_iff.mpr (List.mem_append_left _ hq)
  have hbelow : below.source.qualifiers ⊆ source.qualifiers := by
    intro q hq
    exact hperm.mem_iff.mpr (List.mem_append_right _ (List.mem_append_left _ hq))
  refine ⟨⟨hp, hleft hr.table, ?_, ?_, ?_⟩, rfl, hperm⟩
  · intro c hc
    rcases List.mem_append.mp hc with hc | hc
    · exact (hr.outputs c hc).mono hleft
    · exact (hb.outputs c hc).mono hbelow
  · intro e he
    rcases List.mem_append.mp he with he | he
    · exact (hr.conditions e he).mono hleft
    · exact (guarded_qualifiedBy ho hb he).mono hbelow
  · intro c hc
    rcases List.mem_append.mp hc with hc | hc
    · exact (hr.links c hc).mono hleft
    · exact (hb.links c hc).mono hbelow

/-- What the scope of a collapsed node is made of. -/
def BoundBranch.GrownTo (stem : String) (known : Known) (catalog : Catalog) (b : BoundBranch)
    (r : Relation) : Prop :=
  r.Rooted stem known ∧ r.table = b.table ∧
    r.source.qualifiers.Perm (b.aliases ++ b.waypoints catalog)

theorem absorbAll_rooted (ho : setup.catalog.Orderly stem) (hk : ∀ x ∈ known, Reserved stem x.1)
    {parent : Node} {children : List BoundBranch} {below : List (Node × Relation)}
    (hb : List.Forall₂ (fun b p => p.1 = b.node ∧ b.GrownTo stem known setup.catalog p.2) children
      below) {r joined : Relation} (hr : r.Rooted stem known)
    (h : absorbAll setup parent r below = .ok joined) :
    joined.Rooted stem known ∧ joined.table = r.table ∧
    joined.source.qualifiers.Perm (r.source.qualifiers ++
      (BoundBranch.aliasesEach children ++
        (children.flatMap (BoundBranch.between setup.catalog parent r.table) ++
          BoundBranch.waypointsEach setup.catalog children))) := by
  induction hb generalizing r with
  | nil =>
    cases h
    exact ⟨hr, rfl, by simp [BoundBranch.aliasesEach, BoundBranch.waypointsEach]⟩
  | @cons b p bs ps hp _ ih =>
    obtain ⟨next, ha, h⟩ := bind_ok h
    obtain ⟨hnode, hg, htable, hq⟩ := hp
    obtain ⟨hnext, hnt, hnq⟩ := absorb_rooted ho hk hr hg ha
    obtain ⟨hj, hjt, hjq⟩ := ih hnext h
    refine ⟨hj, hjt.trans hnt, hjq.trans ?_⟩
    rw [hnt]
    have hbetween : ((setup.catalog.joins parent p.1 r.table p.2.table).filter
        (·.table ≠ p.2.table)).map (·.table.qualifier) =
        BoundBranch.between setup.catalog parent r.table b := by
      rw [hnode, htable]
      rfl
    rw [hbetween] at hnq
    simp only [BoundBranch.aliasesEach, BoundBranch.waypointsEach, List.flatMap_cons]
    refine (hnq.append_right _).trans ?_
    rw [List.append_assoc]
    refine List.Perm.append_left _ ?_
    refine ((hq.append_right _).append_right _).trans ?_
    rw [List.perm_iff_count]
    intro q
    simp only [List.count_append]
    omega

mutual

theorem relation_grown (ho : setup.catalog.Orderly stem) (hk : ∀ x ∈ known, Reserved stem x.1)
    (b : Branch) (aliases links : Nat) {r : Relation}
    (h : (b.bind setup.catalog aliases links).relation setup = .ok r) :
    (b.bind setup.catalog aliases links).GrownTo stem known setup.catalog r := by
  cases b with
  | mk node hanging children =>
    obtain ⟨below, hb, h⟩ := bind_ok h
    obtain ⟨own, hn, h⟩ := bind_ok h
    obtain ⟨linked, hl, h⟩ := bind_ok h
    obtain ⟨hown, hot, hos⟩ := ofNode_rooted ho hk (ho.table node.relation) hn
    obtain ⟨hlinked, hlt, hls⟩ := linkTo_rooted hown hl
    obtain ⟨hr, ht, hq⟩ :=
      absorbAll_rooted ho hk (relations_grown ho hk children aliases links hb) hlinked h
    rw [hlt, hot, hls, hos] at hq
    exact ⟨hr, (ht.trans hlt).trans hot, hq⟩

theorem relations_grown (ho : setup.catalog.Orderly stem) (hk : ∀ x ∈ known, Reserved stem x.1)
    (bs : List Branch) (aliases links : Nat) {below : List (Node × Relation)}
    (h : BoundBranch.relations setup (Branch.bindAll setup.catalog aliases links bs) = .ok below) :
    List.Forall₂ (fun b p => p.1 = b.node ∧ b.GrownTo stem known setup.catalog p.2)
      (Branch.bindAll setup.catalog aliases links bs) below := by
  cases bs with
  | nil =>
    cases h
    exact .nil
  | cons b bs =>
    obtain ⟨r, hr, h⟩ := bind_ok h
    obtain ⟨rs, hrs, h⟩ := bind_ok h
    cases h
    exact .cons ⟨rfl, relation_grown ho hk b aliases links hr⟩
      (relations_grown ho hk bs (aliases + b.size) (links + b.linkCount) hrs)

end

end

namespace BoundBranch

mutual

theorem mem_waypoints {catalog : Catalog} {b : BoundBranch} {q : String}
    (h : q ∈ b.waypoints catalog) :
    ∃ parent child parentTable childTable,
      ∃ clause ∈ catalog.joins parent child parentTable childTable,
        clause.table ≠ childTable ∧ q = clause.table.qualifier := by
  cases b with
  | mk node table hanging children =>
    rcases List.mem_append.mp h with h | h
    · obtain ⟨c, _, h⟩ := List.mem_flatMap.mp h
      obtain ⟨clause, hc, rfl⟩ := List.mem_map.mp h
      obtain ⟨hm, hne⟩ := List.mem_filter.mp hc
      exact ⟨node, c.node, table, c.table, clause, hm, by simpa using hne, rfl⟩
    · exact mem_waypointsEach h

theorem mem_waypointsEach {catalog : Catalog} {bs : List BoundBranch} {q : String}
    (h : q ∈ waypointsEach catalog bs) :
    ∃ parent child parentTable childTable,
      ∃ clause ∈ catalog.joins parent child parentTable childTable,
        clause.table ≠ childTable ∧ q = clause.table.qualifier := by
  cases bs with
  | nil => cases h
  | cons b bs =>
    rcases List.mem_append.mp h with h | h
    · exact mem_waypoints h
    · exact mem_waypointsEach h

end

end BoundBranch

/-- The FROM clause of a group has no qualifier twice, and no generated name. -/
theorem grown_distinct {setup : Setup} {stem : String} {known : Known} (ho : setup.catalog.Orderly stem) {b : Branch}
    {aliases links : Nat} {r : Relation}
    (hg : (b.bind setup.catalog aliases links).GrownTo stem known setup.catalog r)
    (ha : (b.bind setup.catalog aliases links).Apart setup.catalog) :
    r.source.qualifiers.Nodup ∧
      ∀ part n, numbered (stem ++ "_" ++ part) n ∉ r.source.qualifiers := by
  have hperm := hg.2.2
  constructor
  · refine hperm.nodup_iff.mpr (List.nodup_append.mpr
      ⟨Branch.nodup_aliases_bind setup.catalog b aliases links, ha.1, ?_⟩)
    intro p hp q hq he
    exact ha.2 q hq (he ▸ hp)
  · intro part n hm
    rcases List.mem_append.mp (hperm.mem_iff.mp hm) with hm | hm
    · obtain ⟨relation, m, he, _, _⟩ := Branch.mem_aliases_bind setup.catalog b aliases links hm
      exact numbered_ne_of_not_reserved (ho.table relation) m n he.symm
    · obtain ⟨parent, child, parentTable, childTable, clause, hc, hne, he⟩ :=
        BoundBranch.mem_waypoints hm
      apply (ho.between parent child parentTable childTable clause hc hne).2
      rw [← he]
      exact reserved_numbered stem part n

theorem edges_not_reserved {setup : Setup} {stem : String} (ho : setup.catalog.Orderly stem) (relation : String)
    (direction : Direction) (edge : Edge) :
    ¬Reserved stem (Track.ofEdge setup.catalog relation direction edge).edges.name := by
  cases edge <;> cases direction <;>
    simp only [Track.ofEdge, Track.turned] <;> first | exact ho.table _ | exact ho.tableNamed _

end GraphPlan.Sql
