import GraphPlan.Proofs.Emission.TableScope
import GraphPlan.Proofs.QueryTree.Arena

namespace GraphPlan.Sql

namespace Supply

def known (s : Supply) : Known := s.ctes.map Cte.signature

/-- The tables made so far are in scope and carry the numbers given out so far. -/
structure Sound (stem : String) (s : Supply) : Prop where
  inScope : CtesScoped stem [] s.ctes
  names : ∀ c ∈ s.ctes, ∃ part n, c.name = numbered (stem ++ "_" ++ part) n ∧ n ≤ s.tables

variable {stem : String} {s : Supply}

theorem Sound.reserved (h : s.Sound stem) : ∀ x ∈ s.known, Reserved stem x.1 := by
  intro x hx
  obtain ⟨c, hc, rfl⟩ := List.mem_map.mp hx
  obtain ⟨part, n, hn, _⟩ := h.names c hc
  rw [show c.signature.1 = c.name from rfl, hn]
  exact reserved_numbered stem part n

theorem Sound.fresh (h : s.Sound stem) {part : String} {n : Nat} (hn : s.tables < n) :
    numbered (stem ++ "_" ++ part) n ∉ s.known.map Prod.fst := by
  intro hm
  obtain ⟨x, hx, he⟩ := List.mem_map.mp hm
  obtain ⟨c, hc, rfl⟩ := List.mem_map.mp hx
  obtain ⟨part', m, hname, hle⟩ := h.names c hc
  have hmn := (numbered_inj (hname.symm.trans he)).2
  omega

theorem Sound.add (h : s.Sound stem) {c : Cte} (hc : c.Scoped stem s.known) {part : String}
    (hn : c.name = numbered (stem ++ "_" ++ part) (s.tables + 1)) : (s.add c).Sound stem := by
  refine ⟨ctesScoped_append.mpr ⟨h.inScope, ?_, trivial⟩, ?_⟩
  · exact hc
  · intro d hd
    rcases List.mem_append.mp hd with hd | hd
    · obtain ⟨part', n, hname, hle⟩ := h.names d hd
      exact ⟨part', n, hname, Nat.le_succ_of_le hle⟩
    · rw [List.mem_singleton.mp hd]
      exact ⟨part, s.tables + 1, hn, Nat.le_refl _⟩

theorem Sound.advance (h : s.Sound stem) (a l : Nat) : (s.advance a l).Sound stem :=
  ⟨h.inScope, h.names⟩

@[simp] theorem known_add (s : Supply) (c : Cte) : (s.add c).known = s.known ++ [c.signature] := by
  simp [known, Supply.add]

end Supply

/-- A relation over generated tables, the numbers of which lie in a range, with its outputs in scope and
some columns of its own table. -/
structure Relation.Settled (stem : String) (known : Known) (low high : Nat) (columns : List String)
    (r : Relation) : Prop where
  inScope : r.source.Scoped stem known
  distinct : r.source.qualifiers.Nodup
  numbers : ∀ q ∈ r.source.qualifiers,
    ∃ part n, q = numbered (stem ++ "_" ++ part) n ∧ low < n ∧ n ≤ high
  table : r.table.range known ∈ r.source.ranges known
  tableInScope : (Source.table r.table).Scoped stem known
  columns : ∀ name ∈ columns, (r.table.range known).Has name
  outputs : ∀ c ∈ r.outputs, c.term.Within (r.source.ranges known)

namespace Relation

variable {stem : String} {known : Known} {low mid high : Nat} {columns : List String}

theorem Settled.append {r : Relation} (h : r.Settled stem known low mid columns) {more : Known}
    (hm : ∀ x ∈ more, Reserved stem x.1) (hle : mid ≤ high) :
    r.Settled stem (known ++ more) low high columns := by
  have hranges := Source.ranges_append h.inScope hm
  have htable : r.table.range (known ++ more) = r.table.range known :=
    BoundTable.range_append h.tableInScope hm
  refine ⟨Source.scoped_append h.inScope hm, h.distinct, ?_, ?_, Source.scoped_append h.tableInScope hm,
    ?_, ?_⟩
  · intro q hq
    obtain ⟨part, n, he, hl, hh⟩ := h.numbers q hq
    exact ⟨part, n, he, hl, by omega⟩
  · rw [hranges, htable]
    exact h.table
  · rw [htable]
    exact h.columns
  · rw [hranges]
    exact h.outputs

theorem Settled.low_lt {r : Relation} (h : r.Settled stem known low high columns) : low < high := by
  have hq : r.table.qualifier ∈ r.source.qualifiers := by
    rw [← Source.ranges_qualifier known]
    exact List.mem_map_of_mem h.table
  obtain ⟨_, n, _, hl, hh⟩ := h.numbers _ hq
  omega

/-- Relations whose tables are numbered apart can be joined through a column of each. -/
theorem Settled.joinRecursion {r below : Relation} {columns' : List String}
    (hr : r.Settled stem known low mid columns) (hb : below.Settled stem known mid high columns')
    {label back : String} (hl : label ∈ columns) (hk : back ∈ columns')
    (node : Node) : (r.joinRecursion label node below back).Settled stem known low high columns := by
  have hon : (Term.equal (r.table.column label) (below.table.column back)).Within
      (r.source.ranges known ++ below.source.ranges known) := by
    intro c hc
    rcases List.mem_append.mp hc with hc | hc
    · exact Term.within_column (r.table.range known) (List.mem_append_left _ hr.table)
        (hr.columns label hl) c hc
    · exact Term.within_column (below.table.range known) (List.mem_append_right _ hb.table)
        (hb.columns back hk) c hc
  have hlow := hr.low_lt
  have hmid := hb.low_lt
  refine ⟨⟨hr.inScope, hb.inScope, hon⟩, ?_, ?_, List.mem_append_left _ hr.table, hr.tableInScope,
    hr.columns, ?_⟩
  · refine List.nodup_append.mpr ⟨hr.distinct, hb.distinct, ?_⟩
    intro p hp q hq he
    obtain ⟨_, m, rfl, _, hm⟩ := hr.numbers p hp
    obtain ⟨_, n, rfl, hn, _⟩ := hb.numbers q hq
    have hmn := (numbered_inj he).2
    omega
  · intro q hq
    rcases List.mem_append.mp hq with hq | hq
    · obtain ⟨part, n, he, hlo, hhi⟩ := hr.numbers q hq
      exact ⟨part, n, he, hlo, by omega⟩
    · obtain ⟨part, n, he, hlo, hhi⟩ := hb.numbers q hq
      exact ⟨part, n, he, by omega, hhi⟩
  · intro c hc
    rcases List.mem_append.mp hc with hc | hc
    · exact (hr.outputs c hc).mono (List.subset_append_left _ _)
    · exact (hb.outputs c hc).mono (List.subset_append_right _ _)

/-- The relation of a group once it has been made a table. -/
theorem rebind_settled {r : Relation} {part : String} {n : Nat}
    (hf : numbered (stem ++ "_" ++ part) n ∉ known.map Prod.fst) (hl : low < n) :
    (r.rebind (.named (numbered (stem ++ "_" ++ part) n))).Settled stem
      (known ++ [(numbered (stem ++ "_" ++ part) n, (r.outputs ++ r.links).map Column.name)]) low n
      ((r.outputs ++ r.links).map Column.name) := by
  have hrange := range_named_append hf ((r.outputs ++ r.links).map Column.name)
  have hscope : (Source.table (.named (numbered (stem ++ "_" ++ part) n))).Scoped stem
      (known ++ [(numbered (stem ++ "_" ++ part) n, (r.outputs ++ r.links).map Column.name)]) :=
    named_scoped (by simp)
  refine ⟨hscope, by simp [rebind, Source.qualifiers], ?_, by simp [rebind, Source.ranges], hscope, ?_,
    ?_⟩
  · intro q hq
    exact ⟨part, n, List.mem_singleton.mp hq, hl, Nat.le_refl n⟩
  · intro name hn
    change Range.Has ((BoundTable.named _).range _) name
    rw [hrange]
    simpa [Range.Has] using hn
  · intro c hc
    obtain ⟨d, hd, rfl⟩ := List.mem_map.mp hc
    have hname : d.name ∈ (r.outputs ++ r.links).map Column.name :=
      List.mem_map_of_mem (List.mem_append_left _ hd)
    refine Term.within_column ((BoundTable.named _).range _) (List.mem_singleton.mpr rfl) ?_
    rw [hrange]
    simpa [Range.Has] using hname

end Relation

section

variable {setup : Setup}

/-- A recursion that has just been made has its four columns. -/
theorem previous_range {s : Supply} (hs : s.Sound setup.settings.cteStem) (recurse : Recurse)
    (link : Link) (node : Node) (vertices : BoundTable) (edge : Edge) :
    let r := s.recursion setup recurse link node vertices edge
    r.previous.range (s.known ++ [r.cte.signature]) =
      ⟨s.tableName setup.settings.cteStem "recursive", some r.columnNames⟩ := by
  have hf : s.tableName setup.settings.cteStem "recursive" ∉ s.known.map Prod.fst :=
    hs.fresh (Nat.lt_succ_self s.tables)
  exact range_named_append hf _

theorem previous_scoped (stem : String) (s : Supply) (recurse : Recurse) (link : Link) (node : Node)
    (vertices : BoundTable) (edge : Edge) :
    let r := s.recursion setup recurse link node vertices edge
    (Source.table r.previous).Scoped stem (s.known ++ [r.cte.signature]) :=
  fun _ => ⟨rfl, List.mem_map.mpr ⟨_, List.mem_append_right _ (List.mem_singleton.mpr rfl), rfl⟩⟩

theorem recursion_scoped (ho : setup.catalog.Orderly setup.settings.cteStem) {s : Supply}
    (hs : s.Sound setup.settings.cteStem) {node : Node} {vertices : BoundTable}
    (hv : vertices = (setup.catalog.table node.relation).bind
      (numbered (setup.catalog.table node.relation).name s.aliases))
    (link : Link) (hp : (Source.table link.parent).Scoped setup.settings.cteStem s.known)
    (hl : (link.parent.range s.known).Has link.column) (recurse : Recurse) (edge : Edge) :
    (s.recursion setup recurse link node vertices edge).cte.Scoped setup.settings.cteStem
      s.known := by
  have hprevious := previous_range hs recurse link node vertices edge
  have he := edges_not_reserved ho node.relation recurse.direction edge
  have hadd : ∀ x ∈ s.known ++ [(s.recursion setup recurse link node vertices edge).cte.signature],
      Reserved setup.settings.cteStem x.1 := by
    intro x hx
    rcases List.mem_append.mp hx with hx | hx
    · exact hs.reserved x hx
    · rw [List.mem_singleton.mp hx]
      exact reserved_numbered setup.settings.cteStem "recursive" (s.tables + 1)
  constructor
  · refine Recursion.anchor_scoped _ hs.reserved ?_ hp hl ?_
    · change ¬Reserved _ vertices.table.name
      rw [hv]
      exact ho.table node.relation
    · change vertices.qualifier ≠ _
      rw [hv]
      intro h
      have hn := (numbered_inj h).2
      omega
  · refine Recursion.step_scoped _ hadd he (previous_scoped _ s recurse link node vertices edge) ?_ ?_
    · intro name hn
      rw [hprevious]
      simpa [Range.Has] using hn
    · exact numbered_ne_of_not_reserved he _ _

/-- A relation whose query is in scope becomes a table in scope. -/
theorem materialized_scoped {stem : String} {s : Supply} (hs : s.Sound stem) {r : Relation} {node : Node}
    {query : Select} (hq : r.query node = .ok query) (hscope : query.Scoped stem s.known)
    {name part : String} (hn : name = numbered (stem ++ "_" ++ part) (s.tables + 1)) {low : Nat}
    (hl : low ≤ s.tables) :
    (s.add ⟨name, false, .plain query⟩).Sound stem ∧
      (r.rebind (.named name)).Settled stem (s.add ⟨name, false, .plain query⟩).known low
        (s.tables + 1) ((r.outputs ++ r.links).map Column.name) := by
  have hcolumns : (⟨name, false, .plain query⟩ : Cte).columns =
      (r.outputs ++ r.links).map Column.name := by
    rw [Cte.columns, (Relation.query_ok hq).2]
    exact labels_items _
  have hfresh : numbered (stem ++ "_" ++ part) (s.tables + 1) ∉ s.known.map Prod.fst :=
    hs.fresh (Nat.lt_succ_self s.tables)
  refine ⟨hs.add hscope hn, ?_⟩
  rw [Supply.known_add, Cte.signature, hcolumns, hn]
  exact Relation.rebind_settled hfresh (Nat.lt_succ_of_le hl)

/-- The recursion of a group and then the group itself become tables in scope. -/
theorem group_scoped (ho : setup.catalog.Orderly setup.settings.cteStem) {s : Supply}
    (hs : s.Sound setup.settings.cteStem) {trunk : Branch} {link : Link}
    (hp : (Source.table link.parent).Scoped setup.settings.cteStem s.known)
    (hl : (link.parent.range s.known).Has link.column)
    (ha : (trunk.bind setup.catalog s.aliases s.links).Apart setup.catalog) {collapsed : Relation}
    (hc : (trunk.bind setup.catalog s.aliases s.links).relation setup = .ok collapsed)
    {recurse : Recurse} {edge : Edge} {recursion : Recursion}
    (hr : recursion = (s.advance trunk.size trunk.linkCount).recursion setup recurse link trunk.node
      collapsed.table edge) {back name : String} {query : Select}
    (hq : (collapsed.enter recursion back).query trunk.node = .ok query)
    (hn : name = numbered (setup.settings.cteStem ++ "_" ++ trunk.node.relation) (s.tables + 2)) :
    let after := ((s.advance (trunk.size + 2) (trunk.linkCount + 1)).add recursion.cte).add
      ⟨name, false, .plain query⟩
    let entered := collapsed.enter recursion back
    after.Sound setup.settings.cteStem ∧
      (entered.rebind (.named name)).Settled setup.settings.cteStem after.known s.tables after.tables
        ((entered.outputs ++ entered.links).map Column.name) := by
  have htable : collapsed.table = (trunk.bind setup.catalog s.aliases s.links).table :=
    (relation_grown ho hs.reserved trunk s.aliases s.links hc).2.1
  have hcte : recursion.cte.Scoped setup.settings.cteStem s.known := by
    rw [hr]
    refine recursion_scoped ho (hs.advance trunk.size trunk.linkCount) ?_ link hp hl recurse edge
    rw [htable, Branch.bind_table]
    rfl
  have hs₁ : ((s.advance (trunk.size + 2) (trunk.linkCount + 1)).add recursion.cte).Sound
      setup.settings.cteStem := (hs.advance _ _).add hcte (by rw [hr]; rfl)
  have hgrown := relation_grown ho hs₁.reserved trunk s.aliases s.links hc
  obtain ⟨hdistinct, hgenerated⟩ := grown_distinct ho hgrown ha
  refine materialized_scoped hs₁ hq ?_ hn (Nat.le_succ s.tables)
  refine enter_scoped hgrown.1 hdistinct (by rw [hr]; rfl) ?_ ?_ ?_ hq
  · rw [hr, Supply.known_add]
    exact previous_scoped _ (s.advance trunk.size trunk.linkCount) recurse link trunk.node
      collapsed.table edge
  · intro column hm
    have hprevious := previous_range (hs.advance trunk.size trunk.linkCount) recurse link trunk.node
      collapsed.table edge
    rw [← hr] at hprevious
    rw [Supply.known_add]
    refine hprevious.symm ▸ ?_
    simpa [Range.Has] using hm
  · rw [hr]
    exact hgenerated "recursive" (s.tables + 1)

/-- The group of the root becomes the first table. -/
theorem root_scoped (ho : setup.catalog.Orderly setup.settings.cteStem) {trunk : Branch}
    (ha : (trunk.bind setup.catalog 0 0).Apart setup.catalog) {collapsed : Relation}
    (hc : (trunk.bind setup.catalog 0 0).relation setup = .ok collapsed) {query : Select}
    (hq : collapsed.query trunk.node = .ok query) {name : String}
    (hn : name = numbered (setup.settings.cteStem ++ "_" ++ trunk.node.relation) 1) :
    let after := (Supply.init.advance trunk.size trunk.linkCount).add ⟨name, false, .plain query⟩
    after.Sound setup.settings.cteStem ∧
      (collapsed.rebind (.named name)).Settled setup.settings.cteStem after.known 0 after.tables
        ((collapsed.outputs ++ collapsed.links).map Column.name) := by
  have hs : (Supply.init.advance trunk.size trunk.linkCount).Sound setup.settings.cteStem :=
    ⟨trivial, by simp [Supply.advance, Supply.init]⟩
  have hgrown := relation_grown ho hs.reserved trunk 0 0 hc
  obtain ⟨hdistinct, _⟩ := grown_distinct ho hgrown ha
  have hwithin : ∀ e : Term, e.QualifiedBy collapsed.source.qualifiers →
      e.Within (collapsed.source.ranges (Supply.init.advance trunk.size trunk.linkCount).known) := by
    intro e he
    rw [hgrown.1.plain.2]
    exact Term.within_of_qualifiedBy he
  refine materialized_scoped hs hq (query_scoped hgrown.1.plain.1 hdistinct ?_ ?_ hq) hn
    (Nat.le_refl 0)
  · intro c hm
    rcases List.mem_append.mp hm with hm | hm
    · exact hwithin c.term (hgrown.1.outputs c hm)
    · exact hwithin c.term (hgrown.1.links c hm)
  · intro e he
    exact hwithin e (hgrown.1.conditions e he)

/-- Whatever the recursions of a group are, they leave all tables in scope. -/
theorem emitted_scoped (ho : setup.catalog.Orderly setup.settings.cteStem) {labels : List String}
    {r final : Relation} {groups : List (Recurse × Group)} {s last : Supply}
    (h : Emitted setup labels r groups s final last) (hs : s.Sound setup.settings.cteStem) {low : Nat}
    {columns : List String} (hr : r.Settled setup.settings.cteStem s.known low s.tables columns)
    (hl : labels ⊆ columns)
    (ha : ∀ b ∈ (Group.bindEach setup.catalog s.aliases s.links groups).1, b.Apart setup.catalog) :
    last.Sound setup.settings.cteStem ∧
      final.Settled setup.settings.cteStem last.known low last.tables columns := by
  induction h generalizing low columns with
  | done => exact ⟨hs, hr⟩
  | @next label labels r recurse trunk recursions rest s after last collapsed joined final edge query
      recursion name back hc he hrec hb hq hn inner others ihi iho =>
    have hlabel : label ∈ columns := hl List.mem_cons_self
    have hcounts := inner.bindEach_counts
    simp only [Supply.add, Supply.advance, ← Nat.add_assoc] at hcounts
    simp only [Group.bindEach, Group.bind, hcounts] at ha
    obtain ⟨hs₁, hwrapped⟩ := group_scoped ho hs hr.tableInScope (hr.columns label hlabel)
      (ha _ (by simp)) hc hrec hq hn
    have hinner : collapsed.links.map Column.name ⊆ ((collapsed.enter recursion back).outputs ++
        (collapsed.enter recursion back).links).map Column.name := by
      intro column hm
      simp only [Relation.enter, List.map_append, List.mem_append]
      exact Or.inr (Or.inl hm)
    obtain ⟨hafter, hjoined⟩ := ihi hs₁ hwrapped hinner (fun b hm => ha b (by
      simp only [Supply.add, Supply.advance, ← Nat.add_assoc] at hm
      simp [hm]))
    have hback : back ∈ ((collapsed.enter recursion back).outputs ++
        (collapsed.enter recursion back).links).map Column.name := by
      simp [Relation.enter]
    have hrest : r.Settled setup.settings.cteStem after.known low s.tables columns := by
      obtain ⟨more, hmore⟩ := inner.ctes_append
      have hknown : after.known = s.known ++ ([recursion.cte.signature] ++
          ([(⟨name, false, .plain query⟩ : Cte).signature] ++ more.map Cte.signature)) := by
        simp [Supply.known, hmore, Supply.add, Supply.advance, List.append_assoc]
      rw [hknown]
      refine hr.append (fun x hx => hafter.reserved x ?_) (Nat.le_refl _)
      rw [hknown]
      exact List.mem_append_right _ hx
    have hnext := hrest.joinRecursion hjoined hlabel hback trunk.node
    exact iho hafter hnext (fun x hx => hl (List.mem_cons_of_mem _ hx)) (fun b hm => ha b (by simp [hm]))

end

/-- Every name that an emitted statement uses is in scope: where no two tables on the way to the children
of a group have one qualifier, the statement of any query tree uses no qualifier twice in a FROM clause,
mentions only columns of the ranges at hand, and refers to generated tables only once they are made and by
the columns they are made with. -/
theorem emit_scoped {settings : Settings} {catalog : Catalog} {tree : QueryTree}
    {statement : Statement} (ho : catalog.Orderly settings.cteStem)
    (ha : ∀ ordered, tree.ordered = .ok ordered →
      ∀ b ∈ ordered.group.trunks catalog, b.Apart catalog)
    (h : emit settings catalog tree = .ok statement) : statement.Scoped settings.cteStem := by
  obtain ⟨_, combinator, ordered, _, hordered, hemit⟩ := emitTree_of_emit h
  obtain ⟨collapsed, query, name, final, last, hc, hq, hname, hemitted, hctes, hbody⟩ :=
    emitted_of_emitTree _ _ _ hemit
  have hapart := ha ordered hordered
  obtain ⟨hs, hwrapped⟩ := root_scoped ho (hapart _ List.mem_cons_self) hc hq hname
  have hlabels : collapsed.links.map Column.name ⊆
      (collapsed.outputs ++ collapsed.links).map Column.name := by simp
  obtain ⟨hlast, hfinal⟩ := emitted_scoped ho hemitted hs hwrapped hlabels (fun b hb => hapart b
    (List.mem_cons_of_mem _ (by simpa [Supply.add, Supply.advance, Supply.init] using hb)))
  refine ⟨hctes ▸ hlast.inScope, ?_⟩
  rw [hctes]
  unfold Relation.finalQuery at hbody
  split at hbody
  · cases hbody
  · rw [← Except.ok.inj hbody]
    refine ⟨hfinal.inScope, by rw [Source.ranges_qualifier]; exact hfinal.distinct, ?_, by simp⟩
    intro item hi
    obtain ⟨c, hm, rfl⟩ := List.mem_map.mp hi
    exact hfinal.outputs c hm

/-- Animals and their friends, through a junction table. -/
def sampleCatalog : Catalog where
  table _ := ⟨some "zoo", "animal"⟩
  tableNamed _ := ⟨some "zoo", "friendship"⟩
  edge _ := some (.junction ⟨"friendship", "id", "animal_id"⟩ ⟨"friendship", "friend_id", "id"⟩)
  joins _ _ parent child :=
    let via : BoundTable := ⟨⟨some "zoo", "friendship"⟩, some ("via_" ++ child.qualifier)⟩
    [⟨via, .equal (parent.column "id") (via.column "animal_id")⟩,
      ⟨child, .equal (via.column "friend_id") (child.column "id")⟩]
  column selection table := table.column selection.field
  condition _ _ table := .ok (.isNotNull (table.column "name"))
  presence _ table := table.column "id"
  combinator := "union"

/-- An animal, a friend it may have, the friends of that friend at up to three hops, a friend of each, and
again the friends of that one. -/
def sampleTree : QueryTree :=
  (QueryTree.start (.root "Animal") "animal").after
    [.child 0 ((Location.root "Animal").descend "out_Friend") "animal" ⟨.outward, "friend", true, false⟩,
      .recursion 1 ((Location.root "Animal").descend "in_Friend") "animal" ⟨.inward, "friend", 3, true⟩,
      .child 2 ((Location.root "Animal").descend "out_Last") "animal" ⟨.outward, "friend", false, false⟩,
      .recursion 3 ((Location.root "Animal").descend "out_Again") "animal" ⟨.outward, "friend", 2, false⟩,
      .filter 1 (.localField "name"), .select 0 ⟨"name", "name"⟩, .select 3 ⟨"name", "last_name"⟩,
      .select 4 ⟨"name", "again_name"⟩]

theorem sampleTree_built : sampleTree.Built := (QueryTree.Built.start ..).after _

theorem sampleCatalog_orderly : sampleCatalog.Orderly Settings.standard.cteStem where
  column selection table := column_qualifiedBy table selection.field
  condition node predicate table term h := by
    cases h
    exact column_qualifiedBy table "name"
  presence node table := column_qualifiedBy table "id"
  joins parent child parentTable childTable := by
    refine ⟨?_, ?_, trivial⟩ <;> intro c hc <;>
      simp only [Term.equal, BoundTable.column, Term.columns, List.singleton_append, List.mem_cons,
        List.not_mem_nil, or_false] at hc <;>
      rcases hc with rfl | rfl <;> simp
  table relation := show ¬Reserved "__gql_cte" "animal" by decide
  tableNamed name := show ¬Reserved "__gql_cte" "friendship" by decide
  between parent child parentTable childTable := by
    intro clause hm hne
    simp only [sampleCatalog, List.mem_cons, List.not_mem_nil, or_false] at hm
    rcases hm with rfl | rfl
    · refine ⟨show ¬Reserved "__gql_cte" "friendship" by decide, ?_⟩
      simp [Reserved, BoundTable.qualifier, Settings.standard, Settings.forBackend]
    · exact absurd rfl hne

/-- The statement of the sample has a table for its root and two for each of its recursions. -/
theorem emit_scoped_sample : ∃ statement,
    (∀ ordered, sampleTree.ordered = .ok ordered →
      ∀ b ∈ ordered.group.trunks sampleCatalog, b.Apart sampleCatalog) ∧
    emit .standard sampleCatalog sampleTree = .ok statement ∧ statement.ctes.length = 5 ∧
    statement.Scoped Settings.standard.cteStem := by
  have hlength : (emit .standard sampleCatalog sampleTree).toOption.map (·.ctes.length) = some 5 := by
    decide +kernel
  have hall : (sampleTree.ordered.toOption.all fun ordered =>
      (ordered.group.trunks sampleCatalog).all fun b => decide (b.Apart sampleCatalog)) = true := by
    decide +kernel
  have hapart : ∀ ordered, sampleTree.ordered = .ok ordered →
      ∀ b ∈ ordered.group.trunks sampleCatalog, b.Apart sampleCatalog := by
    intro ordered ho b hb
    simp only [ho, Except.toOption, Option.all_some, List.all_eq_true, decide_eq_true_eq] at hall
    exact hall b hb
  obtain ⟨statement, hemit, hlength⟩ := exists_statement hlength
  exact ⟨statement, hapart, hemit, hlength, emit_scoped sampleCatalog_orderly hapart hemit⟩

end GraphPlan.Sql
