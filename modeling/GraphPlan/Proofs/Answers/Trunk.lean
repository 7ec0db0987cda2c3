import GraphPlan.Proofs.Answers.Assignment

namespace GraphPlan.Sql

/-- Every child is joined directly to its parent, terms are about the tables that they are asked for, and
presence is shown by a column. -/
structure Catalog.Direct (catalog : Catalog) : Prop where
  column : ∀ selection table, (catalog.column selection table).QualifiedBy [table.qualifier]
  condition : ∀ node predicate table term, catalog.condition node predicate table = .ok term →
    term.QualifiedBy [table.qualifier]
  presence : ∀ node table, ∃ name, catalog.presence node table = table.column name
  joins : ∀ parent child parentTable childTable, ∃ on,
    catalog.joins parent child parentTable childTable = [⟨childTable, on⟩] ∧
      on.QualifiedBy [parentTable.qualifier, childTable.qualifier]

/-- Presence is not null on any row of the tables of the nodes. -/
def Catalog.ShowsPresence (catalog : Catalog) (d : Dialect) (db : Database) : Prop :=
  ∀ (node : Node) (table : BoundTable), table.table = catalog.table node.relation →
    ∀ row ∈ db table.table, (catalog.presence node table).eval d [(table.qualifier, row)] ≠ .null

/-- A frame has the rows of an assignment for the nodes at hand. -/
def Frame.Shows (f : Frame) (a : Assignment) (qualifiers : List String) : Prop :=
  ∀ q ∈ qualifiers, f.row q = a.row q

/-- A relation means what its group asks for. -/
structure BoundBranch.MeantBy (d : Dialect) (catalog : Catalog) (db : Database) (b : BoundBranch)
    (r : Relation) : Prop where
  table : r.table = b.table
  qualifiers : r.source.qualifiers = b.aliases
  frames : ∀ f, f ∈ r.source.frames d db ↔
    ∃ a, b.Solves d catalog db a ∧ f = a.frame b.aliases
  outputs : ∀ (a : Assignment) (f : Frame), f.Shows a b.aliases →
    (r.outputs.map fun c => (c.name, c.term.eval d f)) = b.outputs d catalog a
  conditions : ∀ (a : Assignment) (f : Frame), b.Solves d catalog db a → f.Shows a b.aliases →
    ((∀ e ∈ r.conditions, e.Holds d f) ↔ b.Satisfies d catalog a)

section

variable {d : Dialect} {db : Database} {setup : Setup}

open BoundBranch

theorem Frame.Shows.mono {f : Frame} {a : Assignment} {qs rs : List String} (h : f.Shows a rs)
    (hs : qs ⊆ rs) : f.Shows a qs := fun q hq => h q (hs hq)

theorem Frame.shows_frame (a : Assignment) (qs : List String) : (a.frame qs).Shows a qs :=
  fun _ hq => a.frame_row hq

theorem holds_iff_of_shows {e : Term} {qs : List String} (he : e.QualifiedBy qs) {f : Frame}
    {a : Assignment} (hf : f.Shows a qs) : e.Holds d f ↔ e.Holds d (a.frame qs) :=
  Term.holds_of_qualifiedBy he fun q hq => (hf q hq).trans (a.frame_row hq).symm

theorem eval_eq_of_shows {e : Term} {qs : List String} (he : e.QualifiedBy qs) {f : Frame}
    {a : Assignment} (hf : f.Shows a qs) : e.eval d f = e.eval d (a.frame qs) :=
  Term.eval_of_qualifiedBy he fun q hq => (hf q hq).trans (a.frame_row hq).symm

/-- A node by itself. -/
theorem ofNode_meant (hc : setup.catalog.Direct) {node : Node} {table : BoundTable} {own : Relation}
    (h : Relation.ofNode setup node table = .ok own) (hanging : List (Node × String)) :
    (BoundBranch.mk node table hanging []).MeantBy d setup.catalog db own := by
  obtain ⟨conditions, hm, hr⟩ := bind_ok h
  cases hr
  refine ⟨rfl, rfl, ?_, ?_, ?_⟩
  · intro f
    rw [Source.mem_frames_table]
    constructor
    · rintro ⟨row, hrow, rfl⟩
      exact ⟨fun _ => some row, ⟨⟨row, hrow, rfl⟩, trivial⟩, rfl⟩
    · rintro ⟨a, ⟨⟨row, hrow, ha⟩, _⟩, rfl⟩
      exact ⟨row, hrow, by simp [Assignment.frame, aliases, aliasesEach, Assignment.row, ha]⟩
  · intro a f hf
    simp only [outputs, outputsEach, List.append_nil, List.map_map]
    apply List.map_congr_left
    intro selection _
    simp only [Function.comp_apply, Prod.mk.injEq, true_and]
    exact eval_eq_of_shows (hc.column selection table) hf
  · rintro a f ⟨⟨row, _, ha⟩, _⟩ hf
    have hsome : (a table.qualifier).isSome = true := by simp [ha]
    simp only [Satisfies, SatisfiesEach, and_true, hsome, forall_const]
    constructor
    · intro hall predicate hp term hterm
      obtain ⟨e, he, heq⟩ := exists_mapM_of_mem hm hp
      rw [hterm] at heq
      cases heq
      exact (holds_iff_of_shows (hc.condition node predicate table term hterm) hf).mp (hall term he)
    · intro hall e he
      obtain ⟨predicate, hp, heq⟩ := exists_of_mem_mapM hm he
      exact (holds_iff_of_shows (hc.condition node predicate table e heq) hf).mpr
        (hall predicate hp e heq)

section

variable {node : Node} {table : BoundTable} {hanging : List (Node × String)}
  {done : List BoundBranch} {b : BoundBranch}

theorem aliases_snoc : (BoundBranch.mk node table hanging (done ++ [b])).aliases =
    (BoundBranch.mk node table hanging done).aliases ++ b.aliases := by
  simp [aliases, aliasesEach, aliasesEach_append]

theorem solves_snoc {a : Assignment} :
    (BoundBranch.mk node table hanging (done ++ [b])).Solves d setup.catalog db a ↔
      (BoundBranch.mk node table hanging done).Solves d setup.catalog db a ∧
        MatchedOrMissing d setup.catalog db node table b a := by
  simp only [Solves, solvesEach_iff, List.forall_mem_append, List.forall_mem_singleton, and_assoc]

theorem satisfies_snoc {a : Assignment} :
    (BoundBranch.mk node table hanging (done ++ [b])).Satisfies d setup.catalog a ↔
      (BoundBranch.mk node table hanging done).Satisfies d setup.catalog a ∧
        b.Satisfies d setup.catalog a := by
  simp only [Satisfies, satisfiesEach_iff, List.forall_mem_append, List.forall_mem_singleton, and_assoc]

theorem outputs_snoc {a : Assignment} :
    (BoundBranch.mk node table hanging (done ++ [b])).outputs d setup.catalog a =
      (BoundBranch.mk node table hanging done).outputs d setup.catalog a ++
        b.outputs d setup.catalog a := by
  simp [outputs, outputsEach, outputsEach_append]

section

variable (hn : (BoundBranch.mk node table hanging (done ++ [b])).aliases.Nodup)

include hn

theorem aliases_disjoint {q : String} (hq : q ∈ (BoundBranch.mk node table hanging done).aliases) :
    q ∉ b.aliases := by
  rw [aliases_snoc, List.nodup_append] at hn
  exact fun hb => hn.2.2 q hq q hb rfl

theorem frame_override_snoc {a other : Assignment} :
    (a.override other b.aliases).frame (BoundBranch.mk node table hanging (done ++ [b])).aliases =
      a.frame (BoundBranch.mk node table hanging done).aliases ++ other.frame b.aliases := by
  rw [aliases_snoc]
  exact Assignment.frame_override fun q hq => aliases_disjoint hn hq

/-- Rows for a group and rows for one more child do not get in one another's way. -/
theorem solves_override {a other : Assignment} :
    ((BoundBranch.mk node table hanging done).Solves d setup.catalog db (a.override other b.aliases) ↔
      (BoundBranch.mk node table hanging done).Solves d setup.catalog db a) ∧
    (b.Solves d setup.catalog db (a.override other b.aliases) ↔ b.Solves d setup.catalog db other) :=
  ⟨solves_congr _ fun _ hq => a.override_outside other (aliases_disjoint hn hq),
    solves_congr b fun _ hq => a.override_inside other hq⟩

end

variable {on : Term} {r below : Relation}

theorem on_holds_iff (hj : setup.catalog.joins node b.node table b.table = [⟨b.table, on⟩])
    (hon : on.QualifiedBy [table.qualifier, b.table.qualifier]) {f : Frame} {a : Assignment}
    (hf : f.Shows a (BoundBranch.mk node table hanging (done ++ [b])).aliases) :
    on.Holds d f ↔ BoundBranch.Joined d setup.catalog node table b a := by
  have hsub : [table.qualifier, b.table.qualifier] ⊆
      (BoundBranch.mk node table hanging (done ++ [b])).aliases := by
    rw [aliases_snoc]
    intro q hq
    simp only [List.mem_cons, List.not_mem_nil, or_false] at hq
    rcases hq with rfl | rfl
    · exact List.mem_append_left _ List.mem_cons_self
    · exact List.mem_append_right _ b.table_mem_aliases
  rw [holds_iff_of_shows hon (hf.mono hsub)]
  simp [BoundBranch.Joined, hj]

section

variable (hj : setup.catalog.joins node b.node table b.table = [⟨b.table, on⟩])
  (hon : on.QualifiedBy [table.qualifier, b.table.qualifier])
  (hn : (BoundBranch.mk node table hanging (done ++ [b])).aliases.Nodup)
  (hr : (BoundBranch.mk node table hanging done).MeantBy d setup.catalog db r)
  (hb : b.MeantBy d setup.catalog db below)

include hj hon hn hr hb

/-- A row for each way to place the group and the child next to one another. -/
theorem mem_frames_found {f : Frame} :
    (∃ x ∈ r.source.frames d db, ∃ y ∈ below.source.frames d db, f = x ++ y ∧ on.Holds d f) ↔
      ∃ a, (BoundBranch.mk node table hanging done).Solves d setup.catalog db a ∧
        (b.Solves d setup.catalog db a ∧ BoundBranch.Joined d setup.catalog node table b a) ∧
        f = a.frame (BoundBranch.mk node table hanging (done ++ [b])).aliases := by
  constructor
  · rintro ⟨x, hx, y, hy, rfl, hholds⟩
    obtain ⟨a, ha, rfl⟩ := (hr.frames x).mp hx
    obtain ⟨other, hother, rfl⟩ := (hb.frames y).mp hy
    have hboth := @solves_override d db setup node table hanging done b hn a other
    rw [← frame_override_snoc hn] at hholds ⊢
    exact ⟨_, hboth.1.mpr ha, ⟨hboth.2.mpr hother,
      (on_holds_iff hj hon (Frame.shows_frame _ _)).mp hholds⟩, rfl⟩
  · rintro ⟨a, ha, ⟨hother, hjoined⟩, rfl⟩
    refine ⟨_, (hr.frames _).mpr ⟨a, ha, rfl⟩, _, (hb.frames _).mpr ⟨a, hother, rfl⟩, ?_, ?_⟩
    · rw [aliases_snoc, Assignment.frame_append]
    · exact (on_holds_iff hj hon (Frame.shows_frame _ _)).mpr hjoined

omit hr in
/-- Nothing stands next to a row of the group if and only if no rows would do for the child. -/
theorem no_frames_found {a : Assignment} :
    (∀ y ∈ below.source.frames d db,
      ¬on.Holds d (a.frame (BoundBranch.mk node table hanging done).aliases ++ y)) ↔
      ∀ other : Assignment, other table.qualifier = a table.qualifier →
        ¬(b.Solves d setup.catalog db other ∧ BoundBranch.Joined d setup.catalog node table b other) := by
  have houtside : table.qualifier ∉ b.aliases := aliases_disjoint hn List.mem_cons_self
  constructor
  · rintro hnone other htable ⟨hother, hjoined⟩
    apply hnone _ ((hb.frames _).mpr ⟨other, hother, rfl⟩)
    rw [← frame_override_snoc hn, on_holds_iff hj hon (Frame.shows_frame _ _)]
    refine (joined_congr ?_ ?_).mpr hjoined
    · rw [a.override_outside other houtside, htable]
    · exact a.override_inside other b.table_mem_aliases
  · rintro hnone y hy hholds
    obtain ⟨other, hother, rfl⟩ := (hb.frames y).mp hy
    rw [← frame_override_snoc hn, on_holds_iff hj hon (Frame.shows_frame _ _)] at hholds
    refine hnone _ (a.override_outside other houtside) ⟨?_, hholds⟩
    exact (@solves_override d db setup node table hanging done b hn a other).2.mpr hother

theorem mem_frames_required (ho : b.node.isOptional = false) {f : Frame} :
    f ∈ (Source.join .inner r.source below.source on).frames d db ↔
      ∃ a, (BoundBranch.mk node table hanging (done ++ [b])).Solves d setup.catalog db a ∧
        f = a.frame (BoundBranch.mk node table hanging (done ++ [b])).aliases := by
  rw [Source.mem_frames_inner, mem_frames_found hj hon hn hr hb]
  simp only [solves_snoc, MatchedOrMissing, ho, Bool.false_eq_true, false_and, or_false, and_assoc]

theorem mem_frames_optional (ho : b.node.isOptional = true) {f : Frame} :
    f ∈ (Source.join .leftOuter r.source below.source on).frames d db ↔
      ∃ a, (BoundBranch.mk node table hanging (done ++ [b])).Solves d setup.catalog db a ∧
        f = a.frame (BoundBranch.mk node table hanging (done ++ [b])).aliases := by
  have hblank : below.source.blank = Assignment.frame (fun _ => none) b.aliases := by
    rw [Source.blank, hb.qualifiers]
    rfl
  have htable : table.qualifier ∈ (BoundBranch.mk node table hanging done).aliases :=
    List.mem_cons_self
  rw [Source.mem_frames_leftOuter]
  constructor
  · rintro ⟨x, hx, hfound | ⟨hnone, rfl⟩⟩
    · obtain ⟨a, ha, hplaced, hf⟩ := (mem_frames_found hj hon hn hr hb).mp
        ⟨x, hx, hfound⟩
      exact ⟨a, solves_snoc.mpr ⟨ha, Or.inl hplaced⟩, hf⟩
    · obtain ⟨a, ha, rfl⟩ := (hr.frames x).mp hx
      rw [no_frames_found hj hon hn hb] at hnone
      refine ⟨a.override (fun _ => none) b.aliases, solves_snoc.mpr ⟨?_, Or.inr ⟨ho, ?_, ?_⟩⟩, ?_⟩
      · exact (solves_override hn).1.mpr ha
      · exact fun q hq => a.override_inside _ hq
      · rw [a.override_outside _ (aliases_disjoint hn htable)]
        exact hnone
      · rw [hblank, frame_override_snoc hn]
  · rintro ⟨a, hsolves, rfl⟩
    obtain ⟨ha, hplaced | ⟨_, hunassigned, hnone⟩⟩ := solves_snoc.mp hsolves
    · obtain ⟨x, hx, hfound⟩ := (mem_frames_found hj hon hn hr hb).mpr ⟨a, ha, hplaced, rfl⟩
      exact ⟨x, hx, Or.inl hfound⟩
    · refine ⟨_, (hr.frames _).mpr ⟨a, ha, rfl⟩, Or.inr ⟨?_, ?_⟩⟩
      · exact (no_frames_found hj hon hn hb).mpr hnone
      · rw [hblank, aliases_snoc, Assignment.frame_append,
          Assignment.frame_congr fun q hq => hunassigned q hq]

end

theorem holds_guard {presence : Term} {conditions : List Term} {f : Frame} :
    (Term.or [.isNull presence, .all conditions]).Holds d f ↔
      presence.eval d f = .null ∨ ∀ e ∈ conditions, e.Holds d f := by
  rw [← Term.holds_all]
  unfold Term.Holds
  rw [Term.eval, Constant.disj_true]
  simp [Term.evalEach, Term.eval, Constant.IsTrue, @eq_comm _ (Constant.bool true)]

/-- The conditions of a child that has its place, as its parent takes them over. -/
theorem guarded_holds_iff (hc : setup.catalog.Direct) (hp : setup.catalog.ShowsPresence d db)
    (hb : b.MeantBy d setup.catalog db below)
    (ht : b.table.table = setup.catalog.table b.node.relation) {a : Assignment} {f : Frame}
    (hplaced : MatchedOrMissing d setup.catalog db node table b a) (hf : f.Shows a b.aliases) :
    (∀ e ∈ guarded setup b.node below, e.Holds d f) ↔ b.Satisfies d setup.catalog a := by
  obtain ⟨name, hname⟩ := hc.presence b.node b.table
  have hpresence : (setup.catalog.presence b.node below.table).eval d f =
      (a.row b.table.qualifier).get name := by
    rw [hb.table, hname, eval_column, hf _ b.table_mem_aliases]
  unfold guarded
  split
  · next hguard =>
    rw [List.forall_mem_singleton, holds_guard, hpresence]
    rcases hplaced with ⟨hsolves, _⟩ | ⟨_, hunassigned, _⟩
    · -- the child has a row, on which presence is not null
      have hrow : ∃ row ∈ db b.table.table, a b.table.qualifier = some row := by
        cases b
        exact hsolves.1
      obtain ⟨row, hm, ha⟩ := hrow
      have hnot := hp b.node b.table ht row hm
      rw [hname, eval_column] at hnot
      have hnull : (a.row b.table.qualifier).get name ≠ .null := by
        simpa [Assignment.row, ha] using hnot
      simp only [hnull, false_or]
      exact hb.conditions a f hsolves hf
    · -- the child has none, so presence reads as null
      have hnull : (a.row b.table.qualifier).get name = .null := by
        simp [Assignment.row, hunassigned _ b.table_mem_aliases]
      simp only [hnull, true_or, true_iff]
      exact satisfies_of_unassigned b hunassigned
  · next hguard =>
    rcases hplaced with ⟨hsolves, _⟩ | ⟨ho, hunassigned, _⟩
    · exact hb.conditions a f hsolves hf
    · have hnone : below.conditions = [] := by
        by_contra hne
        exact hguard ⟨ho, by simpa using hne⟩
      simp only [hnone, List.not_mem_nil, false_imp_iff, implies_true, true_iff]
      exact satisfies_of_unassigned b hunassigned

/-- To join a child is to ask for one child more. -/
theorem absorb_meant (hc : setup.catalog.Direct) (hp : setup.catalog.ShowsPresence d db)
    (hn : (BoundBranch.mk node table hanging (done ++ [b])).aliases.Nodup)
    (hr : (BoundBranch.mk node table hanging done).MeantBy d setup.catalog db r)
    (hb : b.MeantBy d setup.catalog db below)
    (ht : b.table.table = setup.catalog.table b.node.relation) {joined : Relation}
    (h : absorb setup node r b.node below = .ok joined) :
    (BoundBranch.mk node table hanging (done ++ [b])).MeantBy d setup.catalog db joined := by
  obtain ⟨source, hs, rfl⟩ := absorb_ok h
  obtain ⟨on, hj, hon⟩ := hc.joins node b.node table b.table
  have hrt : r.table = table := hr.table
  rw [hrt, hb.table, hj] at hs
  have hsource : source = .join (joinKind b.node) r.source below.source on := by
    simp only [joinClauses, hb.table] at hs
    simpa using hs.symm
  have hleft : (BoundBranch.mk node table hanging done).aliases ⊆
      (BoundBranch.mk node table hanging (done ++ [b])).aliases := by
    rw [aliases_snoc]
    exact List.subset_append_left ..
  have hright : b.aliases ⊆ (BoundBranch.mk node table hanging (done ++ [b])).aliases := by
    rw [aliases_snoc]
    exact List.subset_append_right ..
  refine ⟨hr.table, ?_, ?_, ?_, ?_⟩
  · rw [hsource, Source.qualifiers, hr.qualifiers, hb.qualifiers, aliases_snoc]
  · intro f
    rw [hsource, joinKind]
    cases ho : b.node.isOptional with
    | true => exact mem_frames_optional hj hon hn hr hb ho
    | false => exact mem_frames_required hj hon hn hr hb ho
  · intro a f hf
    rw [List.map_append, hr.outputs a f (hf.mono hleft), hb.outputs a f (hf.mono hright),
      outputs_snoc]
  · intro a f hsolves hf
    obtain ⟨ha, hplaced⟩ := solves_snoc.mp hsolves
    rw [List.forall_mem_append, hr.conditions a f ha (hf.mono hleft),
      guarded_holds_iff hc hp hb ht hplaced (hf.mono hright), satisfies_snoc]

end

theorem absorbAll_meant (hc : setup.catalog.Direct) (hp : setup.catalog.ShowsPresence d db)
    {node : Node} {table : BoundTable} {hanging : List (Node × String)}
    {done children : List BoundBranch} {below : List (Node × Relation)}
    (hb : List.Forall₂ (fun b p => p.1 = b.node ∧
      b.table.table = setup.catalog.table b.node.relation ∧ b.MeantBy d setup.catalog db p.2)
      children below)
    (hn : (BoundBranch.mk node table hanging (done ++ children)).aliases.Nodup) {r joined : Relation}
    (hr : (BoundBranch.mk node table hanging done).MeantBy d setup.catalog db r)
    (h : absorbAll setup node r below = .ok joined) :
    (BoundBranch.mk node table hanging (done ++ children)).MeantBy d setup.catalog db joined := by
  induction hb generalizing done r with
  | nil =>
    cases h
    simpa using hr
  | @cons b p bs ps hp' _ ih =>
    obtain ⟨next, ha, h⟩ := bind_ok h
    obtain ⟨hnode, htable, hmeant⟩ := hp'
    rw [hnode] at ha
    have happend : done ++ b :: bs = (done ++ [b]) ++ bs := by simp
    rw [happend] at hn ⊢
    have hn' : (BoundBranch.mk node table hanging (done ++ [b])).aliases.Nodup := by
      refine List.Nodup.sublist ?_ hn
      simp only [aliases, aliasesEach_append done [b], aliasesEach_append (done ++ [b]) bs]
      exact List.Sublist.cons_cons _ (List.sublist_append_left ..)
    exact ih hn (absorb_meant hc hp hn' hr hmeant htable ha) h

mutual

/-- The relation of a group means what the group asks for. -/
theorem relation_meant (hc : setup.catalog.Direct) (hp : setup.catalog.ShowsPresence d db) (b : Branch)
    (used links : Nat) {r : Relation}
    (h : (b.bind setup.catalog used links).relation setup = .ok r) :
    (b.bind setup.catalog used links).MeantBy d setup.catalog db r := by
  cases b with
  | mk node hanging children =>
    obtain ⟨below, hb, h⟩ := bind_ok h
    obtain ⟨own, hown, h⟩ := bind_ok h
    obtain ⟨linked, hl, h⟩ := bind_ok h
    have hn := Branch.nodup_aliases_bind setup.catalog (.mk node hanging children) used links
    have hmeant := @ofNode_meant d db setup hc _ _ _ hown
      (labelLinks (links + Branch.linkCounts children) hanging)
    obtain ⟨more, rfl, _⟩ := linkTo_ok hl
    have hlinked : (BoundBranch.mk node _ _ []).MeantBy d setup.catalog db
        { own with links := own.links ++ more } :=
      ⟨hmeant.table, hmeant.qualifiers, hmeant.frames, hmeant.outputs, hmeant.conditions⟩
    have hbelow := relations_meant hc hp children used links hb
    exact @absorbAll_meant d db setup hc hp _ _ _ [] _ _ hbelow hn _ _ hlinked h

theorem relations_meant (hc : setup.catalog.Direct) (hp : setup.catalog.ShowsPresence d db)
    (bs : List Branch) (used links : Nat) {below : List (Node × Relation)}
    (h : BoundBranch.relations setup (Branch.bindAll setup.catalog used links bs) = .ok below) :
    List.Forall₂ (fun b p => p.1 = b.node ∧
      b.table.table = setup.catalog.table b.node.relation ∧ b.MeantBy d setup.catalog db p.2)
      (Branch.bindAll setup.catalog used links bs) below := by
  cases bs with
  | nil =>
    cases h
    exact .nil
  | cons b bs =>
    obtain ⟨r, hr, h⟩ := bind_ok h
    obtain ⟨rs, hrs, h⟩ := bind_ok h
    cases h
    refine .cons ⟨rfl, ?_, relation_meant hc hp b used links hr⟩
      (relations_meant hc hp bs (used + b.size) (links + b.linkCount) hrs)
    rw [Branch.bind_table, Branch.bind_node]
    rfl

end

end

end GraphPlan.Sql
