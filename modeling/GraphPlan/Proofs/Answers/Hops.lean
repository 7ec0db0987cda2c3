import GraphPlan.Proofs.Emission.Trunk
import GraphPlan.Proofs.Sql.Dialect

/-!
Optional children that are reached by way of other tables.

Each stage of the way is an outer join of its own, made with what the stages before it have found. So a row on
the way that leads no further is kept, with nothing for the child, also where another one does lead to the
child. Every way that leads to the child all through is there too.
-/

namespace GraphPlan.Sql

/-- One stage of the way to a child: what is joined, and on which condition. -/
structure Stage where
  source : Source
  on : Term

def Stage.ofClause (clause : JoinClause) : Stage := ⟨.table clause.table, clause.on⟩

/-- The way to a child, by way of other tables. -/
def wayTo (hops : List JoinClause) (below : Relation) (on : Term) : List Stage :=
  hops.map Stage.ofClause ++ [⟨below.source, on⟩]

/-- Join one stage after the other. -/
def joinStages (kind : JoinKind) : Source → List Stage → Source
  | left, [] => left
  | left, stage :: stages => joinStages kind (.join kind left stage.source stage.on) stages

theorem joinClauses_eq_joinStages {kind : JoinKind} {parent child : Node} {below : Relation}
    {hops : List JoinClause} (h : ∀ hop ∈ hops, hop.table ≠ below.table) (on : Term) (left : Source) :
    joinClauses kind parent child below (hops ++ [⟨below.table, on⟩]) (some below.source) left =
      .ok (joinStages kind left (wayTo hops below on)) := by
  induction hops generalizing left with
  | nil => simp [joinClauses, joinStages, wayTo]
  | cons hop hops ih =>
    have hrest := ih fun later hl => h later (List.mem_cons_of_mem hop hl)
    rw [List.cons_append, joinClauses, if_neg (h hop List.mem_cons_self), hrest]
    rfl

theorem absorb_eq_joinStages {setup : Setup} {parent child : Node} {r below : Relation}
    {hops : List JoinClause} {on : Term}
    (hjoins : setup.catalog.joins parent child r.table below.table = hops ++ [⟨below.table, on⟩])
    (hhops : ∀ hop ∈ hops, hop.table ≠ below.table) :
    ∃ joined, absorb setup parent r child below = .ok joined ∧
      joined.source = joinStages (joinKind child) r.source (wayTo hops below on) := by
  unfold absorb
  split
  · next hnil =>
    rw [hnil] at hjoins
    simp at hjoins
  · rw [hjoins, joinClauses_eq_joinStages hhops]
    exact ⟨_, rfl, rfl⟩

/-- A row with what was picked on each stage; where nothing was, the stage is blank. -/
def Frame.along : Frame → List Stage → List (Option Frame) → Frame
  | x, stage :: stages, pick :: picks => along (x ++ pick.getD stage.source.blank) stages picks
  | x, _, _ => x

section

variable (d : Dialect) (db : Database)

/-- Rows for all stages, with which every condition is true. -/
def FullChoice : Frame → List Stage → List Frame → Prop
  | _, [], [] => True
  | x, stage :: stages, y :: ys =>
    y ∈ stage.source.frames d db ∧ stage.on.Holds d (x ++ y) ∧ FullChoice (x ++ y) stages ys
  | _, _, _ => False

/-- What may be picked stage by stage: a row with which the condition is true, or none where there is none. -/
inductive Picks : Frame → List Stage → List (Option Frame) → Prop
  | done (x : Frame) : Picks x [] []
  | found {x y : Frame} {stage : Stage} {stages : List Stage} {picks : List (Option Frame)}
      (row : y ∈ stage.source.frames d db) (holds : stage.on.Holds d (x ++ y))
      (rest : Picks (x ++ y) stages picks) : Picks x (stage :: stages) (some y :: picks)
  | missed {x : Frame} {stage : Stage} {stages : List Stage} {picks : List (Option Frame)}
      (fails : ∀ y ∈ stage.source.frames d db, ¬stage.on.Holds d (x ++ y))
      (rest : Picks (x ++ stage.source.blank) stages picks) : Picks x (stage :: stages) (none :: picks)

/-- No row is found on a stage where there is nothing for the tables of the stage before. -/
def Stage.NeedsBefore (before stage : Stage) : Prop :=
  ∀ x : Frame, (∀ q ∈ before.source.qualifiers, x.row q = []) →
    ∀ y ∈ stage.source.frames d db, ¬stage.on.Holds d (x ++ y)

end

section

variable {d : Dialect} {db : Database} {x : Frame} {stages : List Stage}

/-- Outer joins give the rows that can be picked. -/
theorem mem_frames_joinStages {left : Source} {f : Frame} :
    f ∈ (joinStages .leftOuter left stages).frames d db ↔
      ∃ x ∈ left.frames d db, ∃ picks, Picks d db x stages picks ∧ f = x.along stages picks := by
  induction stages generalizing left with
  | nil =>
    constructor
    · intro hf
      exact ⟨f, hf, [], .done f, rfl⟩
    · rintro ⟨x, hx, picks, hpicks, rfl⟩
      cases hpicks
      exact hx
  | cons stage stages ih =>
    rw [joinStages, ih]
    constructor
    · rintro ⟨z, hz, picks, hpicks, rfl⟩
      obtain ⟨x, hx, ⟨y, hy, rfl, hon⟩ | ⟨hnone, rfl⟩⟩ := Source.mem_frames_leftOuter.mp hz
      · exact ⟨x, hx, some y :: picks, .found hy hon hpicks, rfl⟩
      · exact ⟨x, hx, none :: picks, .missed hnone hpicks, rfl⟩
    · rintro ⟨x, hx, picks, hpicks, rfl⟩
      cases hpicks with
      | found hy hon hrest =>
        exact ⟨_, Source.mem_frames_leftOuter.mpr ⟨x, hx, .inl ⟨_, hy, rfl, hon⟩⟩, _, hrest, rfl⟩
      | missed hnone hrest =>
        exact ⟨_, Source.mem_frames_leftOuter.mpr ⟨x, hx, .inr ⟨hnone, rfl⟩⟩, _, hrest, rfl⟩

/-- Something can always be picked, so no row of the parent goes. -/
theorem exists_picks (x : Frame) (stages : List Stage) : ∃ picks, Picks d db x stages picks := by
  induction stages generalizing x with
  | nil => exact ⟨[], .done x⟩
  | cons stage stages ih =>
    by_cases hfound : ∃ y ∈ stage.source.frames d db, stage.on.Holds d (x ++ y)
    · obtain ⟨y, hy, hon⟩ := hfound
      obtain ⟨picks, hpicks⟩ := ih (x ++ y)
      exact ⟨_, .found hy hon hpicks⟩
    · obtain ⟨picks, hpicks⟩ := ih (x ++ stage.source.blank)
      exact ⟨_, .missed (fun y hy hon => hfound ⟨y, hy, hon⟩) hpicks⟩

theorem picks_map_some {ys : List Frame} :
    Picks d db x stages (ys.map some) ↔ FullChoice d db x stages ys := by
  induction stages generalizing x ys with
  | nil =>
    cases ys with
    | nil => exact ⟨fun _ => trivial, fun _ => .done x⟩
    | cons y ys => exact ⟨fun h => (by cases h), False.elim⟩
  | cons stage stages ih =>
    cases ys with
    | nil => exact ⟨fun h => (by cases h), False.elim⟩
    | cons y ys =>
      rw [List.map_cons, FullChoice, ← ih]
      constructor
      · rintro (_ | ⟨hy, hon, hrest⟩)
        exact ⟨hy, hon, hrest⟩
      · rintro ⟨hy, hon, hrest⟩
        exact .found hy hon hrest

/-- The last stage comes after what was picked on the others. -/
theorem picks_concat {stage : Stage} {all : List (Option Frame)} :
    Picks d db x (stages ++ [stage]) all ↔ ∃ picks pick, all = picks ++ [pick] ∧ Picks d db x stages picks ∧
      Picks d db (x.along stages picks) [stage] [pick] := by
  induction stages generalizing x all with
  | nil =>
    constructor
    · intro h
      cases h with
      | found hy hon hrest =>
        cases hrest
        exact ⟨[], _, rfl, .done x, .found hy hon (.done _)⟩
      | missed hnone hrest =>
        cases hrest
        exact ⟨[], _, rfl, .done x, .missed hnone (.done _)⟩
    · rintro ⟨picks, pick, rfl, hpicks, hlast⟩
      cases hpicks
      exact hlast
  | cons first stages ih =>
    rw [List.cons_append]
    constructor
    · intro h
      cases h with
      | found hy hon hrest =>
        obtain ⟨picks, pick, rfl, hpicks, hlast⟩ := ih.mp hrest
        exact ⟨_ :: picks, pick, rfl, .found hy hon hpicks, hlast⟩
      | missed hnone hrest =>
        obtain ⟨picks, pick, rfl, hpicks, hlast⟩ := ih.mp hrest
        exact ⟨_ :: picks, pick, rfl, .missed hnone hpicks, hlast⟩
    · rintro ⟨picks, pick, rfl, hpicks, hlast⟩
      cases hpicks with
      | found hy hon hrest => exact .found hy hon (ih.mpr ⟨_, pick, rfl, hrest, hlast⟩)
      | missed hnone hrest => exact .missed hnone (ih.mpr ⟨_, pick, rfl, hrest, hlast⟩)

/-- The last stage is blank where what was picked before leads no further. -/
theorem picks_concat_none {stage : Stage} {picks : List (Option Frame)} :
    Picks d db x (stages ++ [stage]) (picks ++ [none]) ↔ Picks d db x stages picks ∧
      ∀ y ∈ stage.source.frames d db, ¬stage.on.Holds d (x.along stages picks ++ y) := by
  rw [picks_concat]
  constructor
  · rintro ⟨front, pick, heq, hpicks, hlast⟩
    obtain ⟨rfl, hpick⟩ := List.append_inj' heq rfl
    cases hpick
    cases hlast with
    | missed hnone _ => exact ⟨hpicks, hnone⟩
  · rintro ⟨hpicks, hnone⟩
    exact ⟨picks, none, rfl, hpicks, .missed hnone (.done _)⟩

theorem Frame.row_append_of_notMem {f g : Frame} {q : String} (h : q ∉ f.map Prod.fst) :
    (f ++ g).row q = g.row q := by
  induction f with
  | nil => rfl
  | cons part f ih =>
    rw [List.map_cons, List.mem_cons, not_or] at h
    rw [List.cons_append, Frame.row_cons, if_neg h.1, ih h.2]

theorem Frame.row_append_of_mem {f g : Frame} {q : String} (h : q ∈ f.map Prod.fst) :
    (f ++ g).row q = f.row q := by
  induction f with
  | nil => cases h
  | cons part f ih =>
    rw [List.cons_append, Frame.row_cons, Frame.row_cons]
    by_cases hq : q = part.1
    · rw [if_pos hq, if_pos hq]
    · rw [List.map_cons, List.mem_cons] at h
      rw [if_neg hq, if_neg hq, ih (h.resolve_left hq)]

theorem Source.row_blank (s : Source) (q : String) : s.blank.row q = [] := by
  unfold blank
  induction s.qualifiers with
  | nil => rfl
  | cons name qs ih =>
    rw [List.map_cons, Frame.row_cons, ih, ite_self]

theorem Source.keys_blank (s : Source) : s.blank.map Prod.fst = s.qualifiers := by
  rw [blank, List.map_map]
  exact List.map_id _

theorem Source.keys_of_mem_frames {s : Source} {f : Frame} (h : f ∈ s.frames d db) :
    f.map Prod.fst = s.qualifiers := by
  induction s generalizing f with
  | table t =>
    obtain ⟨row, -, rfl⟩ := mem_frames_table.mp h
    rfl
  | query distinct projection source filter label =>
    rw [frames, List.mem_map] at h
    obtain ⟨row, -, rfl⟩ := h
    rfl
  | join kind left right on hl hr =>
    cases kind with
    | inner =>
      obtain ⟨x, hx, y, hy, rfl, -⟩ := mem_frames_inner.mp h
      rw [List.map_append, hl hx, hr hy, qualifiers]
    | leftOuter =>
      obtain ⟨x, hx, ⟨y, hy, rfl, -⟩ | ⟨-, rfl⟩⟩ := mem_frames_leftOuter.mp h
      · rw [List.map_append, hl hx, hr hy, qualifiers]
      · rw [List.map_append, hl hx, keys_blank, qualifiers]

/-- The tables of a blank stage have nothing, where no qualifier comes twice. -/
theorem row_append_blank {stage : Stage}
    (hn : (x.map Prod.fst ++ (stage :: stages).flatMap (·.source.qualifiers)).Nodup) :
    (∀ q ∈ stage.source.qualifiers, (x ++ stage.source.blank).row q = []) ∧
      ((x ++ stage.source.blank).map Prod.fst ++ stages.flatMap (·.source.qualifiers)).Nodup := by
  rw [List.flatMap_cons] at hn
  constructor
  · intro q hq
    have hother : q ∉ x.map Prod.fst := fun hx =>
      (List.nodup_append.mp hn).2.2 q hx q (List.mem_append_left _ hq) rfl
    rw [Frame.row_append_of_notMem hother, Source.row_blank]
  · rw [List.map_append, Source.keys_blank, List.append_assoc]
    exact hn

/-- Once a stage is blank, so are all after it. -/
theorem Picks.eq_none_of_blank {before : Stage} {picks : List (Option Frame)} (h : Picks d db x stages picks)
    (hchain : (before :: stages).IsChain (Stage.NeedsBefore d db))
    (hblank : ∀ q ∈ before.source.qualifiers, x.row q = [])
    (hn : (x.map Prod.fst ++ stages.flatMap (·.source.qualifiers)).Nodup) :
    ∀ pick ∈ picks, pick = none := by
  induction h generalizing before with
  | done => simp
  | found hy hon _ _ =>
    have hnone := (List.isChain_cons_cons.mp hchain).1 _ hblank _ hy
    exact absurd hon hnone
  | missed _ _ ih =>
    obtain ⟨hown, hkeys⟩ := row_append_blank hn
    intro pick hp
    rcases List.mem_cons.mp hp with rfl | hp
    · rfl
    · exact ih (List.isChain_cons_cons.mp hchain).2 hown hkeys pick hp

/-- So a row on the last stage means that there is one on every stage. -/
theorem Picks.none_notMem {picks : List (Option Frame)} {y : Frame}
    (h : Picks d db x stages (picks ++ [some y])) (hchain : stages.IsChain (Stage.NeedsBefore d db))
    (hn : (x.map Prod.fst ++ stages.flatMap (·.source.qualifiers)).Nodup) : none ∉ picks := by
  induction picks generalizing x stages with
  | nil => exact List.not_mem_nil
  | cons pick picks ih =>
    cases h with
    | @found _ z stage stages _ hz _ hrest =>
      have hkeys : ((x ++ z).map Prod.fst ++ stages.flatMap (·.source.qualifiers)).Nodup := by
        rw [List.map_append, Source.keys_of_mem_frames hz, List.append_assoc]
        exact hn
      simpa using ih hrest hchain.of_cons hkeys
    | missed _ hrest =>
      obtain ⟨hown, hkeys⟩ := row_append_blank hn
      have hlast := hrest.eq_none_of_blank hchain hown hkeys (some y) (by simp)
      cases hlast

theorem Picks.exists_fullChoice {picks : List (Option Frame)} {y : Frame}
    (h : Picks d db x stages (picks ++ [some y])) (hchain : stages.IsChain (Stage.NeedsBefore d db))
    (hn : (x.map Prod.fst ++ stages.flatMap (·.source.qualifiers)).Nodup) :
    ∃ ys, picks = ys.map some ∧ FullChoice d db x stages (ys ++ [y]) := by
  obtain ⟨ys, hys⟩ : ∃ ys : List Frame, ys.map some = picks := by
    have hnone := h.none_notMem hchain hn
    clear h
    induction picks with
    | nil => exact ⟨[], rfl⟩
    | cons pick picks ih =>
      rw [List.mem_cons, not_or] at hnone
      obtain ⟨z, rfl⟩ := Option.ne_none_iff_exists'.mp (Ne.symm hnone.1)
      obtain ⟨ys, rfl⟩ := ih hnone.2
      exact ⟨z :: ys, rfl⟩
  refine ⟨ys, hys.symm, picks_map_some.mp ?_⟩
  rw [List.map_append, hys]
  exact h

end

/-- The rows that an optional child is joined with by way of any tables. They are those that can be picked
stage by stage. Each row of the parent is there, and it is there with every full choice of rows on the way. It
is there with nothing for the child if and only if something that can be picked on the tables before leads to no
row of the child. And where no condition is true without a row on the stage before, it is there with a row of
the child in full choices only. -/
theorem absorb_optional_rows {setup : Setup} {parent child : Node} {r below : Relation}
    {hops : List JoinClause} {on : Term} (hoptional : child.isOptional = true)
    (hjoins : setup.catalog.joins parent child r.table below.table = hops ++ [⟨below.table, on⟩])
    (hhops : ∀ hop ∈ hops, hop.table ≠ below.table) :
    ∃ joined, absorb setup parent r child below = .ok joined ∧ ∀ (d : Dialect) (db : Database),
      (∀ f, f ∈ joined.source.frames d db ↔ ∃ x ∈ r.source.frames d db, ∃ picks,
        Picks d db x (wayTo hops below on) picks ∧ f = x.along (wayTo hops below on) picks) ∧
      ∀ x ∈ r.source.frames d db,
        (∃ picks, Picks d db x (wayTo hops below on) picks) ∧
        (∀ ys, Picks d db x (wayTo hops below on) (ys.map some) ↔
          FullChoice d db x (wayTo hops below on) ys) ∧
        (∀ picks, Picks d db x (wayTo hops below on) (picks ++ [none]) ↔
          Picks d db x (hops.map Stage.ofClause) picks ∧
            ∀ y ∈ below.source.frames d db, ¬on.Holds d (x.along (hops.map Stage.ofClause) picks ++ y)) ∧
        ((r.source.qualifiers ++ (wayTo hops below on).flatMap (·.source.qualifiers)).Nodup →
          (wayTo hops below on).IsChain (Stage.NeedsBefore d db) →
          ∀ picks y, Picks d db x (wayTo hops below on) (picks ++ [some y]) →
            ∃ ys, picks = ys.map some ∧ FullChoice d db x (wayTo hops below on) (ys ++ [y])) := by
  obtain ⟨joined, hjoined, hsource⟩ := absorb_eq_joinStages hjoins hhops
  have hkind : joinKind child = .leftOuter := if_pos hoptional
  refine ⟨joined, hjoined, fun d db => ⟨?_, ?_⟩⟩
  · intro f
    rw [hsource, hkind, mem_frames_joinStages]
  · intro x hx
    refine ⟨exists_picks x _, fun ys => picks_map_some, fun picks => picks_concat_none, ?_⟩
    intro hn hchain picks y hpicks
    rw [← Source.keys_of_mem_frames hx] at hn
    exact hpicks.exists_fullChoice hchain hn

def friendCatalog : Catalog where
  table relation := ⟨none, relation⟩
  tableNamed name := ⟨none, name⟩
  edge _ := none
  joins _ _ parent child :=
    let between := Table.bind ⟨none, "friendship"⟩ "via"
    [⟨between, .equal (between.column "animal_id") (parent.column "id")⟩,
      ⟨child, .equal (child.column "id") (between.column "friend_id")⟩]
  column selection table := table.column selection.field
  condition _ _ table := .ok (.isNotNull (table.column "id"))
  presence _ table := table.column "id"
  combinator := "union"

def friendSetup : Setup := ⟨friendCatalog, .standard, .union⟩

def animalNode : Node := .new (.root "Animal") "animal" .root

def friendNode : Node :=
  .new ((Location.root "Animal").descend "out_Friend") "animal" (.traverse ⟨.outward, "Friend", true, false⟩)

/-- The relation of animals by themselves. -/
def animals (label : String) : Relation where
  table := Table.bind ⟨none, "animal"⟩ label
  source := .table (Table.bind ⟨none, "animal"⟩ label)
  outputs := []
  conditions := []
  links := []

def friendship : JoinClause where
  table := Table.bind ⟨none, "friendship"⟩ "via"
  on := .equal (.column (some "via") "animal_id") (.column (some "animal_1") "id")

def befriended : Term := .equal (.column (some "animal_2") "id") (.column (some "via") "friend_id")

/-- Two animals. The first has the second for a friend, and one that is not there. -/
def friends : Database := fun t =>
  if t.name = "friendship" then
    [[("animal_id", .int 1), ("friend_id", .int 2)], [("animal_id", .int 1), ("friend_id", .int 9)]]
  else [[("id", .int 1)], [("id", .int 2)]]

theorem absorb_optional_rows_friends : ∃ joined,
    absorb friendSetup animalNode (animals "animal_1") friendNode (animals "animal_2") = .ok joined ∧
    (∀ f, f ∈ joined.source.frames .plain friends ↔ ∃ x ∈ (animals "animal_1").source.frames .plain friends,
      ∃ picks, Picks .plain friends x (wayTo [friendship] (animals "animal_2") befriended) picks ∧
        f = x.along (wayTo [friendship] (animals "animal_2") befriended) picks) ∧
    ∀ x ∈ (animals "animal_1").source.frames .plain friends, ∀ picks y,
      Picks .plain friends x (wayTo [friendship] (animals "animal_2") befriended) (picks ++ [some y]) →
      ∃ ys, picks = ys.map some ∧
        FullChoice .plain friends x (wayTo [friendship] (animals "animal_2") befriended) (ys ++ [y]) := by
  have hoptional : friendNode.isOptional = true := rfl
  have hjoins : friendSetup.catalog.joins animalNode friendNode (animals "animal_1").table
      (animals "animal_2").table = [friendship] ++ [⟨(animals "animal_2").table, befriended⟩] := rfl
  obtain ⟨joined, hjoined, hrows⟩ := absorb_optional_rows hoptional hjoins (by decide)
  obtain ⟨hframes, hpicks⟩ := hrows .plain friends
  refine ⟨joined, hjoined, hframes, fun x hx => (hpicks x hx).2.2.2 (by decide) ?_⟩
  -- a friend is not equal to the null that stands for a friendship
  refine List.isChain_cons_cons.mpr ⟨?_, .singleton _⟩
  intro z hz y hy hholds
  obtain ⟨row, -, rfl⟩ := Source.mem_frames_table.mp hy
  have hvia : (z ++ [("animal_2", row)] : Frame).row "via" = [] := by
    by_cases hmem : "via" ∈ z.map Prod.fst
    · rw [Frame.row_append_of_mem hmem]
      exact hz "via" (by decide)
    · rw [Frame.row_append_of_notMem hmem]
      rfl
  have hnull : befriended.eval .plain (z ++ [("animal_2", row)]) = .null := by
    rw [befriended, Term.equal, Term.eval, Term.eval, Term.eval, Frame.get, Frame.get, hvia]
    exact ((Dialect.plain_standard "").compareNull _ _).2
  exact absurd (hnull.symm.trans hholds) (by decide)

theorem absorb_optional_dangles : ∃ joined, friendNode.isOptional = true ∧
    friendCatalog.joins animalNode friendNode (animals "animal_1").table (animals "animal_2").table =
      [friendship] ++ [⟨(animals "animal_2").table, befriended⟩] ∧
    friendship.table ≠ (animals "animal_2").table ∧
    absorb friendSetup animalNode (animals "animal_1") friendNode (animals "animal_2") = .ok joined ∧
    ∃ x ∈ (animals "animal_1").source.frames .plain friends,
      (∃ ys, FullChoice .plain friends x (wayTo [friendship] (animals "animal_2") befriended) ys) ∧
      ∃ via, x ++ via ++ (animals "animal_2").source.blank ∈ joined.source.frames .plain friends := by
  refine ⟨_, rfl, rfl, by decide, rfl, [("animal_1", [("id", .int 1)])], by decide, ?_, ?_⟩
  · refine ⟨[[("via", [("animal_id", .int 1), ("friend_id", .int 2)])], [("animal_2", [("id", .int 2)])]], ?_⟩
    exact ⟨by decide, by decide, by decide, by decide, trivial⟩
  · exact ⟨[("via", [("animal_id", .int 1), ("friend_id", .int 9)])], by decide⟩

end GraphPlan.Sql
