import GraphPlan.Proofs.Recursion.Path
import GraphPlan.Proofs.Recursion.Trail
import GraphPlan.Proofs.Sql.Dialect
import Mathlib.Data.Nat.Find

/-!
What a recursion computes. The rows that are new in a round are the trails of one length, so that no row
comes back in a later round and the kind of union makes no difference; the depth column ends the rounds.
-/

namespace GraphPlan.Sql

/-- A column that only has integers and nulls. -/
def IntegerColumn (rows : List Row) (column : String) : Prop :=
  ∀ row ∈ rows, row.get column = .null ∨ ∃ z : Int, row.get column = .int z

/-- An integer is among the values of a column. -/
def HasInt (rows : List Row) (column : String) (z : Int) : Prop :=
  ∃ row ∈ rows, row.get column = .int z

/-- Integers are equal as integers are, and null is equal to nothing. -/
theorem Dialect.Standard.equal_true {d : Dialect} {textType : String} (hd : d.Standard textType)
    {a b : Constant} (ha : a = .null ∨ ∃ z, a = .int z) (hb : b = .null ∨ ∃ z, b = .int z) :
    (d.compare .eq a b).IsTrue ↔ ∃ z, a = .int z ∧ b = .int z := by
  rcases ha with rfl | ⟨x, rfl⟩
  · simp [(hd.compareNull .eq b).1]
  · rcases hb with rfl | ⟨y, rfl⟩
    · simp [(hd.compareNull .eq (.int x)).2]
    · simp [hd.equal, eq_comm]

/-- What a recursion is about: the vertices in a column of a table, the edges between them, the links of
the parent, and the number of hops. -/
structure Course where
  vertices : Table
  base : String
  edges : Table
  source : String
  sink : String
  parent : Table
  link : String
  depth : Nat

namespace Course

/-- All columns hold integers. -/
structure Integers (c : Course) (db : Database) : Prop where
  base : IntegerColumn (db c.vertices) c.base
  source : IntegerColumn (db c.edges) c.source
  sink : IntegerColumn (db c.edges) c.sink
  link : IntegerColumn (db c.parent) c.link

/-- A vertex that the parent links to. -/
def Start (c : Course) (db : Database) (u : Int) : Prop :=
  HasInt (db c.parent) c.link u ∧ HasInt (db c.vertices) c.base u

/-- One hop along the edges. -/
def Hop (c : Course) (db : Database) (v w : Int) : Prop :=
  ∃ row ∈ db c.edges, row.get c.sink = .int v ∧ row.get c.source = .int w

/-- The rounds of a recursive expression come to an end once the hops are used up, if not before, and
relate the vertices that are reached with those that the parent links to, whatever the kind of union. -/
def ComputedBy (c : Course) (d : Dialect) (db : Database) (name : String) (anchor step : Select) :
    Prop :=
  ∀ combinator, ∃ count ≤ c.depth + 1, ∃ rows,
    Finishes d db name anchor combinator step count rows ∧
    ∀ source sink, (∃ row ∈ rows, row.get c.source = source ∧ row.get c.sink = sink) ↔
      ∃ v u, source = .int v ∧ sink = .int u ∧ c.Start db u ∧ ReachedWithin (c.Hop db) u c.depth v

end Course

namespace Recursion

def course (r : Recursion) : Course where
  vertices := r.vertices.table
  base := r.track.base
  edges := r.edges.table
  source := r.track.source
  sink := r.track.sink
  parent := r.link.parent.table
  link := r.link.column
  depth := r.depth.toNat

/-- The names that a recursion needs apart are apart, and its delimiter can be told from its vertices. -/
structure Clear (r : Recursion) : Prop where
  columns : [r.track.source, r.track.sink, r.settings.depthColumn, r.settings.pathColumn].Nodup
  links : r.vertices.qualifier ≠ r.linkLabel
  edges : r.edges.qualifier ≠ r.previous.qualifier
  own : r.previous = .named r.previous.qualifier
  other : r.edges.table ≠ r.previous.table
  delimiter : r.settings.pathDelimiter ≠ ""
  marks : ∀ c ∈ r.settings.pathDelimiter.toList, isMark c = true
  plain : ∀ c ∈ r.settings.pathDelimiter.toList, Settings.isMetacharacter c = false

/-- The row of a trail. -/
def row (r : Recursion) (u v : Int) (older : List Int) : Row :=
  [(r.track.source, .int v), (r.track.sink, .int u), (r.settings.depthColumn, .int older.length),
    (r.settings.pathColumn, .text (pathText r.settings.pathDelimiter (v :: older)))]

section

variable {r : Recursion} {d : Dialect} {db : Database}

theorem row_get (hr : r.Clear) (u v : Int) (older : List Int) :
    (r.row u v older).get r.track.source = .int v ∧ (r.row u v older).get r.track.sink = .int u ∧
    (r.row u v older).get r.settings.depthColumn = .int older.length ∧
    (r.row u v older).get r.settings.pathColumn =
      .text (pathText r.settings.pathDelimiter (v :: older)) := by
  have hn := hr.columns
  simp only [List.nodup_cons, List.mem_cons, List.not_mem_nil, or_false, not_or] at hn
  obtain ⟨⟨hst, hsd, hsp⟩, ⟨htd, htp⟩, hdp, _⟩ := hn
  simp [row, Ne.symm hst, Ne.symm hsd, Ne.symm hsp, Ne.symm htd, Ne.symm htp, Ne.symm hdp]

theorem mem_parentLinks {row : Row} :
    row ∈ r.parentLinks.rows d db ↔
      ∃ x ∈ db r.link.parent.table, row = [(linkName, x.get r.link.column)] := by
  simp only [parentLinks, Select.rows, mem_selected, Source.mem_frames_table]
  constructor
  · rintro ⟨frame, ⟨x, hx, rfl⟩, _, rfl⟩
    exact ⟨x, hx, by simp [Item.labelled]⟩
  · rintro ⟨x, hx, rfl⟩
    exact ⟨_, ⟨x, hx, rfl⟩, by simp, by simp [Item.labelled]⟩

/-- The anchor joins a vertex with the links that are equal to it. -/
theorem mem_anchor_frames (hd : d.Standard r.settings.castType) (hr : r.Clear)
    (hi : r.course.Integers db) {frame : Frame} :
    frame ∈ r.anchor.source.frames d db ↔
      ∃ x ∈ db r.vertices.table, ∃ y ∈ db r.link.parent.table,
        frame = [(r.vertices.qualifier, x), (r.linkLabel, [(linkName, y.get r.link.column)])] ∧
        ∃ u, x.get r.track.base = .int u ∧ y.get r.link.column = .int u := by
  have hon : ∀ x ∈ db r.vertices.table, ∀ y ∈ db r.link.parent.table,
      (Term.equal r.base (.column (some r.linkLabel) linkName)).Holds d
        [(r.vertices.qualifier, x), (r.linkLabel, [(linkName, y.get r.link.column)])] ↔
      ∃ u, x.get r.track.base = .int u ∧ y.get r.link.column = .int u := by
    intro x hx y hy
    have hbase : x.get r.track.base = .null ∨ ∃ z, x.get r.track.base = .int z := hi.base x hx
    have hlink : y.get r.link.column = .null ∨ ∃ z, y.get r.link.column = .int z := hi.link y hy
    rw [← hd.equal_true hbase hlink]
    simp [Term.Holds, Term.equal, Term.eval, base, Frame.get, Ne.symm hr.links]
  simp only [anchor, Source.mem_frames_inner, Source.mem_frames_table, Source.mem_frames_toSource,
    mem_parentLinks]
  constructor
  · rintro ⟨_, ⟨x, hx, rfl⟩, _, ⟨_, ⟨y, hy, rfl⟩, rfl⟩, rfl, h⟩
    exact ⟨x, hx, y, hy, rfl, (hon x hx y hy).mp h⟩
  · rintro ⟨x, hx, y, hy, rfl, h⟩
    exact ⟨_, ⟨x, hx, rfl⟩, _, ⟨_, ⟨y, hy, rfl⟩, rfl⟩, rfl, (hon x hx y hy).mpr h⟩

/-- The anchor has the trails of no hop. -/
theorem mem_anchor (hd : d.Standard r.settings.castType) (hr : r.Clear) (hi : r.course.Integers db)
    {row : Row} : row ∈ r.anchor.rows d db ↔ ∃ u, r.course.Start db u ∧ row = r.row u u [] := by
  have hrow : ∀ (x y : Row) (u : Int), x.get r.track.base = .int u →
      (r.anchor.projection.map fun item => (item.label.getD "", item.term.eval d
        [(r.vertices.qualifier, x), (r.linkLabel, y)])) = r.row u u [] := by
    intro x y u hx
    have hpath := hd.concat [r.settings.pathDelimiter, intText u, r.settings.pathDelimiter]
    simp only [List.map_cons, List.map_nil, ← hd.cast] at hpath
    simp [anchor, projection, Item.labelled, Recursion.row, base, onPath, delimiter, Term.eval,
      Term.evalEach, Term.int, Term.text, hx, hpath, pathText, String.join]
  rw [Select.rows, mem_selected]
  constructor
  · rintro ⟨frame, hframe, _, rfl⟩
    obtain ⟨x, hx, y, hy, rfl, u, hxu, hyu⟩ := (mem_anchor_frames hd hr hi).mp hframe
    exact ⟨u, ⟨⟨y, hy, hyu⟩, ⟨x, hx, hxu⟩⟩, hrow x _ u hxu⟩
  · rintro ⟨u, ⟨⟨y, hy, hyu⟩, ⟨x, hx, hxu⟩⟩, rfl⟩
    refine ⟨_, (mem_anchor_frames hd hr hi).mpr ⟨x, hx, y, hy, rfl, u, hxu, hyu⟩, ?_, ?_⟩
    · simp [anchor]
    · exact (hrow x _ u hxu).symm

/-- The frame in which a step looks at an edge and at a row that is new. -/
def stepFrame (r : Recursion) (edge row : Row) : Frame :=
  [(r.edges.qualifier, edge), (r.previous.qualifier, row)]

theorem stepFrame_rows (h : r.edges.qualifier ≠ r.previous.qualifier) (edge row : Row) :
    (r.stepFrame edge row).row r.edges.qualifier = edge ∧
      (r.stepFrame edge row).row r.previous.qualifier = row := by
  simp [stepFrame, Ne.symm h]

/-- A vertex counts as unvisited where its text is not found on the path between two delimiters. -/
theorem unvisited_iff (hd : d.Standard r.settings.castType) {frame : Frame} {path word : String}
    (hdelimiter : ∀ c ∈ r.settings.pathDelimiter.toList, Settings.isMetacharacter c = false)
    (hplain : ∀ c ∈ word.toList, Settings.isMetacharacter c = false)
    (hpath : (frame.row r.previous.qualifier).get r.settings.pathColumn = .text path)
    (hword : d.cast r.settings.castType (r.next.eval d frame) = .text word) :
    r.unvisited.Holds d frame ↔
      ¬r.settings.pathDelimiter.toList ++ word.toList ++ r.settings.pathDelimiter.toList <:+:
        path.toList := by
  have hconcat := hd.concat ["%" ++ r.settings.pathDelimiter, word, r.settings.pathDelimiter ++ "%"]
  have hpattern : (String.join ["%" ++ r.settings.pathDelimiter, word,
      r.settings.pathDelimiter ++ "%"]).toList =
      '%' :: (r.settings.pathDelimiter.toList ++ word.toList ++ r.settings.pathDelimiter.toList ++
        ['%']) := by
    simp [String.join, String.toList_append]
  simp only [List.map_cons, List.map_nil, ← hword] at hconcat
  have heval : r.unvisited.eval d frame = .neg (.bool (likeMatch ('%' ::
      (r.settings.pathDelimiter.toList ++ word.toList ++ r.settings.pathDelimiter.toList ++ ['%']))
        path.toList)) := by
    rw [← hpattern, ← hd.like, ← hconcat, ← hpath]
    simp [unvisited, onPath, Term.eval, Term.evalEach, Term.text]
  have hbetween : ∀ c ∈ r.settings.pathDelimiter.toList ++ word.toList ++
      r.settings.pathDelimiter.toList, Settings.isMetacharacter c = false := by
    simp only [List.forall_mem_append]
    exact ⟨⟨hdelimiter, hplain⟩, hdelimiter⟩
  unfold Term.Holds
  rw [heval, Constant.neg_true, Constant.bool.injEq, Bool.eq_false_iff, Ne, likeMatch_anywhere hbetween]

/-- The step goes to vertices that are not on the path. -/
theorem unvisited_holds (hd : d.Standard r.settings.castType) (hr : r.Clear) {edge : Row}
    (he : edge.get r.track.source = .null ∨ ∃ z, edge.get r.track.source = .int z) (u v : Int)
    (older : List Int) :
    r.unvisited.Holds d (r.stepFrame edge (r.row u v older)) ↔
      ∃ w, edge.get r.track.source = .int w ∧ w ∉ v :: older := by
  have hframe := stepFrame_rows hr.edges edge (r.row u v older)
  have hget := row_get hr u v older
  have hnext : r.next.eval d (r.stepFrame edge (r.row u v older)) = edge.get r.track.source := by
    rw [next, eval_column, hframe.1]
  rcases he with he | ⟨w, hw⟩
  · have hnull : r.unvisited.eval d (r.stepFrame edge (r.row u v older)) = .null := by
      rw [unvisited, Term.eval, Term.eval, Term.eval, Term.evalEach, Term.evalEach, onPath, Term.eval,
        hnext, he, hd.castNull, hd.concatNull _ (by simp), hd.likeNull]
      rfl
    simp [Term.Holds, hnull, he]
  · have hmarks : ∃ c ∈ r.settings.pathDelimiter.toList, isMark c = true := by
      obtain ⟨c, rest, hc⟩ := List.exists_cons_of_ne_nil (mt String.toList_eq_nil_iff.mp hr.delimiter)
      have hmem : c ∈ r.settings.pathDelimiter.toList := hc ▸ List.mem_cons_self
      exact ⟨c, hmem, hr.marks c hmem⟩
    have hpath : ((r.stepFrame edge (r.row u v older)).row r.previous.qualifier).get
        r.settings.pathColumn =
          .text (wordPath r.settings.pathDelimiter ((v :: older).reverse.map intText)) := by
      rw [hframe.2, hget.2.2.2, pathText_eq]
    have hword : d.cast r.settings.castType (r.next.eval d (r.stepFrame edge (r.row u v older))) =
        .text (intText w) := by
      rw [hnext, hw, hd.cast]
    rw [unvisited_iff hd hr.plain (intText_plain w) hpath hword,
      intText_between_iff hmarks fun n _ => intText_chars n, List.mem_reverse]
    simp [hw]

theorem withinDepth_holds (hd : d.Standard r.settings.castType) (hr : r.Clear) (edge : Row)
    (u v : Int) (older : List Int) :
    r.withinDepth.Holds d (r.stepFrame edge (r.row u v older)) ↔ older.length < r.depth.toNat := by
  have hframe := stepFrame_rows hr.edges edge (r.row u v older)
  have hget := row_get hr u v older
  simp [Term.Holds, withinDepth, Term.eval, Term.int, hframe, hget, hd.less]

/-- A step goes from the last vertex of a path along an edge. -/
theorem mem_step_frames (hd : d.Standard r.settings.castType) (hr : r.Clear)
    (hi : r.course.Integers db) {working : List Row} {found : Int → Int → List Int → Prop}
    (hw : ∀ row, row ∈ working ↔ ∃ u v older, found u v older ∧ row = r.row u v older)
    {frame : Frame} :
    frame ∈ r.step.source.frames d (db.put r.previous.qualifier working) ↔
      ∃ edge ∈ db r.edges.table, ∃ u v older, found u v older ∧
        frame = r.stepFrame edge (r.row u v older) ∧ edge.get r.track.sink = .int v := by
  have hon : ∀ edge ∈ db r.edges.table, ∀ u v older,
      (Term.equal (r.edges.column r.track.sink) (r.previous.column r.track.source)).Holds d
        (r.stepFrame edge (r.row u v older)) ↔ edge.get r.track.sink = .int v := by
    intro edge he u v older
    have hframe := stepFrame_rows hr.edges edge (r.row u v older)
    have hget := row_get hr u v older
    have hsink : edge.get r.track.sink = .null ∨ ∃ z, edge.get r.track.sink = .int z :=
      hi.sink edge he
    have heq := hd.equal_true hsink (Or.inr ⟨v, rfl⟩)
    simp only [Term.Holds, Term.equal, Term.eval, eval_column, hframe, hget, heq]
    simp
  have hedges : (db.put r.previous.qualifier working) r.edges.table = db r.edges.table := by
    have hne : r.edges.table ≠ ⟨none, r.previous.qualifier⟩ := by
      intro h
      apply hr.other
      rw [h, hr.own]
      rfl
    simp [Database.put, hne]
  have hown : (db.put r.previous.qualifier working) r.previous.table = working := by
    have heq : r.previous.table = ⟨none, r.previous.qualifier⟩ := by
      rw [hr.own]
      rfl
    simp [Database.put, heq]
  simp only [step, Source.mem_frames_inner, Source.mem_frames_table, hedges, hown]
  constructor
  · rintro ⟨_, ⟨edge, he, rfl⟩, _, ⟨row, hrow, rfl⟩, rfl, h⟩
    obtain ⟨u, v, older, hf, rfl⟩ := (hw row).mp hrow
    exact ⟨edge, he, u, v, older, hf, rfl, (hon edge he u v older).mp h⟩
  · rintro ⟨edge, he, u, v, older, hf, rfl, h⟩
    exact ⟨_, ⟨edge, he, rfl⟩, _, ⟨_, (hw _).mpr ⟨u, v, older, hf, rfl⟩, rfl⟩, rfl,
      (hon edge he u v older).mpr h⟩

/-- The row that a step projects has the edge's source at the head of the path. -/
theorem step_projection (hd : d.Standard r.settings.castType) (hr : r.Clear) {edge : Row} {w : Int}
    (he : edge.get r.track.source = .int w) (u v : Int) (older : List Int) :
    Row.rename (labels r.anchor.projection) (r.step.projection.map fun item =>
      (item.label.getD "", item.term.eval d (r.stepFrame edge (r.row u v older)))) =
    r.row u w (v :: older) := by
  have hframe := stepFrame_rows hr.edges edge (r.row u v older)
  have hget := row_get hr u v older
  have hpath := hd.concat [pathText r.settings.pathDelimiter (v :: older), intText w,
    r.settings.pathDelimiter]
  simp only [List.map_cons, List.map_nil, ← hd.cast] at hpath
  have hvalues : (r.step.projection.map fun item =>
      (item.label.getD "", item.term.eval d (r.stepFrame edge (r.row u v older)))) =
      r.row u w (v :: older) := by
    simp only [step, projection, Item.labelled, List.map_cons, List.map_nil, Option.getD_some, next,
      onPath, delimiter, Term.eval, Term.evalEach, Term.int, Term.text, eval_column, hframe, hget, he,
      hpath, hd.add]
    simp [Recursion.row, pathText, String.join]
  rw [hvalues]
  simp [labels, anchor, projection, Item.labelled, Row.rename, Recursion.row]

theorem step_filter_holds (hd : d.Standard r.settings.castType) (hr : r.Clear)
    (hi : r.course.Integers db) {edge : Row} (he : edge ∈ db r.edges.table) (u v : Int)
    (older : List Int) :
    (∀ condition ∈ r.step.filter, condition.Holds d (r.stepFrame edge (r.row u v older))) ↔
      older.length < r.depth.toNat ∧ ∃ w, edge.get r.track.source = .int w ∧ w ∉ v :: older := by
  rw [← withinDepth_holds hd hr edge u v older, ← unvisited_holds hd hr (hi.source edge he) u v older]
  have hand : r.step.filter = some (.and [r.withinDepth, r.unvisited]) := rfl
  rw [hand]
  simp only [Option.mem_some_iff, forall_eq', Term.Holds, Term.eval, Constant.conj_true,
    Term.evalEach, List.forall_mem_cons, List.not_mem_nil, false_imp_iff, implies_true, and_true]

/-- A step makes each path that is not too long one vertex longer, in every way that comes to no vertex
twice. -/
theorem mem_step (hd : d.Standard r.settings.castType) (hr : r.Clear)
    (hi : r.course.Integers db) {working : List Row} {found : Int → Int → List Int → Prop}
    (hw : ∀ row, row ∈ working ↔ ∃ u v older, found u v older ∧ row = r.row u v older)
    {row : Row} :
    row ∈ (r.step.rows d (db.put r.previous.qualifier working)).map
        (Row.rename (labels r.anchor.projection)) ↔
      ∃ u v older w, found u v older ∧ r.course.Hop db v w ∧ w ∉ v :: older ∧
        older.length < r.depth.toNat ∧ row = r.row u w (v :: older) := by
  simp only [List.mem_map, Select.rows, mem_selected]
  constructor
  · rintro ⟨_, ⟨frame, hframe, hcondition, rfl⟩, rfl⟩
    obtain ⟨edge, he, u, v, older, hf, rfl, hsink⟩ := (mem_step_frames hd hr hi hw).mp hframe
    obtain ⟨hdepth, w, hsource, hvisit⟩ := (step_filter_holds hd hr hi he u v older).mp hcondition
    exact ⟨u, v, older, w, hf, ⟨edge, he, hsink, hsource⟩, hvisit, hdepth,
      step_projection hd hr hsource u v older⟩
  · rintro ⟨u, v, older, w, hf, ⟨edge, he, hsink, hsource⟩, hvisit, hdepth, rfl⟩
    refine ⟨_, ⟨_, (mem_step_frames hd hr hi hw).mpr ⟨edge, he, u, v, older, hf, rfl, hsink⟩,
      (step_filter_holds hd hr hi he u v older).mpr ⟨hdepth, w, hsource, hvisit⟩, rfl⟩, ?_⟩
    exact step_projection hd hr hsource u v older

/-- A trail of at most so many hops from a vertex that the parent links to. -/
structure Found (r : Recursion) (db : Database) (u v : Int) (older : List Int) : Prop where
  start : r.course.Start db u
  trail : Trail (r.course.Hop db) u (v :: older)
  depth : older.length ≤ r.depth.toNat

theorem length_eq_of_row_eq (hr : r.Clear) {u v u' v' : Int} {older older' : List Int}
    (h : r.row u v older = r.row u' v' older') : older.length = older'.length := by
  have hdepth := congrArg (Row.get · r.settings.depthColumn) h
  simp only [row_get hr, Constant.int.injEq] at hdepth
  exact Int.ofNat.inj hdepth

/-- The anchor has the trails without a hop. -/
theorem mem_anchor_found (hd : d.Standard r.settings.castType) (hr : r.Clear)
    (hi : r.course.Integers db) {row : Row} :
    row ∈ r.anchor.rows d db ↔
      ∃ u v older, (r.Found db u v older ∧ older.length = 0) ∧ row = r.row u v older := by
  rw [mem_anchor hd hr hi]
  constructor
  · rintro ⟨u, hu, rfl⟩
    exact ⟨u, u, [], ⟨⟨hu, .start, Nat.zero_le _⟩, rfl⟩, rfl⟩
  · rintro ⟨u, v, older, ⟨hf, hl⟩, rfl⟩
    obtain rfl := List.length_eq_zero_iff.mp hl
    have huv : v = u := by
      cases hf.trail
      rfl
    rw [huv]
    exact ⟨u, hf.start, rfl⟩

/-- A step on the trails of one length makes those of the next. -/
theorem mem_step_found (hd : d.Standard r.settings.castType) (hr : r.Clear)
    (hi : r.course.Integers db) {working : List Row} {n : Nat}
    (hw : ∀ row, row ∈ working ↔
      ∃ u v older, (r.Found db u v older ∧ older.length = n) ∧ row = r.row u v older) {row : Row} :
    row ∈ (r.step.rows d (db.put r.previous.qualifier working)).map
        (Row.rename (labels r.anchor.projection)) ↔
      ∃ u v older, (r.Found db u v older ∧ older.length = n + 1) ∧ row = r.row u v older := by
  rw [mem_step hd hr hi hw]
  constructor
  · rintro ⟨u, v, older, w, ⟨hf, hl⟩, hhop, hvisit, hdepth, rfl⟩
    exact ⟨u, w, v :: older, ⟨⟨hf.start, .further hf.trail hhop hvisit, hdepth⟩, by simp [hl]⟩, rfl⟩
  · rintro ⟨u, w, older, ⟨hf, hl⟩, rfl⟩
    obtain ⟨hstart, htrail, hdepth⟩ := hf
    cases htrail with
    | start => cases hl
    | @further v _ older trail next unvisited =>
      have hlen : older.length = n := by simpa using hl
      have hlt : older.length < r.depth.toNat := hdepth
      exact ⟨u, v, older, w, ⟨⟨hstart, trail, Nat.le_of_lt hlt⟩, hlen⟩, next, unvisited, hlt, rfl⟩

/-- Each round has the trails of its own length, and all rounds together have those up to it. -/
theorem mem_rounds (hd : d.Standard r.settings.castType) (hr : r.Clear) (hi : r.course.Integers db)
    (combinator : Combinator) (n : Nat) :
    (∀ row, row ∈ (rounds d db r.previous.qualifier r.anchor combinator r.step n).working ↔
      ∃ u v older, (r.Found db u v older ∧ older.length = n) ∧ row = r.row u v older) ∧
    ∀ row, row ∈ (rounds d db r.previous.qualifier r.anchor combinator r.step n).result ↔
      ∃ u v older, (r.Found db u v older ∧ older.length ≤ n) ∧ row = r.row u v older := by
  induction n with
  | zero =>
    have hmem : ∀ row, row ∈ combinator.fresh [] (r.anchor.rows d db) ↔
        ∃ u v older, (r.Found db u v older ∧ older.length = 0) ∧ row = r.row u v older := by
      intro row
      rw [combinator.mem_fresh (fun _ _ => List.not_mem_nil), mem_anchor_found hd hr hi]
    refine ⟨hmem, ?_⟩
    simp only [Nat.le_zero]
    exact hmem
  | succ n ih =>
    obtain ⟨hworking, hresult⟩ := ih
    have hstep := fun row => @mem_step_found r d db hd hr hi _ _ hworking row
    have hmem : ∀ row,
        row ∈ (rounds d db r.previous.qualifier r.anchor combinator r.step (n + 1)).working ↔
        ∃ u v older, (r.Found db u v older ∧ older.length = n + 1) ∧ row = r.row u v older := by
      intro row
      rw [rounds, combinator.mem_fresh ?_, hstep]
      -- what a step makes is longer than all that is there
      intro row hm hold
      obtain ⟨u, v, older, ⟨_, hl⟩, rfl⟩ := (hstep row).mp hm
      obtain ⟨u', v', older', ⟨_, hl'⟩, heq⟩ := (hresult _).mp hold
      have hlength := length_eq_of_row_eq hr heq
      omega
    refine ⟨hmem, ?_⟩
    intro row
    have happend : (rounds d db r.previous.qualifier r.anchor combinator r.step (n + 1)).result =
        (rounds d db r.previous.qualifier r.anchor combinator r.step n).result ++
        (rounds d db r.previous.qualifier r.anchor combinator r.step (n + 1)).working := rfl
    rw [happend, List.mem_append, hresult, hmem]
    constructor
    · rintro (⟨u, v, older, ⟨hf, hl⟩, rfl⟩ | ⟨u, v, older, ⟨hf, hl⟩, rfl⟩)
      · exact ⟨u, v, older, ⟨hf, Nat.le_succ_of_le hl⟩, rfl⟩
      · exact ⟨u, v, older, ⟨hf, Nat.le_of_eq hl⟩, rfl⟩
    · rintro ⟨u, v, older, ⟨hf, hl⟩, rfl⟩
      rcases Nat.le_succ_iff.mp hl with hl | hl
      · exact Or.inl ⟨u, v, older, ⟨hf, hl⟩, rfl⟩
      · exact Or.inr ⟨u, v, older, ⟨hf, hl⟩, rfl⟩

/-- The rounds come to an end once the depth is used up, if not before, and leave the rows of all trails. -/
theorem finishes (hd : d.Standard r.settings.castType) (hr : r.Clear) (hi : r.course.Integers db)
    (combinator : Combinator) :
    ∃ count ≤ r.depth.toNat + 1, ∃ rows,
      Finishes d db r.previous.qualifier r.anchor combinator r.step count rows ∧
      ∀ row, row ∈ rows ↔ ∃ u v older, r.Found db u v older ∧ row = r.row u v older := by
  have hmem := mem_rounds hd hr hi combinator
  have hend : (rounds d db r.previous.qualifier r.anchor combinator r.step
      (r.depth.toNat + 1)).working = [] := by
    apply List.eq_nil_iff_forall_not_mem.mpr
    intro row hrow
    obtain ⟨u, v, older, ⟨hf, hl⟩, _⟩ := ((hmem _).1 row).mp hrow
    have hdepth := hf.depth
    omega
  have hex : ∃ n, (rounds d db r.previous.qualifier r.anchor combinator r.step n).working = [] :=
    ⟨_, hend⟩
  classical
  refine ⟨Nat.find hex, Nat.find_min' hex hend, _, ⟨Nat.find_spec hex, fun n hn => Nat.find_min hex hn,
    rfl⟩, ?_⟩
  intro row
  rw [(hmem _).2]
  constructor
  · rintro ⟨u, v, older, ⟨hf, _⟩, rfl⟩
    exact ⟨u, v, older, hf, rfl⟩
  · rintro ⟨u, v, older, hf, rfl⟩
    refine ⟨u, v, older, ⟨hf, ?_⟩, rfl⟩
    -- a longer trail would have one of this length in it, which would be new in the last round
    by_contra hlong
    have hlt : Nat.find hex < (v :: older).length := by
      rw [List.length_cons]
      omega
    obtain ⟨w, before, ht, hl⟩ := hf.trail.shorten hlt
    have hdepth := hf.depth
    have hnew := ((hmem (Nat.find hex)).1 (r.row u w before)).mpr
      ⟨u, w, before, ⟨⟨hf.start, ht, by omega⟩, hl⟩, rfl⟩
    rw [Nat.find_spec hex] at hnew
    cases hnew

theorem course_computed (hd : d.Standard r.settings.castType) (hr : r.Clear)
    (hi : r.course.Integers db) :
    r.course.ComputedBy d db r.previous.qualifier r.anchor r.step := by
  intro combinator
  obtain ⟨count, hcount, rows, hfinish, hmem⟩ := finishes hd hr hi combinator
  refine ⟨count, hcount, rows, hfinish, ?_⟩
  intro source sink
  constructor
  · rintro ⟨row, hrow, rfl, rfl⟩
    obtain ⟨u, v, older, hf, rfl⟩ := (hmem row).mp hrow
    have hget := row_get hr u v older
    exact ⟨v, u, hget.1, hget.2.1, hf.start, hf.trail.reached.mono hf.depth⟩
  · rintro ⟨v, u, rfl, rfl, hstart, hreached⟩
    obtain ⟨older, ht, hl⟩ := hreached.trail
    have hget := row_get hr u v older
    exact ⟨_, (hmem _).mpr ⟨u, v, older, ⟨hstart, ht, hl⟩, rfl⟩, hget.1, hget.2.1⟩

end

end Recursion

end GraphPlan.Sql
