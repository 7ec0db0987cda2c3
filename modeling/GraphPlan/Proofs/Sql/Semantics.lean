import GraphPlan.Proofs.Sql.Scope
import Mathlib.Data.List.Dedup

namespace GraphPlan.Sql

abbrev Row := List (String × Constant)

namespace Row

/-- A column that the row does not have reads as null. -/
def get (row : Row) (column : String) : Constant := (row.lookup column).getD .null

/-- The same values under other names. -/
def rename (columns : List String) (row : Row) : Row := columns.zip (row.map Prod.snd)

@[simp]
theorem get_nil (column : String) : get [] column = .null := rfl

@[simp]
theorem get_cons (name column : String) (value : Constant) (row : Row) :
    get ((name, value) :: row) column = if column = name then value else get row column := by
  unfold get
  rw [List.lookup_cons]
  by_cases h : column = name
  · simp [h]
  · simp [h, beq_false_of_ne h]

end Row

/-- A row of a FROM clause. -/
abbrev Frame := List (String × Row)

namespace Frame

/-- The row of a qualifier; one that is not there reads as a row of nulls. -/
def row (frame : Frame) (qualifier : String) : Row := (frame.lookup qualifier).getD []

/-- A column without a qualifier is that of the first row that has it. -/
def get (frame : Frame) : Option String → String → Constant
  | some qualifier, column => (frame.row qualifier).get column
  | none, column => (frame.findSome? fun part => part.2.lookup column).getD .null

@[simp]
theorem row_cons (name qualifier : String) (r : Row) (frame : Frame) :
    row ((name, r) :: frame) qualifier = if qualifier = name then r else row frame qualifier := by
  unfold row
  rw [List.lookup_cons]
  by_cases h : qualifier = name
  · simp [h]
  · simp [h, beq_false_of_ne h]

end Frame

/-- The operations on values, and the values of parameters. A parameter stands for all of its values where
a list is expected and for the first one elsewhere. -/
structure Dialect where
  compare : Comparison → Constant → Constant → Constant
  add : Constant → Constant → Constant
  cast : String → Constant → Constant
  concat : List Constant → Constant
  like : Constant → Constant → Constant
  param : String → List Constant

namespace Constant

/-- Whether a value counts as true. -/
abbrev IsTrue (c : Constant) : Prop := c = .bool true

def conj (values : List Constant) : Constant :=
  if .bool false ∈ values then .bool false
  else if ∀ v ∈ values, v.IsTrue then .bool true
  else .null

def disj (values : List Constant) : Constant :=
  if .bool true ∈ values then .bool true
  else if ∀ v ∈ values, v = .bool false then .bool false
  else .null

def neg : Constant → Constant
  | .bool b => .bool !b
  | _ => .null

theorem conj_true {values : List Constant} : (conj values).IsTrue ↔ ∀ v ∈ values, v.IsTrue := by
  unfold conj
  split
  · next h =>
    constructor
    · intro h'
      cases h'
    · intro h'
      cases h' _ h
  · split
    · next h => exact ⟨fun _ => h, fun _ => rfl⟩
    · next h => exact ⟨fun h' => (by cases h'), fun h' => absurd h' h⟩

theorem disj_true {values : List Constant} : (disj values).IsTrue ↔ ∃ v ∈ values, v.IsTrue := by
  unfold disj
  split
  · next h => exact ⟨fun _ => ⟨_, h, rfl⟩, fun _ => rfl⟩
  · next h =>
    constructor
    · intro h'
      split at h' <;> cases h'
    · rintro ⟨v, hv, rfl⟩
      exact absurd hv h

theorem neg_true {c : Constant} : (neg c).IsTrue ↔ c = .bool false := by
  cases c with
  | bool b => simp [neg]
  | _ => simp [neg]

end Constant

namespace Term

variable (d : Dialect)

mutual

def eval (frame : Frame) : Term → Constant
  | .column qualifier name => frame.get qualifier name
  | .constant c => c
  | .param name => (d.param name).headD .null
  | .cast e type => d.cast type (eval frame e)
  | .concat parts => d.concat (evalEach frame parts)
  | .add left right => d.add (eval frame left) (eval frame right)
  | .compare op left right => d.compare op (eval frame left) (eval frame right)
  | .and terms => .conj (evalEach frame terms)
  | .or terms => .disj (evalEach frame terms)
  | .not e => .neg (eval frame e)
  | .like e pattern => d.like (eval frame e) (eval frame pattern)
  | .isNull e => .bool (eval frame e = .null)
  | .isNotNull e => .bool (eval frame e ≠ .null)
  | .inList e items => .disj ((evalItems frame items).map (d.compare .eq (eval frame e)))

def evalEach (frame : Frame) : List Term → List Constant
  | [] => []
  | e :: es => eval frame e :: evalEach frame es

/-- The items of a list; a parameter among them is all of its values. -/
def evalItems (frame : Frame) : List Term → List Constant
  | [] => []
  | .param name :: es => d.param name ++ evalItems frame es
  | e :: es => eval frame e :: evalItems frame es

end

/-- A condition only counts where it is true. -/
def Holds (frame : Frame) (e : Term) : Prop := (e.eval d frame).IsTrue

instance (frame : Frame) (e : Term) : Decidable (e.Holds d frame) :=
  inferInstanceAs (Decidable (_ = _))

variable {d}

theorem evalEach_eq_map (frame : Frame) (es : List Term) :
    evalEach d frame es = es.map (eval d frame) := by
  induction es with
  | nil => rfl
  | cons e es ih => rw [evalEach, ih, List.map_cons]

theorem holds_all {frame : Frame} {es : List Term} :
    (all es).Holds d frame ↔ ∀ e ∈ es, e.Holds d frame := by
  unfold all
  split
  · simp
  · unfold Holds
    rw [eval, Constant.conj_true, evalEach_eq_map]
    simp

end Term

/-- The rows of each table. -/
abbrev Database := Table → List Row

/-- The database with a generated table. -/
def Database.put (db : Database) (name : String) (rows : List Row) : Database := fun t =>
  if t = ⟨none, name⟩ then rows else db t

section

variable (d : Dialect)

/-- What is selected from the rows of a FROM clause. -/
def selected (distinct : Bool) (projection : List Item) (filter : Option Term)
    (frames : List Frame) : List Row :=
  let kept := frames.filter fun frame => ∀ condition ∈ filter, condition.Holds d frame
  let rows := kept.map fun frame =>
    projection.map fun item => (item.label.getD "", item.term.eval d frame)
  if distinct then rows.dedup else rows

namespace Source

/-- The row of a FROM clause where nothing was found. -/
def blank (s : Source) : Frame := s.qualifiers.map fun qualifier => (qualifier, [])

/-- The rows that can stand next to a row on the left of a join. -/
def matching (frames : List Frame) (on : Term) (left : Frame) : List Frame :=
  (frames.map (left ++ ·)).filter (on.Holds d)

def frames (db : Database) : Source → List Frame
  | table t => (db t.table).map fun row => [(t.qualifier, row)]
  | query distinct projection source filter label =>
    (selected d distinct projection filter (source.frames db)).map fun row => [(label, row)]
  | join .inner left right on =>
    (left.frames db).flatMap (matching d (right.frames db) on)
  | join .leftOuter left right on =>
    (left.frames db).flatMap fun frame =>
      match matching d (right.frames db) on frame with
      | [] => [frame ++ right.blank]
      | found => found

end Source

def Select.rows (db : Database) (s : Select) : List Row :=
  selected d s.distinct s.projection s.filter (s.source.frames d db)

/-- A recursive expression between two rounds: all rows so far, and those that are new. -/
structure Round where
  result : List Row
  working : List Row

/-- The rows that are new; a union drops those that are there already. -/
def Combinator.fresh (combinator : Combinator) (there rows : List Row) : List Row :=
  match combinator with
  | .union => (rows.filter (· ∉ there)).dedup
  | .unionAll => rows

/-- A recursive expression round by round. Its name stands for the rows that are new, and its columns are
those of the anchor. -/
def rounds (db : Database) (name : String) (anchor : Select) (combinator : Combinator)
    (step : Select) : Nat → Round
  | 0 =>
    let rows := combinator.fresh [] (anchor.rows d db)
    ⟨rows, rows⟩
  | n + 1 =>
    let last := rounds db name anchor combinator step n
    let rows := combinator.fresh last.result
      ((step.rows d (db.put name last.working)).map (Row.rename (labels anchor.projection)))
    ⟨last.result ++ rows, rows⟩

/-- The first round without a new row is the last. -/
structure Finishes (db : Database) (name : String) (anchor : Select) (combinator : Combinator)
    (step : Select) (count : Nat) (rows : List Row) : Prop where
  idle : (rounds d db name anchor combinator step count).working = []
  busy : ∀ n < count, (rounds d db name anchor combinator step n).working ≠ []
  rows : (rounds d db name anchor combinator step count).result = rows

/-- The rows that a common table expression stands for. -/
def Cte.Yields (db : Database) (c : Cte) (rows : List Row) : Prop :=
  match c.body with
  | .plain s => s.rows d db = rows
  | .compound anchor combinator step =>
    ∃ count, Finishes d db c.name anchor combinator step count rows

/-- The rows of a query over common table expressions, each of which may use those before it. -/
inductive YieldsOver : Database → List Cte → Select → List Row → Prop where
  | body (db : Database) (s : Select) : YieldsOver db [] s (s.rows d db)
  | cte {db : Database} {c : Cte} {cs : List Cte} {s : Select} {rows result : List Row}
      (first : c.Yields d db rows) (rest : YieldsOver (db.put c.name rows) cs s result) :
      YieldsOver db (c :: cs) s result

def Statement.Yields (db : Database) (s : Statement) (rows : List Row) : Prop :=
  YieldsOver d db s.ctes s.body rows

end

namespace Term

variable {d : Dialect}

mutual

/-- The value of a term depends on the columns that it mentions. -/
theorem eval_congr {f g : Frame} (e : Term)
    (h : ∀ c ∈ e.columns, f.get c.1 c.2 = g.get c.1 c.2) : e.eval d f = e.eval d g := by
  cases e with
  | column qualifier name => exact h (qualifier, name) List.mem_cons_self
  | constant c => rfl
  | param name => rfl
  | cast e type =>
    rw [eval, eval, eval_congr e h]
  | concat parts =>
    rw [eval, eval, evalEach_congr parts h]
  | add left right =>
    rw [eval, eval, eval_congr left fun c hc => h c (List.mem_append_left _ hc),
      eval_congr right fun c hc => h c (List.mem_append_right _ hc)]
  | compare op left right =>
    rw [eval, eval, eval_congr left fun c hc => h c (List.mem_append_left _ hc),
      eval_congr right fun c hc => h c (List.mem_append_right _ hc)]
  | and terms =>
    rw [eval, eval, evalEach_congr terms h]
  | or terms =>
    rw [eval, eval, evalEach_congr terms h]
  | not e =>
    rw [eval, eval, eval_congr e h]
  | like e pattern =>
    rw [eval, eval, eval_congr e fun c hc => h c (List.mem_append_left _ hc),
      eval_congr pattern fun c hc => h c (List.mem_append_right _ hc)]
  | isNull e =>
    rw [eval, eval, eval_congr e h]
  | isNotNull e =>
    rw [eval, eval, eval_congr e h]
  | inList e items =>
    rw [eval, eval, eval_congr e fun c hc => h c (List.mem_append_left _ hc),
      evalItems_congr items fun c hc => h c (List.mem_append_right _ hc)]

theorem evalEach_congr {f g : Frame} (es : List Term)
    (h : ∀ c ∈ columnsEach es, f.get c.1 c.2 = g.get c.1 c.2) :
    evalEach d f es = evalEach d g es := by
  cases es with
  | nil => rfl
  | cons e es =>
    rw [evalEach, evalEach, eval_congr e fun c hc => h c (List.mem_append_left _ hc),
      evalEach_congr es fun c hc => h c (List.mem_append_right _ hc)]

theorem evalItems_congr {f g : Frame} (es : List Term)
    (h : ∀ c ∈ columnsEach es, f.get c.1 c.2 = g.get c.1 c.2) :
    evalItems d f es = evalItems d g es := by
  cases es with
  | nil => rfl
  | cons e es =>
    have he := @eval_congr f g e fun c hc => h c (List.mem_append_left _ hc)
    have hes := evalItems_congr es fun c hc => h c (List.mem_append_right _ hc)
    cases e <;> simp only [evalItems, hes, he]

end

/-- A term that is about some tables has the same value wherever these have the same rows. -/
theorem eval_of_qualifiedBy {f g : Frame} {qs : List String} {e : Term} (h : e.QualifiedBy qs)
    (hrows : ∀ q ∈ qs, f.row q = g.row q) : e.eval d f = e.eval d g := by
  apply eval_congr
  intro c hc
  obtain ⟨q, hq, hqualifier⟩ := h c hc
  rw [hqualifier, Frame.get, Frame.get, hrows q hq]

theorem holds_of_qualifiedBy {f g : Frame} {qs : List String} {e : Term} (h : e.QualifiedBy qs)
    (hrows : ∀ q ∈ qs, f.row q = g.row q) : e.Holds d f ↔ e.Holds d g := by
  unfold Holds
  rw [eval_of_qualifiedBy h hrows]

end Term

section

variable {d : Dialect} {db : Database}

@[simp]
theorem eval_column (frame : Frame) (t : BoundTable) (name : String) :
    (t.column name).eval d frame = (frame.row t.qualifier).get name := by
  rw [BoundTable.column, Term.eval, Frame.get]

theorem mem_selected {distinct : Bool} {projection : List Item} {filter : Option Term}
    {frames : List Frame} {row : Row} :
    row ∈ selected d distinct projection filter frames ↔
      ∃ frame ∈ frames, (∀ condition ∈ filter, condition.Holds d frame) ∧
        row = projection.map fun item => (item.label.getD "", item.term.eval d frame) := by
  have hmem : row ∈ selected d distinct projection filter frames ↔
      row ∈ (frames.filter fun frame => ∀ condition ∈ filter, condition.Holds d frame).map
        fun frame => projection.map fun item => (item.label.getD "", item.term.eval d frame) := by
    unfold selected
    cases distinct with
    | true => simp
    | false => simp
  rw [hmem]
  simp only [List.mem_map, List.mem_filter, decide_eq_true_eq, and_assoc, @eq_comm _ _ row]

namespace Source

theorem mem_frames_table {t : BoundTable} {frame : Frame} :
    frame ∈ (Source.table t).frames d db ↔ ∃ row ∈ db t.table, frame = [(t.qualifier, row)] := by
  simp only [frames, List.mem_map, eq_comm]

theorem mem_frames_toSource {s : Select} {label : String} {frame : Frame} :
    frame ∈ (s.toSource label).frames d db ↔ ∃ row ∈ s.rows d db, frame = [(label, row)] := by
  simp only [Select.toSource, frames, List.mem_map, eq_comm, Select.rows]

theorem mem_matching {right : List Frame} {on : Term} {left frame : Frame} :
    frame ∈ matching d right on left ↔ ∃ y ∈ right, frame = left ++ y ∧ on.Holds d frame := by
  simp only [matching, List.mem_filter, List.mem_map, decide_eq_true_eq]
  constructor
  · rintro ⟨⟨y, hy, rfl⟩, hon⟩
    exact ⟨y, hy, rfl, hon⟩
  · rintro ⟨y, hy, rfl, hon⟩
    exact ⟨⟨y, hy, rfl⟩, hon⟩

theorem mem_frames_inner {left right : Source} {on : Term} {frame : Frame} :
    frame ∈ (Source.join .inner left right on).frames d db ↔
      ∃ x ∈ left.frames d db, ∃ y ∈ right.frames d db, frame = x ++ y ∧ on.Holds d frame := by
  simp only [frames, List.mem_flatMap, mem_matching]

/-- A row on the left stands next to all rows that match it, or next to a blank one if there are none. -/
theorem mem_frames_leftOuter {left right : Source} {on : Term} {frame : Frame} :
    frame ∈ (Source.join .leftOuter left right on).frames d db ↔
      ∃ x ∈ left.frames d db,
        (∃ y ∈ right.frames d db, frame = x ++ y ∧ on.Holds d frame) ∨
        (∀ y ∈ right.frames d db, ¬on.Holds d (x ++ y)) ∧ frame = x ++ right.blank := by
  simp only [frames, List.mem_flatMap]
  refine exists_congr fun x => and_congr_right fun _ => ?_
  have hmem := @mem_matching d (right.frames d db) on x
  split
  · next hnone =>
    have hnot : ∀ y ∈ right.frames d db, ¬on.Holds d (x ++ y) := by
      intro y hy hon
      have hm := hmem.mpr ⟨y, hy, rfl, hon⟩
      rw [hnone] at hm
      cases hm
    constructor
    · intro h
      exact Or.inr ⟨hnot, List.mem_singleton.mp h⟩
    · rintro (⟨y, hy, rfl, hon⟩ | ⟨_, rfl⟩)
      · exact absurd hon (hnot y hy)
      · exact List.mem_singleton_self _
  · next found hsome =>
    rw [hmem]
    constructor
    · exact Or.inl
    · rintro (h | ⟨hnot, _⟩)
      · exact h
      · obtain ⟨f, hf⟩ := List.exists_mem_of_ne_nil _ hsome
        obtain ⟨y, hy, rfl, hon⟩ := hmem.mp hf
        exact absurd hon (hnot y hy)

end Source

/-- Rows that are not there yet are all new. -/
theorem Combinator.mem_fresh (combinator : Combinator) {there rows : List Row}
    (h : ∀ row ∈ rows, row ∉ there) {row : Row} :
    row ∈ combinator.fresh there rows ↔ row ∈ rows := by
  cases combinator with
  | unionAll => exact Iff.rfl
  | union =>
    simp only [fresh, List.mem_dedup, List.mem_filter, decide_eq_true_eq]
    exact ⟨fun hr => hr.1, fun hr => ⟨hr, h row hr⟩⟩

end

end GraphPlan.Sql
