import GraphPlan.Proofs.Emission.Trunk
import GraphPlan.Proofs.Sql.Semantics

/-!
What a query without recursions asks for. An answer assigns rows to the nodes of a group, each known by the
alias of its table. A child must have a row that its parent joins with, together with rows for all below it;
an optional child goes without if there are none. Predicates are then asked of all nodes that have a row.
-/

namespace GraphPlan.Sql

/-- Rows for some of the nodes. -/
abbrev Assignment := String → Option Row

namespace Assignment

/-- A node without a row reads as a row of nulls. -/
def row (a : Assignment) (qualifier : String) : Row := (a qualifier).getD []

def frame (a : Assignment) (qualifiers : List String) : Frame :=
  qualifiers.map fun q => (q, a.row q)

theorem frame_row (a : Assignment) {qualifiers : List String} {q : String} (h : q ∈ qualifiers) :
    (a.frame qualifiers).row q = a.row q := by
  induction qualifiers with
  | nil => cases h
  | cons p qualifiers ih =>
    rw [frame, List.map_cons, Frame.row_cons]
    by_cases hp : q = p
    · simp [hp]
    · have hm : q ∈ qualifiers := by simpa [hp] using h
      rw [if_neg hp]
      exact ih hm

theorem frame_append (a : Assignment) (ps qs : List String) :
    a.frame (ps ++ qs) = a.frame ps ++ a.frame qs := by
  simp [frame]

theorem frame_congr {a b : Assignment} {qualifiers : List String}
    (h : ∀ q ∈ qualifiers, a q = b q) : a.frame qualifiers = b.frame qualifiers := by
  apply List.map_congr_left
  intro q hq
  rw [row, row, h q hq]

/-- Take the rows of some nodes from another assignment. -/
def override (a b : Assignment) (qualifiers : List String) : Assignment := fun q =>
  if q ∈ qualifiers then b q else a q

theorem override_inside (a b : Assignment) {qualifiers : List String} {q : String}
    (h : q ∈ qualifiers) : a.override b qualifiers q = b q := by
  simp [override, h]

theorem override_outside (a b : Assignment) {qualifiers : List String} {q : String}
    (h : q ∉ qualifiers) : a.override b qualifiers q = a q := by
  simp [override, h]

theorem frame_override {a b : Assignment} {ps qs : List String} (h : ∀ q ∈ ps, q ∉ qs) :
    (a.override b qs).frame (ps ++ qs) = a.frame ps ++ b.frame qs := by
  have hleft : (a.override b qs).frame ps = a.frame ps :=
    frame_congr fun q hq => a.override_outside b (h q hq)
  have hright : (a.override b qs).frame qs = b.frame qs :=
    frame_congr fun q hq => a.override_inside b hq
  rw [frame_append, hleft, hright]

end Assignment

namespace BoundBranch

variable (d : Dialect) (catalog : Catalog) (db : Database)

/-- Nothing from a node down has a row. -/
def Unassigned (b : BoundBranch) (a : Assignment) : Prop := ∀ q ∈ b.aliases, a q = none

/-- The rows of a node and of its parent meet the condition of their join. -/
def Joined (parent : Node) (above : BoundTable) (b : BoundBranch) (a : Assignment) : Prop :=
  ∀ clause ∈ catalog.joins parent b.node above b.table,
    clause.on.Holds d (a.frame [above.qualifier, b.table.qualifier])

mutual

/-- The node has a row of its table, and each child is placed below it. -/
def Solves : BoundBranch → Assignment → Prop
  | mk node table _ children, a =>
    (∃ row ∈ db table.table, a table.qualifier = some row) ∧ SolvesEach node table children a

/-- A child goes without rows only where it is optional and no rows would do next to that of its parent. -/
def SolvesEach (parent : Node) (above : BoundTable) : List BoundBranch → Assignment → Prop
  | [], _ => True
  | b :: bs, a =>
    (Solves b a ∧ Joined d catalog parent above b a ∨
      b.node.isOptional = true ∧ b.Unassigned a ∧
        ∀ other : Assignment, other above.qualifier = a above.qualifier →
          ¬(Solves b other ∧ Joined d catalog parent above b other)) ∧
    SolvesEach parent above bs a

end

mutual

/-- Every predicate of every node that has a row is true. -/
def Satisfies : BoundBranch → Assignment → Prop
  | mk node table _ children, a =>
    ((a table.qualifier).isSome → ∀ predicate ∈ node.predicates,
      ∀ term, catalog.condition node predicate table = .ok term →
        term.Holds d (a.frame [table.qualifier])) ∧ SatisfiesEach children a

def SatisfiesEach : List BoundBranch → Assignment → Prop
  | [], _ => True
  | b :: bs, a => Satisfies b a ∧ SatisfiesEach bs a

end

mutual

/-- What is put out: the selections of a node, then those of its children. -/
def outputs : BoundBranch → Assignment → Row
  | mk node table _ children, a =>
    (node.selections.map fun s =>
      (s.label, (catalog.column s table).eval d (a.frame [table.qualifier]))) ++ outputsEach children a

def outputsEach : List BoundBranch → Assignment → Row
  | [], _ => []
  | b :: bs, a => outputs b a ++ outputsEach bs a

end

/-- A child is matched below its parent, or it may be missing and there is nothing to match it. -/
def MatchedOrMissing (parent : Node) (above : BoundTable) (b : BoundBranch) (a : Assignment) : Prop :=
  Solves d catalog db b a ∧ Joined d catalog parent above b a ∨
    b.node.isOptional = true ∧ b.Unassigned a ∧
      ∀ other : Assignment, other above.qualifier = a above.qualifier →
        ¬(Solves d catalog db b other ∧ Joined d catalog parent above b other)

variable {d catalog db}

theorem solvesEach_iff {parent : Node} {above : BoundTable} {bs : List BoundBranch}
    {a : Assignment} :
    SolvesEach d catalog db parent above bs a ↔ ∀ b ∈ bs, MatchedOrMissing d catalog db parent above b a := by
  induction bs with
  | nil => simp [SolvesEach]
  | cons b bs ih => simp [SolvesEach, MatchedOrMissing, ih]

theorem satisfiesEach_iff {bs : List BoundBranch} {a : Assignment} :
    SatisfiesEach d catalog bs a ↔ ∀ b ∈ bs, Satisfies d catalog b a := by
  induction bs with
  | nil => simp [SatisfiesEach]
  | cons b bs ih => simp [SatisfiesEach, ih]

theorem outputsEach_append (bs cs : List BoundBranch) (a : Assignment) :
    outputsEach d catalog (bs ++ cs) a = outputsEach d catalog bs a ++ outputsEach d catalog cs a := by
  induction bs with
  | nil => rfl
  | cons b bs ih => simp [outputsEach, ih]

theorem aliasesEach_append (bs cs : List BoundBranch) :
    aliasesEach (bs ++ cs) = aliasesEach bs ++ aliasesEach cs := by
  induction bs with
  | nil => rfl
  | cons b bs ih => simp [aliasesEach, ih]

theorem table_mem_aliases (b : BoundBranch) : b.table.qualifier ∈ b.aliases := by
  cases b
  exact List.mem_cons_self

theorem joined_congr {parent : Node} {above : BoundTable} {b : BoundBranch} {a a' : Assignment}
    (ha : a above.qualifier = a' above.qualifier)
    (hb : a b.table.qualifier = a' b.table.qualifier) :
    Joined d catalog parent above b a ↔ Joined d catalog parent above b a' := by
  have hframe : a.frame [above.qualifier, b.table.qualifier] =
      a'.frame [above.qualifier, b.table.qualifier] := by
    apply Assignment.frame_congr
    intro q hq
    simp only [List.mem_cons, List.not_mem_nil, or_false] at hq
    rcases hq with rfl | rfl
    · exact ha
    · exact hb
  unfold Joined
  rw [hframe]

mutual

/-- What is asked of an assignment is only about the nodes at hand. -/
theorem solves_congr {a a' : Assignment} (b : BoundBranch) (h : ∀ q ∈ b.aliases, a q = a' q) :
    Solves d catalog db b a ↔ Solves d catalog db b a' := by
  cases b with
  | mk node table hanging children =>
    have htable : a table.qualifier = a' table.qualifier := h _ List.mem_cons_self
    have heach := solvesEach_congr node table children htable
      fun q hq => h q (List.mem_cons_of_mem _ hq)
    rw [Solves, Solves, htable, heach]

theorem solvesEach_congr {a a' : Assignment} (parent : Node) (above : BoundTable)
    (bs : List BoundBranch) (ha : a above.qualifier = a' above.qualifier)
    (h : ∀ q ∈ aliasesEach bs, a q = a' q) :
    SolvesEach d catalog db parent above bs a ↔ SolvesEach d catalog db parent above bs a' := by
  cases bs with
  | nil => exact Iff.rfl
  | cons b bs =>
    have hb : ∀ q ∈ b.aliases, a q = a' q := fun q hq => h q (List.mem_append_left _ hq)
    have hsolves := @solves_congr a a' b hb
    have hjoined := @joined_congr d catalog parent above b a a' ha (hb _ b.table_mem_aliases)
    have hrest := solvesEach_congr parent above bs ha fun q hq => h q (List.mem_append_right _ hq)
    have hnone : b.Unassigned a ↔ b.Unassigned a' := by
      constructor
      · intro hu q hq
        rw [← hb q hq, hu q hq]
      · intro hu q hq
        rw [hb q hq, hu q hq]
    rw [SolvesEach, SolvesEach, hsolves, hjoined, hrest, hnone, ha]

end

mutual

/-- Nothing is asked of nodes without rows. -/
theorem satisfies_of_unassigned {a : Assignment} (b : BoundBranch) (h : b.Unassigned a) :
    Satisfies d catalog b a := by
  cases b with
  | mk node table hanging children =>
    have htable : a table.qualifier = none := h _ List.mem_cons_self
    refine ⟨by simp [htable], satisfiesEach_of_unassigned children ?_⟩
    intro q hq
    exact h q (List.mem_cons_of_mem _ hq)

theorem satisfiesEach_of_unassigned {a : Assignment} (bs : List BoundBranch)
    (h : ∀ q ∈ aliasesEach bs, a q = none) : SatisfiesEach d catalog bs a := by
  cases bs with
  | nil => trivial
  | cons b bs =>
    exact ⟨satisfies_of_unassigned b fun q hq => h q (List.mem_append_left _ hq),
      satisfiesEach_of_unassigned bs fun q hq => h q (List.mem_append_right _ hq)⟩

end

end BoundBranch

end GraphPlan.Sql
