import GraphPlan.Proofs.Except
import GraphPlan.Sql.Condition

namespace GraphPlan

/-- A value that is no container. -/
def Json.IsScalar : Json → Prop
  | .array _ => False
  | .object _ => False
  | _ => True

inductive Position where
  | scalar
  | collection
  deriving DecidableEq

namespace BinaryOp

def leftPosition : BinaryOp → Position
  | contains => .collection
  | _ => .scalar

def rightPosition : BinaryOp → Position
  | inCollection => .collection
  | _ => .scalar

end BinaryOp

namespace Expr

/-- The operands of an expression, each with its position. -/
inductive Operand : Expr → Position → Expr → Prop where
  | negated (e : Expr) : Operand (.not e) .scalar e
  | left (op : BinaryOp) (l r : Expr) : Operand (.binary op l r) op.leftPosition l
  | right (op : BinaryOp) (l r : Expr) : Operand (.binary op l r) op.rightPosition r

/-- The parts of an expression that stands in a given position: itself, and the operands of its parts. -/
inductive Occurs (start : Position) (whole : Expr) : Position → Expr → Prop where
  | root : Occurs start whole start whole
  | operand {p q : Position} {e part : Expr} (h : Occurs start whole p e) (hpart : e.Operand q part) :
      Occurs start whole q part

/-- What can stand for many values: an argument, or an array of scalars. -/
inductive IsCollection : Expr → Prop where
  | argument (name : String) : IsCollection (.argument name)
  | array {items : List Json} {sorted : (Json.array items).Sorted} (h : ∀ j ∈ items, j.IsScalar) :
      IsCollection (.literal ⟨.array items, sorted⟩)

/-- A part is what its position asks for, whatever its own parts are. -/
structure AllowedAt (scope : Sql.Scope) (p : Position) (e : Expr) : Prop where
  field : ∀ location field, e = contextField location field → (scope.field location field).isSome
  presence : ∀ location, e = contextExists location → (scope.presence location).isSome
  scalar : ∀ value, p = .scalar → e = literal value → value.json.IsScalar
  collection : p = .collection → e.IsCollection

/-- Every part of an expression in this position is what its own position asks for. -/
def WellSortedAt (scope : Sql.Scope) (start : Position) (e : Expr) : Prop :=
  ∀ p part, e.Occurs start p part → part.AllowedAt scope p

abbrev WellSorted (scope : Sql.Scope) (e : Expr) : Prop := e.WellSortedAt scope .scalar

variable {scope : Sql.Scope} {start : Position}

theorem Occurs.of_operand {e operand : Expr} {p : Position} (h : e.Operand p operand) {q : Position}
    {part : Expr} (hpart : operand.Occurs p q part) : e.Occurs start q part := by
  induction hpart with
  | root => exact .operand .root h
  | operand _ hnext ih => exact .operand ih hnext

theorem Occurs.eq_or_operand {e part : Expr} {q : Position} (h : e.Occurs start q part) :
    (q = start ∧ part = e) ∨ ∃ p operand, e.Operand p operand ∧ operand.Occurs p q part := by
  induction h with
  | root => exact .inl ⟨rfl, rfl⟩
  | operand _ hnext ih =>
    rcases ih with ⟨rfl, rfl⟩ | ⟨p, operand, hoperand, hpart⟩
    · exact .inr ⟨_, _, hnext, .root⟩
    · exact .inr ⟨p, operand, hoperand, .operand hpart hnext⟩

/-- Well sorted is what is allowed and has well sorted operands. -/
theorem wellSortedAt_iff {e : Expr} : e.WellSortedAt scope start ↔
    e.AllowedAt scope start ∧ ∀ p operand, e.Operand p operand → operand.WellSortedAt scope p := by
  constructor
  · intro h
    exact ⟨h _ _ .root, fun p operand ho q part hpart => h q part (.of_operand ho hpart)⟩
  · rintro ⟨hallowed, hoperands⟩ q part hpart
    rcases hpart.eq_or_operand with ⟨rfl, rfl⟩ | ⟨p, operand, ho, hpart⟩
    · exact hallowed
    · exact hoperands p operand ho q part hpart

/-- The expression has no operands. -/
def IsLeaf : Expr → Prop
  | .not _ => False
  | .binary .. => False
  | _ => True

theorem wellSortedAt_leaf (e : Expr) (he : e.IsLeaf) :
    e.WellSortedAt scope start ↔ e.AllowedAt scope start := by
  have hnone : ∀ p operand, ¬e.Operand p operand := by
    rintro p operand ⟨⟩ <;> exact he
  rw [wellSortedAt_iff, and_iff_left fun p operand ho => absurd ho (hnone p operand)]

theorem wellSorted_not {e : Expr} : (Expr.not e).WellSorted scope ↔ e.WellSorted scope := by
  rw [WellSorted, wellSortedAt_iff]
  constructor
  · intro h
    exact h.2 _ _ (.negated e)
  · intro h
    refine ⟨⟨nofun, nofun, nofun, nofun⟩, ?_⟩
    rintro _ _ ⟨⟩
    exact h

theorem wellSorted_binary {op : BinaryOp} {l r : Expr} : (Expr.binary op l r).WellSorted scope ↔
    l.WellSortedAt scope op.leftPosition ∧ r.WellSortedAt scope op.rightPosition := by
  rw [WellSorted, wellSortedAt_iff]
  constructor
  · intro h
    exact ⟨h.2 _ _ (.left op l r), h.2 _ _ (.right op l r)⟩
  · rintro ⟨hl, hr⟩
    refine ⟨⟨nofun, nofun, nofun, nofun⟩, ?_⟩
    rintro _ _ ⟨⟩
    · exact hl
    · exact hr

/-- The collection side of a test has no operands of its own. -/
theorem wellSortedAt_collection {e : Expr} :
    e.WellSortedAt scope .collection ↔ e.IsCollection := by
  constructor
  · intro h
    exact (h _ _ .root).collection rfl
  · intro h
    have hallowed : e.AllowedAt scope .collection := by
      cases h with
      | argument name => exact ⟨nofun, nofun, nofun, fun _ => .argument name⟩
      | array h => exact ⟨nofun, nofun, nofun, fun _ => .array h⟩
    have hleaf : e.IsLeaf := by
      cases h with
      | argument name => trivial
      | array h => trivial
    exact (wellSortedAt_leaf e hleaf).mpr hallowed

/-- The computation succeeds if and only if the condition holds, and each of its failures is internal. -/
def Decides {α : Type} (x : Except Error α) (condition : Prop) : Prop :=
  Ends x (fun _ => condition) fun e => ¬condition ∧ ∃ detail, e = .internal detail

theorem decides_ok {α : Type} {a : α} {condition : Prop} (h : condition) :
    Decides (.ok a) condition := ends_ok h

theorem decides_internal {α : Type} {detail : String} {condition : Prop} (h : ¬condition) :
    Decides (α := α) (.error (.internal detail)) condition := ends_error ⟨h, detail, rfl⟩

theorem Decides.congr {α : Type} {x : Except Error α} {condition other : Prop}
    (h : Decides x condition) (hiff : condition ↔ other) : Decides x other := by
  rwa [← propext hiff]

/-- Two computations in a row, both of which have to succeed. -/
theorem Decides.pair {α β γ : Type} {x : Except Error α} {y : Except Error β} {p q : Prop}
    (hx : Decides x p) (hy : Decides y q) (combine : α → β → γ) :
    Decides (x.bind fun a => y.bind fun b => .ok (combine a b)) (p ∧ q) := by
  refine Ends.bind (hx.mono (fun _ h => h) fun e h => ⟨fun hpq => h.1 hpq.1, h.2⟩) fun a hp => ?_
  refine Ends.bind (hy.mono (fun _ h => h) fun e h => ⟨fun hpq => h.1 hpq.2, h.2⟩) fun b hq => ?_
  exact ends_ok ⟨hp, hq⟩

theorem Decides.exists_ok_iff {α : Type} {x : Except Error α} {condition : Prop}
    (h : Decides x condition) : (∃ a, x = .ok a) ↔ condition := by
  constructor
  · rintro ⟨a, ha⟩
    exact h.ok a ha
  · intro hc
    cases x with
    | ok a => exact ⟨a, rfl⟩
    | error e => exact absurd hc (h.error e rfl).1

theorem scalar_decides (j : Json) : Decides (scalar j) j.IsScalar := by
  cases j with
  | array items => exact decides_internal id
  | object members => exact decides_internal id
  | _ => exact decides_ok trivial

theorem scalars_decides (items : List Json) : Decides (scalars items) (∀ j ∈ items, j.IsScalar) := by
  induction items with
  | nil => exact decides_ok (by simp)
  | cons j items ih =>
    exact ((scalar_decides j).pair ih List.cons).congr List.forall_mem_cons.symm

theorem collection_decides (e : Expr) : Decides e.collection e.IsCollection := by
  unfold collection
  split
  · next items sorted =>
    refine (scalars_decides items).congr ⟨.array, ?_⟩
    rintro ⟨⟩
    assumption
  · next name => exact decides_ok (.argument name)
  · next harray hargument =>
    refine decides_internal ?_
    rintro (⟨name⟩ | _)
    · exact hargument name rfl
    · exact harray _ _ rfl

theorem orUnknown_decides (location : Location) (found : Option Sql.Term) :
    Decides (orUnknown location found) found.isSome := by
  cases found with
  | some term => exact decides_ok rfl
  | none => exact decides_internal nofun

theorem toTerm_decides (table : Sql.BoundTable) (scope : Sql.Scope) (e : Expr) :
    Decides (e.toTerm table scope) (e.WellSorted scope) := by
  induction e with
  | literal value =>
    refine (scalar_decides value.json).congr ?_
    rw [WellSorted, wellSortedAt_leaf (.literal value) trivial]
    exact ⟨fun h => ⟨nofun, nofun, fun _ _ he => by cases he; exact h, nofun⟩,
      fun h => h.scalar value rfl rfl⟩
  | argument name =>
    exact decides_ok ((wellSortedAt_leaf (.argument name) trivial).mpr ⟨nofun, nofun, nofun, nofun⟩)
  | localField field =>
    exact decides_ok ((wellSortedAt_leaf (.localField field) trivial).mpr ⟨nofun, nofun, nofun, nofun⟩)
  | contextField location field =>
    refine (orUnknown_decides location _).congr ?_
    rw [WellSorted, wellSortedAt_leaf (.contextField location field) trivial]
    exact ⟨fun h => ⟨fun _ _ he => by cases he; exact h, nofun, nofun, nofun⟩,
      fun h => h.field location field rfl⟩
  | contextExists location =>
    refine (orUnknown_decides location _).congr ?_
    rw [WellSorted, wellSortedAt_leaf (.contextExists location) trivial, Option.isSome_map]
    exact ⟨fun h => ⟨nofun, fun _ he => by cases he; exact h, nofun, nofun⟩,
      fun h => h.presence location rfl⟩
  | not e ih =>
    exact Ends.bind (ih.congr wellSorted_not.symm) fun t h => decides_ok h
  | binary op l r ihl ihr =>
    rw [wellSorted_binary]
    cases op with
    | inCollection =>
      exact ihl.pair ((collection_decides r).congr wellSortedAt_collection.symm) _
    | contains =>
      -- here the right operand comes first
      exact (ihr.pair ((collection_decides l).congr wellSortedAt_collection.symm) _).congr and_comm
    | _ => exact ihl.pair ihr _

/-- An expression has a term if and only if every reference in it to another vertex is known, every literal
where a single value is asked for is a scalar, and every collection side of a membership test is an argument or
an array of scalars. Whatever goes wrong is an internal error. -/
theorem toTerm_ok_iff_wellSorted (table : Sql.BoundTable) (scope : Sql.Scope) (e : Expr) :
    ((∃ t, e.toTerm table scope = .ok t) ↔ e.WellSorted scope) ∧
      ∀ error, e.toTerm table scope = .error error → ∃ detail, error = .internal detail := by
  have h := toTerm_decides table scope e
  exact ⟨h.exists_ok_iff, fun error he => (h.error error he).2⟩

end Expr

end GraphPlan
