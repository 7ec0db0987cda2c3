import GraphPlan.Expr
import GraphPlan.Sql.Term
import Mathlib.Data.List.Infix

namespace GraphPlan

/-- Scalars of one kind can be compared. -/
inductive Kind where
  | truth
  | number
  | text
  deriving DecidableEq

/-- The exact value of a finite double. -/
def Decimal.Double.value? (d : Double) : Option Dyadic :=
  if d.isFinite then
    some (.ofIntWithPrec (if d.isNegative then -d.significand else d.significand) (-d.power))
  else none

namespace Sql.Constant

/-- The exact value of a number. -/
def number? : Constant → Option Dyadic
  | int z => some (.ofInt z)
  | double d => d.value?
  | _ => none

/-- Null is of no kind, and neither is a double without a value. -/
def kind? : Constant → Option Kind
  | bool _ => some .truth
  | text _ => some .text
  | c => c.number?.map fun _ => .number

/-- How two scalars of one kind compare: false comes before true, numbers go by their values, and texts by
their characters. -/
def order? : Constant → Constant → Option Ordering
  | bool a, bool b => some (compare a b)
  | text a, text b => some (compare a b)
  | a, b => a.number?.bind fun x => b.number?.map fun y => compareOfLessAndEq x y

/-- Whether a scalar is among others, with all of which it can be compared. -/
def among? (c : Constant) (items : List Constant) : Option Bool :=
  if ∀ item ∈ items, (c.order? item).isSome then
    some (items.any fun item => c.order? item == some .eq)
  else none

theorem exists_of_kind?_truth {c : Constant} (h : c.kind? = some .truth) : ∃ b, c = .bool b := by
  cases c with
  | bool b => exact ⟨b, rfl⟩
  | _ => simp [kind?] at h

theorem exists_of_kind?_text {c : Constant} (h : c.kind? = some .text) : ∃ s, c = .text s := by
  cases c with
  | text s => exact ⟨s, rfl⟩
  | _ => simp [kind?] at h

theorem exists_of_kind?_number {c : Constant} (h : c.kind? = some .number) :
    ∃ x, c.number? = some x := by
  cases c with
  | int z => exact ⟨_, rfl⟩
  | double d =>
    obtain ⟨x, hx, -⟩ := Option.map_eq_some_iff.mp h
    exact ⟨x, hx⟩
  | _ => simp [kind?, number?] at h

theorem order?_of_number? {a b : Constant} {x y : Dyadic} (ha : a.number? = some x)
    (hb : b.number? = some y) : a.order? b = some (compareOfLessAndEq x y) := by
  unfold order?
  split
  · cases ha
  · cases ha
  · rw [ha, hb]
    rfl

theorem order?_isSome {a b : Constant} {kind : Kind} (ha : a.kind? = some kind)
    (hb : b.kind? = some kind) : (a.order? b).isSome := by
  cases kind with
  | truth =>
    obtain ⟨x, rfl⟩ := exists_of_kind?_truth ha
    obtain ⟨y, rfl⟩ := exists_of_kind?_truth hb
    rfl
  | number =>
    obtain ⟨x, hx⟩ := exists_of_kind?_number ha
    obtain ⟨y, hy⟩ := exists_of_kind?_number hb
    rw [order?_of_number? hx hy]
    rfl
  | text =>
    obtain ⟨s, rfl⟩ := exists_of_kind?_text ha
    obtain ⟨t, rfl⟩ := exists_of_kind?_text hb
    rfl

end Sql.Constant

/-- What an expression can stand for. -/
inductive Value where
  | one (c : Sql.Constant)
  | many (items : List Sql.Constant)

inductive ValueType where
  | one (kind : Kind)
  | many (kind : Kind)

def Value.HasType : Value → ValueType → Prop
  | one c, .one kind => c.kind? = some kind
  | many items, .many kind => ∀ c ∈ items, c.kind? = some kind
  | _, _ => False

theorem Value.HasType.exists_one {v : Value} {kind : Kind} (h : v.HasType (.one kind)) :
    ∃ c, v = .one c ∧ c.kind? = some kind := by
  cases v with
  | one c => exact ⟨c, rfl, h⟩
  | many items => exact h.elim

theorem Value.HasType.exists_many {v : Value} {kind : Kind} (h : v.HasType (.many kind)) :
    ∃ items, v = .many items ∧ ∀ c ∈ items, c.kind? = some kind := by
  cases v with
  | one c => exact h.elim
  | many items => exact ⟨items, rfl, h⟩

theorem Value.HasType.exists_bool {v : Value} (h : v.HasType (.one .truth)) :
    ∃ b, v = .one (.bool b) := by
  obtain ⟨c, rfl, hc⟩ := h.exists_one
  obtain ⟨b, rfl⟩ := Sql.Constant.exists_of_kind?_truth hc
  exact ⟨b, rfl⟩

theorem Value.HasType.exists_text {v : Value} (h : v.HasType (.one .text)) :
    ∃ s, v = .one (.text s) := by
  obtain ⟨c, rfl, hc⟩ := h.exists_one
  obtain ⟨s, rfl⟩ := Sql.Constant.exists_of_kind?_text hc
  exact ⟨s, rfl⟩

namespace Json

def constant? : Json → Option Sql.Constant
  | null => some .null
  | bool b => some (.bool b)
  | number (.int z) => some (.int z.val)
  | number (.double d) => some (.double d)
  | text s => some (.text s)
  | _ => none

def value? : Json → Option Value
  | array items => (items.mapM constant?).map .many
  | j => j.constant?.map .one

end Json

namespace Value

/-- Whether two scalars stand in an order that is allowed. -/
def compare? (allows : Ordering → Bool) : Value → Value → Option Bool
  | one a, one b => (a.order? b).map allows
  | _, _ => none

def connect? (connective : Bool → Bool → Bool) : Value → Value → Option Bool
  | one (.bool a), one (.bool b) => some (connective a b)
  | _, _ => none

/-- Whether a collection has a scalar as an element. -/
def has? : Value → Value → Option Bool
  | many items, one c => c.among? items
  | _, _ => none

/-- Whether a text occurs in another. -/
def hasText? : Value → Value → Option Bool
  | one (.text whole), one (.text part) => some (part.toList <:+: whole.toList)
  | _, _ => none

theorem exists_of_compare? {allows : Ordering → Bool} {u v : Value} {holds : Bool}
    (h : compare? allows u v = some holds) :
    ∃ a b o, u = one a ∧ v = one b ∧ a.order? b = some o ∧ allows o = holds := by
  unfold compare? at h
  split at h
  · next a b =>
    obtain ⟨o, ho, hholds⟩ := Option.map_eq_some_iff.mp h
    exact ⟨a, b, o, rfl, rfl, ho, hholds⟩
  · cases h

theorem exists_of_connect? {connective : Bool → Bool → Bool} {u v : Value} {holds : Bool}
    (h : connect? connective u v = some holds) :
    ∃ a b, u = one (.bool a) ∧ v = one (.bool b) ∧ connective a b = holds := by
  unfold connect? at h
  split at h
  · next a b => exact ⟨a, b, rfl, rfl, Option.some.inj h⟩
  · cases h

theorem exists_of_has? {u v : Value} {holds : Bool} (h : has? u v = some holds) :
    ∃ items c, u = many items ∧ v = one c ∧ c.among? items = some holds := by
  unfold has? at h
  split at h
  · next items c => exact ⟨items, c, rfl, rfl, h⟩
  · cases h

variable {kind : Kind} {u v : Value}

theorem exists_compare? (allows : Ordering → Bool) (hu : u.HasType (.one kind))
    (hv : v.HasType (.one kind)) : ∃ holds, compare? allows u v = some holds := by
  obtain ⟨a, rfl, ha⟩ := hu.exists_one
  obtain ⟨b, rfl, hb⟩ := hv.exists_one
  obtain ⟨o, ho⟩ := Option.isSome_iff_exists.mp (Sql.Constant.order?_isSome ha hb)
  exact ⟨allows o, by rw [compare?, ho, Option.map_some]⟩

theorem exists_connect? (connective : Bool → Bool → Bool) (hu : u.HasType (.one .truth))
    (hv : v.HasType (.one .truth)) : ∃ holds, connect? connective u v = some holds := by
  obtain ⟨a, rfl⟩ := hu.exists_bool
  obtain ⟨b, rfl⟩ := hv.exists_bool
  exact ⟨_, rfl⟩

theorem exists_has? (hu : u.HasType (.many kind)) (hv : v.HasType (.one kind)) :
    ∃ holds, has? u v = some holds := by
  obtain ⟨items, rfl, hi⟩ := hu.exists_many
  obtain ⟨c, rfl, hc⟩ := hv.exists_one
  rw [has?, Sql.Constant.among?, if_pos fun item hm => Sql.Constant.order?_isSome hc (hi item hm)]
  exact ⟨_, rfl⟩

theorem exists_hasText? (hu : u.HasType (.one .text)) (hv : v.HasType (.one .text)) :
    ∃ holds, hasText? u v = some holds := by
  obtain ⟨s, rfl⟩ := hu.exists_text
  obtain ⟨t, rfl⟩ := hv.exists_text
  exact ⟨_, rfl⟩

end Value

namespace BinaryOp

/-- Whether an operator holds of two values. -/
def verdict? : BinaryOp → Value → Value → Option Bool
  | eq => Value.compare? Ordering.isEq
  | notEq => Value.compare? Ordering.isNe
  | lt => Value.compare? Ordering.isLT
  | ltEq => Value.compare? Ordering.isLE
  | gt => Value.compare? Ordering.isGT
  | gtEq => Value.compare? Ordering.isGE
  | and => Value.connect? Bool.and
  | or => Value.connect? Bool.or
  | contains => Value.has?
  | hasSubstring => Value.hasText?
  | inCollection => fun element items => items.has? element

/-- The operator can be applied to values of these types. -/
def Takes : BinaryOp → ValueType → ValueType → Prop
  | and, a, b => a = .one .truth ∧ b = .one .truth
  | or, a, b => a = .one .truth ∧ b = .one .truth
  | contains, a, b => ∃ kind, a = .many kind ∧ b = .one kind
  | hasSubstring, a, b => a = .one .text ∧ b = .one .text
  | inCollection, a, b => ∃ kind, a = .one kind ∧ b = .many kind
  | _, a, b => ∃ kind, a = .one kind ∧ b = .one kind

/-- An operator tells whether it holds wherever it can be applied. -/
theorem exists_verdict? {op : BinaryOp} {a b : ValueType} {u v : Value} (h : op.Takes a b)
    (hu : u.HasType a) (hv : v.HasType b) : ∃ holds, op.verdict? u v = some holds := by
  cases op with
  | and =>
    obtain ⟨rfl, rfl⟩ := h
    exact Value.exists_connect? Bool.and hu hv
  | or =>
    obtain ⟨rfl, rfl⟩ := h
    exact Value.exists_connect? Bool.or hu hv
  | hasSubstring =>
    obtain ⟨rfl, rfl⟩ := h
    exact Value.exists_hasText? hu hv
  | contains =>
    obtain ⟨kind, rfl, rfl⟩ := h
    exact Value.exists_has? hu hv
  | inCollection =>
    obtain ⟨kind, rfl, rfl⟩ := h
    exact Value.exists_has? hv hu
  | _ =>
    obtain ⟨kind, rfl, rfl⟩ := h
    exact Value.exists_compare? _ hu hv

end BinaryOp

/-- What expressions are about: the vertex at hand, the other vertices of the query, and the arguments. -/
structure World where
  field : String → Sql.Constant
  context : Location → String → Sql.Constant
  present : Location → Bool
  argument : String → Value

namespace Expr

variable (w : World)

def value : Expr → Option Value
  | literal l => l.json.value?
  | argument name => some (w.argument name)
  | localField field => some (.one (w.field field))
  | contextField location field => some (.one (w.context location field))
  | contextExists location => some (.one (.bool (w.present location)))
  | not e =>
    match e.value with
    | some (.one (.bool b)) => some (.one (.bool !b))
    | _ => none
  | binary op left right => do
    let l ← left.value
    let r ← right.value
    return .one (.bool (← op.verdict? l r))

/-- An expression is well typed in a world where it has a type. -/
inductive HasType : Expr → ValueType → Prop where
  | literal {l : Literal} {v : Value} {type : ValueType} (hv : l.json.value? = some v)
      (h : v.HasType type) : HasType (.literal l) type
  | argument {name : String} {type : ValueType} (h : (w.argument name).HasType type) :
      HasType (.argument name) type
  | localField {field : String} {kind : Kind} (h : (w.field field).kind? = some kind) :
      HasType (.localField field) (.one kind)
  | contextField {location : Location} {field : String} {kind : Kind}
      (h : (w.context location field).kind? = some kind) :
      HasType (.contextField location field) (.one kind)
  | contextExists (location : Location) : HasType (.contextExists location) (.one .truth)
  | not {e : Expr} (h : HasType e (.one .truth)) : HasType (.not e) (.one .truth)
  | binary {op : BinaryOp} {left right : Expr} {l r : ValueType} (hop : op.Takes l r)
      (hl : HasType left l) (hr : HasType right r) : HasType (.binary op left right) (.one .truth)

variable {w}

/-- An expression that is well typed has a value of its type. -/
theorem HasType.exists_value {e : Expr} {type : ValueType} (h : e.HasType w type) :
    ∃ v, e.value w = some v ∧ v.HasType type := by
  induction h with
  | literal hv h => exact ⟨_, hv, h⟩
  | argument h => exact ⟨_, rfl, h⟩
  | localField h => exact ⟨_, rfl, h⟩
  | contextField h => exact ⟨_, rfl, h⟩
  | contextExists location => exact ⟨_, rfl, rfl⟩
  | not h ih =>
    obtain ⟨v, hv, ht⟩ := ih
    obtain ⟨b, rfl⟩ := ht.exists_bool
    exact ⟨.one (.bool !b), by rw [value, hv], rfl⟩
  | binary hop hl hr ihl ihr =>
    obtain ⟨u, hu, htu⟩ := ihl
    obtain ⟨v, hv, htv⟩ := ihr
    obtain ⟨holds, hholds⟩ := BinaryOp.exists_verdict? hop htu htv
    exact ⟨.one (.bool holds), by simp [value, hu, hv, hholds], rfl⟩

end Expr

end GraphPlan
