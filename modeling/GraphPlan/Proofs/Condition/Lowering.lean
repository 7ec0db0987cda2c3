import GraphPlan.Proofs.Condition.Meaning
import GraphPlan.Proofs.Condition.Positions
import GraphPlan.Proofs.Sql.Dialect

namespace GraphPlan

open Sql

/-- Scalars of one kind are compared by their order. -/
def Sql.Dialect.Ordered (d : Dialect) : Prop :=
  ∀ (op : Comparison) (a b : Constant) (o : Ordering), a.order? b = some o →
    d.compare op a b = .bool (op.allows o)

/-- Scalars of one kind and nothing else can be compared, and parameters have these values. -/
def Sql.Dialect.typed (params : String → List Constant) : Dialect :=
  { Dialect.plain with
    compare := fun op a b => (a.order? b).elim .null fun o => .bool (op.allows o)
    param := params }

theorem Sql.Dialect.typed_ordered (params : String → List Constant) :
    (Dialect.typed params).Ordered := by
  intro op a b o h
  simp [Dialect.typed, h]

/-- All that a value consists of. -/
def Value.items : Value → List Constant
  | one c => [c]
  | many items => items

/-- The database shows a world: in a row of the FROM clause, columns have the values of fields, a column is null
where a vertex is not there, and parameters have the values of arguments. -/
structure World.Shown (w : World) (d : Dialect) (frame : Frame) (table : BoundTable)
    (scope : Scope) : Prop where
  field : ∀ name, (table.column name).eval d frame = w.field name
  context : ∀ location name t, scope.field location name = some t →
    t.eval d frame = w.context location name
  presence : ∀ location t, scope.presence location = some t →
    (t.eval d frame ≠ .null ↔ w.present location = true)
  argument : ∀ name, d.param name = (w.argument name).items

/-- The value of a term; where a list is expected, a parameter can stand for many. -/
def Sql.Term.Yields (d : Dialect) (frame : Frame) (t : Term) : Value → Prop
  | .one c => t.eval d frame = c
  | .many items => Term.evalItems d frame [t] = items

/-- The scalar is no integer of more than 63 bits and a sign. -/
def Json.IsShort : Json → Prop
  | number (.int z) => z.val < 0x8000000000000000
  | _ => True

def Literal.IsShort (l : Literal) : Prop :=
  match l.json with
  | .array items => ∀ j ∈ items, j.IsShort
  | j => j.IsShort

namespace Expr

/-- No text is looked for inside another, and integers have at most 63 bits and a sign. -/
def Direct : Expr → Prop
  | literal l => l.IsShort
  | not e => e.Direct
  | binary op left right => op ≠ .hasSubstring ∧ left.Direct ∧ right.Direct
  | _ => True

theorem scalar_constant {j : Json} {c : Constant} (hj : j.IsShort) (hc : j.constant? = some c) :
    scalar j = .ok (.constant c) := by
  cases j with
  | number n =>
    cases n with
    | int z =>
      cases hc
      have hz : z.val < 0x8000000000000000 := hj
      rw [scalar, numberConstant, if_pos hz]
    | double d =>
      cases hc
      rfl
  | array items => cases hc
  | object members => cases hc
  | _ =>
    cases hc
    rfl

theorem scalars_constants {items : List Json} {cs : List Constant} (hi : ∀ j ∈ items, j.IsShort)
    (hc : items.mapM Json.constant? = some cs) : scalars items = .ok (cs.map .constant) := by
  induction items generalizing cs with
  | nil =>
    cases hc
    rfl
  | cons j items ih =>
    simp only [List.mapM_cons, Option.bind_eq_bind, Option.bind_eq_some_iff] at hc
    obtain ⟨c, hj, cs, hcs, h⟩ := hc
    cases h
    rw [scalars, scalar_constant (hi j List.mem_cons_self) hj,
      ih (fun j hm => hi j (List.mem_cons_of_mem _ hm)) hcs]
    rfl

variable {d : Dialect} {w : World} {frame : Frame} {table : BoundTable} {scope : Scope}

theorem evalItems_constants (cs : List Constant) :
    Term.evalItems d frame (cs.map .constant) = cs := by
  induction cs with
  | nil => rfl
  | cons c cs ih => rw [List.map_cons, Term.evalItems, ih, Term.eval]; nofun

/-- The items of a collection are those of its value. -/
theorem evalItems_collection (hw : w.Shown d frame table scope) {e : Expr} (he : e.Direct)
    {ts : List Term} (hts : e.collection = .ok ts) {cs : List Constant}
    (hv : e.value w = some (.many cs)) : Term.evalItems d frame ts = cs := by
  unfold collection at hts
  split at hts
  · next items sorted =>
    obtain ⟨cs', hcs, h⟩ := Option.map_eq_some_iff.mp hv
    cases h
    rw [scalars_constants he hcs] at hts
    cases hts
    exact evalItems_constants cs
  · next name =>
    cases hts
    rw [Term.evalItems, Term.evalItems, hw.argument, List.append_nil]
    rw [value, Option.some.injEq] at hv
    rw [hv, Value.items]
  · cases hts

end Expr

namespace Sql.Constant

theorem conj_bools (bs : List Bool) : conj (bs.map .bool) = .bool (bs.all id) := by
  cases h : bs.all id with
  | true =>
    refine conj_true.mpr (List.forall_mem_map.mpr fun b hb => ?_)
    rw [show b = true from List.all_eq_true.mp h b hb]
  | false =>
    have hfalse : Constant.bool false ∈ bs.map Constant.bool := by simpa using h
    rw [conj, if_pos hfalse]

theorem disj_bools (bs : List Bool) : disj (bs.map .bool) = .bool (bs.any id) := by
  cases h : bs.any id with
  | true =>
    refine disj_true.mpr ?_
    simpa using h
  | false =>
    have hfalse : ∀ v ∈ bs.map Constant.bool, v = .bool false := by
      refine List.forall_mem_map.mpr fun b hb => ?_
      rw [show b = false by simpa using List.any_eq_false.mp h b hb]
    have hnot : Constant.bool true ∉ bs.map Constant.bool := fun hm => by cases hfalse _ hm
    rw [disj, if_neg hnot, if_pos hfalse]

/-- A scalar is among others if a comparison with one of them is true. -/
theorem disj_of_among? {d : Dialect} (hd : d.Ordered) {c : Constant} {items : List Constant}
    {holds : Bool} (h : c.among? items = some holds) :
    disj (items.map (d.compare .eq c)) = .bool holds := by
  unfold among? at h
  split at h
  · next hall =>
    have heach : ∀ item ∈ items, d.compare .eq c item = .bool (c.order? item == some .eq) := by
      intro item hm
      obtain ⟨o, ho⟩ := Option.isSome_iff_exists.mp (hall item hm)
      rw [hd _ _ _ _ ho, ho]
      cases o <;> rfl
    have hbools : items.map (d.compare .eq c) =
        (items.map fun item => c.order? item == some .eq).map .bool := by
      rw [List.map_map]
      exact List.map_congr_left heach
    cases h
    rw [hbools, disj_bools, List.any_map]
    rfl
  · cases h

end Sql.Constant

namespace BinaryOp

def comparison? : BinaryOp → Option Comparison
  | eq => some .eq
  | notEq => some .notEq
  | lt => some .lt
  | ltEq => some .ltEq
  | gt => some .gt
  | gtEq => some .gtEq
  | _ => none

/-- An operator that compares holds of two scalars if their order is one that its comparison allows. -/
theorem verdict?_comparison {op : BinaryOp} {c : Comparison} (hop : op.comparison? = some c) :
    op.verdict? = Value.compare? c.allows := by
  cases op <;> cases hop <;> rfl

end BinaryOp

namespace Expr

variable {d : Dialect} {w : World} {frame : Frame} {table : BoundTable} {scope : Scope}

theorem both_ok {combine : Term → Term → Term} {left right : Except Error Term} {t : Term}
    (h : both combine left right = .ok t) :
    ∃ l r, left = .ok l ∧ right = .ok r ∧ t = combine l r := by
  obtain ⟨l, hl, h⟩ := bind_ok h
  obtain ⟨r, hr, h⟩ := bind_ok h
  cases h
  exact ⟨l, r, hl, hr, rfl⟩

theorem orUnknown_ok {location : Location} {found : Option Term} {t : Term}
    (h : orUnknown location found = .ok t) : found = some t := by
  cases found with
  | none => cases h
  | some t' =>
    cases h
    rfl

theorem toTerm_comparison {op : BinaryOp} {c : Comparison} (hop : op.comparison? = some c)
    (left right : Expr) : (binary op left right).toTerm table scope =
      both (.compare c) (left.toTerm table scope) (right.toTerm table scope) := by
  cases op <;> cases hop <;> rfl

theorem eval_and_bools {l r : Term} {a b : Bool} (hl : l.eval d frame = .bool a)
    (hr : r.eval d frame = .bool b) : (Term.and [l, r]).eval d frame = .bool (a && b) := by
  have hconj := Constant.conj_bools [a, b]
  rw [Term.eval, Term.evalEach_eq_map]
  simpa [hl, hr] using hconj

theorem eval_or_bools {l r : Term} {a b : Bool} (hl : l.eval d frame = .bool a)
    (hr : r.eval d frame = .bool b) : (Term.or [l, r]).eval d frame = .bool (a || b) := by
  have hdisj := Constant.disj_bools [a, b]
  rw [Term.eval, Term.evalEach_eq_map]
  simpa [hl, hr] using hdisj

/-- A membership test, whichever side the collection stands on. -/
theorem eval_inList (hd : d.Ordered) (hw : w.Shown d frame table scope) {e : Expr} (he : e.Direct)
    {ts : List Term} (hts : e.collection = .ok ts) {items : List Constant}
    (hv : e.value w = some (.many items)) {t : Term} {c : Constant} (ht : t.eval d frame = c)
    {holds : Bool} (h : c.among? items = some holds) :
    (Term.inList t ts).eval d frame = .bool holds := by
  rw [Term.eval, evalItems_collection hw he hts hv, ht, Constant.disj_of_among? hd h]

theorem yields_literal {l : Literal} (hl : l.IsShort) {v : Value} (hv : l.json.value? = some v)
    {t : Term} (ht : scalar l.json = .ok t) : t.Yields d frame v := by
  obtain ⟨j, sorted⟩ := l
  have hone : j.value? = j.constant?.map .one ∧ j.IsShort := by
    cases j with
    | array items => cases ht
    | object members => cases ht
    | _ => exact ⟨rfl, hl⟩
  obtain ⟨c, hc, rfl⟩ := Option.map_eq_some_iff.mp (hone.1.symm.trans hv)
  rw [scalar_constant hone.2 hc] at ht
  cases ht
  rfl

theorem yields_param (hw : w.Shown d frame table scope) (name : String) :
    (Term.param name).Yields d frame (w.argument name) := by
  have hparam := hw.argument name
  cases h : w.argument name with
  | one c =>
    rw [h] at hparam
    rw [Term.Yields, Term.eval, hparam]
    rfl
  | many items =>
    rw [h] at hparam
    rw [Term.Yields, Term.evalItems, Term.evalItems, hparam, List.append_nil]
    rfl

theorem yields_presence (hw : w.Shown d frame table scope) {location : Location} {t : Term}
    (ht : (scope.presence location).map .isNotNull = some t) :
    t.Yields d frame (.one (.bool (w.present location))) := by
  obtain ⟨column, hc, rfl⟩ := Option.map_eq_some_iff.mp ht
  have hiff := hw.presence location column hc
  rw [Term.Yields, Term.eval, Constant.bool.injEq, Bool.eq_iff_iff, decide_eq_true_iff]
  exact hiff

theorem toTerm_yields_of_leaf (hw : w.Shown d frame table scope) {e : Expr} (hleaf : e.IsLeaf)
    (he : e.Direct) {v : Value} (hv : e.value w = some v) {t : Term}
    (ht : e.toTerm table scope = .ok t) : t.Yields d frame v := by
  cases e with
  | literal l => exact yields_literal he hv ht
  | argument name =>
    cases hv
    cases ht
    exact yields_param hw name
  | localField field =>
    cases hv
    cases ht
    exact hw.field field
  | contextField location field =>
    cases hv
    exact hw.context location field t (orUnknown_ok ht)
  | contextExists location =>
    cases hv
    exact yields_presence hw (orUnknown_ok ht)
  | not e => exact hleaf.elim
  | binary op left right => exact hleaf.elim

/-- The term of an expression that has a value has the same value. -/
theorem toTerm_yields (hd : d.Ordered) (hw : w.Shown d frame table scope) {e : Expr} (he : e.Direct)
    {v : Value} (hv : e.value w = some v) {t : Term} (ht : e.toTerm table scope = .ok t) :
    t.Yields d frame v := by
  induction e generalizing v t with
  | not e ih =>
    obtain ⟨s, hs, h⟩ := bind_ok ht
    cases h
    rw [value] at hv
    split at hv
    · next b hb =>
      cases hv
      have hsub : s.eval d frame = .bool b := ih he hb hs
      rw [Term.Yields, Term.eval, hsub]
      rfl
    · cases hv
  | binary op left right ihl ihr =>
    obtain ⟨hop, hl, hr⟩ := he
    simp only [value, Option.bind_eq_bind, Option.bind_eq_some_iff] at hv
    obtain ⟨u, hu, x, hx, holds, hverdict, h⟩ := hv
    cases h
    -- the six comparisons are one case
    cases hc : op.comparison? with
    | some c =>
      rw [toTerm_comparison hc] at ht
      rw [BinaryOp.verdict?_comparison hc] at hverdict
      obtain ⟨l, r, hlt, hrt, rfl⟩ := both_ok ht
      obtain ⟨a, b, o, rfl, rfl, ho, rfl⟩ := Value.exists_of_compare? hverdict
      have hle : l.eval d frame = a := ihl hl hu hlt
      have hre : r.eval d frame = b := ihr hr hx hrt
      rw [Term.Yields, Term.eval, hle, hre, hd c a b o ho]
    | none =>
      cases op with
      | and =>
        obtain ⟨l, r, hlt, hrt, rfl⟩ := both_ok ht
        obtain ⟨a, b, rfl, rfl, rfl⟩ := Value.exists_of_connect? hverdict
        exact eval_and_bools (ihl hl hu hlt) (ihr hr hx hrt)
      | or =>
        obtain ⟨l, r, hlt, hrt, rfl⟩ := both_ok ht
        obtain ⟨a, b, rfl, rfl, rfl⟩ := Value.exists_of_connect? hverdict
        exact eval_or_bools (ihl hl hu hlt) (ihr hr hx hrt)
      | contains =>
        obtain ⟨r, hrt, ht⟩ := bind_ok ht
        obtain ⟨ts, hts, ht⟩ := bind_ok ht
        cases ht
        obtain ⟨items, c, rfl, rfl, hamong⟩ := Value.exists_of_has? hverdict
        exact eval_inList hd hw hl hts hu (ihr hr hx hrt) hamong
      | inCollection =>
        obtain ⟨l, hlt, ht⟩ := bind_ok ht
        obtain ⟨ts, hts, ht⟩ := bind_ok ht
        cases ht
        obtain ⟨items, c, rfl, rfl, hamong⟩ := Value.exists_of_has? hverdict
        exact eval_inList hd hw hr hts hx (ihl hl hu hlt) hamong
      | hasSubstring => exact absurd rfl hop
      | _ => cases hc
  | _ => exact toTerm_yields_of_leaf hw (by trivial) he hv ht

/-- An expression that is well typed has a value, and its term, if it has one, has the same value wherever the
database shows what the expression is about. -/
theorem toTerm_yields_value (hd : d.Ordered) (hw : w.Shown d frame table scope) {e : Expr}
    (he : e.Direct) {type : ValueType} (h : e.HasType w type) {t : Term}
    (ht : e.toTerm table scope = .ok t) : ∃ v, e.value w = some v ∧ t.Yields d frame v := by
  obtain ⟨v, hv, -⟩ := h.exists_value
  exact ⟨v, hv, toTerm_yields hd hw he hv ht⟩

def species : Location := (Location.root "Animal").descend "out_OfSpecies"

def oneToThree : Literal where
  json := .array [.number (.int ⟨1, by decide, by decide⟩), .number (.int ⟨2, by decide, by decide⟩),
    .number (.int ⟨3, by decide, by decide⟩)]
  sorted := by simp [Json.Sorted, Json.SortedItems]

/-- The color is wanted and the age is one of three, and the species is no cat or is not there. -/
def petFilter : Expr :=
  .binary .and
    (.binary .and (.binary .contains (.argument "wanted") (.localField "color"))
      (.binary .inCollection (.localField "age") (.literal oneToThree)))
    (.binary .or (.binary .notEq (.contextField species "name") (.literal ⟨.text "cat", trivial⟩))
      (.not (.contextExists species)))

def petRow : Row := [("color", .text "red"), ("age", .int 2)]

def speciesRow : Row := [("id", .int 7), ("name", .text "dog")]

def petFrame : Frame := [("animal_1", petRow), ("species_2", speciesRow)]

def petTable : BoundTable := (Table.mk none "animal").bind "animal_1"

def petDialect : Dialect := .typed fun _ => [.text "blue", .text "red"]

def petWorld : World where
  field := petRow.get
  context _ := speciesRow.get
  present _ := true
  argument _ := .many [.text "blue", .text "red"]

def petScope : Scope where
  field _ name := some (.column (some "species_2") name)
  presence _ := some (.column (some "species_2") "id")

theorem petWorld_shown : petWorld.Shown petDialect petFrame petTable petScope := by
  refine ⟨fun _ => rfl, ?_, ?_, fun _ => rfl⟩
  · intro location name t h
    cases h
    rfl
  · intro location t h
    cases h
    exact ⟨fun _ => rfl, fun _ => by decide⟩

theorem toTerm_yields_value_pet : ∃ t, petFilter.toTerm petTable petScope = .ok t ∧
    petFilter.value petWorld = some (.one (.bool true)) ∧ t.eval petDialect petFrame = .bool true := by
  have hdirect : petFilter.Direct := by
    simp [petFilter, Direct, Literal.IsShort, Json.IsShort, oneToThree]
  have htype : petFilter.HasType petWorld (.one .truth) := by
    refine .binary ⟨rfl, rfl⟩ (.binary ⟨rfl, rfl⟩ ?_ ?_) (.binary ⟨rfl, rfl⟩ ?_ ?_)
    · refine .binary (l := .many .text) ⟨.text, rfl, rfl⟩ (.argument ?_) (.localField rfl)
      simp [petWorld, Value.HasType, Constant.kind?]
    · refine .binary (r := .many .number) ⟨.number, rfl, rfl⟩ (.localField rfl) (.literal rfl ?_)
      simp [Value.HasType, Constant.kind?, Constant.number?]
    · exact .binary ⟨.text, rfl, rfl⟩ (.contextField rfl) (.literal rfl rfl)
    · exact .not (.contextExists species)
  have hv : petFilter.value petWorld = some (.one (.bool true)) := rfl
  obtain ⟨v, hvalue, hyields⟩ := toTerm_yields_value (Dialect.typed_ordered _) petWorld_shown hdirect
    htype rfl
  cases hv.symm.trans hvalue
  exact ⟨_, rfl, hv, hyields⟩

end Expr

end GraphPlan
