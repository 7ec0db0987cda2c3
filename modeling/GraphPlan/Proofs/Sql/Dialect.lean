import GraphPlan.Proofs.Sql.Semantics
import GraphPlan.Settings
import Mathlib.Data.List.Infix

namespace GraphPlan.Sql

/-- Whether a text matches a pattern. A percent sign stands for any text, an underscore for any character,
and a backslash takes the meaning from the character after it. -/
def likeMatch : List Char → List Char → Bool
  | [], text => text.isEmpty
  | '%' :: pattern, text => text.tails.any (likeMatch pattern)
  | '_' :: pattern, _ :: text => likeMatch pattern text
  | '\\' :: c :: pattern, x :: text => x == c && likeMatch pattern text
  | c :: pattern, x :: text => x == c && likeMatch pattern text
  | _ :: _, [] => false

theorem likeMatch_percent {pattern text : List Char} :
    likeMatch ('%' :: pattern) text = true ↔
      ∃ before rest, text = before ++ rest ∧ likeMatch pattern rest = true := by
  rw [likeMatch, List.any_eq_true]
  constructor
  · rintro ⟨rest, hr, hm⟩
    obtain ⟨before, rfl⟩ := (List.mem_tails ..).mp hr
    exact ⟨before, rest, rfl, hm⟩
  · rintro ⟨before, rest, rfl, hm⟩
    exact ⟨rest, (List.mem_tails ..).mpr ⟨before, rfl⟩, hm⟩

/-- Characters without a meaning of their own match themselves. -/
theorem likeMatch_literal {word pattern text : List Char}
    (hw : ∀ c ∈ word, Settings.isMetacharacter c = false) :
    likeMatch (word ++ pattern) text = true ↔
      ∃ rest, text = word ++ rest ∧ likeMatch pattern rest = true := by
  induction word generalizing text with
  | nil => simp
  | cons c word ih =>
    have hc : (c ≠ '%' ∧ c ≠ '_') ∧ c ≠ '\\' := by
      simpa [Settings.isMetacharacter] using hw c List.mem_cons_self
    have ih' := fun t => @ih t fun x hx => hw x (List.mem_cons_of_mem c hx)
    cases text with
    | nil =>
      have hm : likeMatch (c :: (word ++ pattern)) [] = false := by
        rw [likeMatch]
        exact hc.1.1
      simp [hm]
    | cons x text =>
      have hm : likeMatch (c :: (word ++ pattern)) (x :: text) =
          (x == c && likeMatch (word ++ pattern) text) := by
        rw [likeMatch]
        · exact hc.1.1
        · exact hc.1.2
        · intro _ _ h
          exact absurd h hc.2
      rw [List.cons_append, hm, Bool.and_eq_true, ih', beq_iff_eq]
      constructor
      · rintro ⟨rfl, rest, rfl, hr⟩
        exact ⟨rest, rfl, hr⟩
      · rintro ⟨rest, h, hr⟩
        cases h
        exact ⟨rfl, rest, rfl, hr⟩

/-- A word between percent signs is looked for anywhere in the text. -/
theorem likeMatch_anywhere {word text : List Char}
    (hw : ∀ c ∈ word, Settings.isMetacharacter c = false) :
    likeMatch ('%' :: (word ++ ['%'])) text = true ↔ word <:+: text := by
  rw [likeMatch_percent]
  constructor
  · rintro ⟨before, rest, rfl, hm⟩
    obtain ⟨after, rfl, _⟩ := (likeMatch_literal hw).mp hm
    exact ⟨before, after, by rw [List.append_assoc]⟩
  · rintro ⟨before, after, rfl⟩
    refine ⟨before, word ++ after, by rw [List.append_assoc], (likeMatch_literal hw).mpr ?_⟩
    exact ⟨after, rfl, likeMatch_percent.mpr ⟨after, [], by simp, rfl⟩⟩

/-- What standard SQL says of integers and texts, where values of one type are written as decimal texts. -/
structure Dialect.Standard (d : Dialect) (textType : String) : Prop where
  equal : ∀ a b : Int, d.compare .eq (.int a) (.int b) = .bool (a = b)
  less : ∀ a b : Int, d.compare .lt (.int a) (.int b) = .bool (a < b)
  add : ∀ a b : Int, d.add (.int a) (.int b) = .int (a + b)
  cast : ∀ z : Int, d.cast textType (.int z) = .text (intText z)
  concat : ∀ parts : List String, d.concat (parts.map .text) = .text (String.join parts)
  like : ∀ text pattern : String,
    d.like (.text text) (.text pattern) = .bool (likeMatch pattern.toList text.toList)
  compareNull : ∀ op v, d.compare op .null v = .null ∧ d.compare op v .null = .null
  castNull : d.cast textType .null = .null
  concatNull : ∀ values, Constant.null ∈ values → d.concat values = .null
  likeNull : ∀ v, d.like v .null = .null

/-- Whether a comparison goes with an order of two values. -/
def Comparison.allows : Comparison → Ordering → Bool
  | .eq, o => o.isEq
  | .notEq, o => o.isNe
  | .lt, o => o.isLT
  | .ltEq, o => o.isLE
  | .gt, o => o.isGT
  | .gtEq, o => o.isGE

/-- The text that a value is written as. -/
def Constant.text? : Constant → Option String
  | .text s => some s
  | .int z => some (intText z)
  | _ => none

/-- Integers and texts, and no parameters. -/
def Dialect.plain : Dialect where
  compare op a b :=
    match a, b with
    | .int a, .int b => .bool (op.allows (Ord.compare a b))
    | .text a, .text b => .bool (op.allows (Ord.compare a b))
    | _, _ => .null
  add a b :=
    match a, b with
    | .int a, .int b => .int (a + b)
    | _, _ => .null
  cast _ v := v.text?.elim .null .text
  concat values := (values.mapM Constant.text?).elim .null fun parts => .text (String.join parts)
  like a b :=
    match a, b with
    | .text text, .text pattern => .bool (likeMatch pattern.toList text.toList)
    | _, _ => .null
  param _ := []

theorem Dialect.plain_standard (textType : String) : Dialect.plain.Standard textType where
  equal a b := by
    have h : (Ord.compare a b).isEq = decide (a = b) := by
      rw [Bool.eq_iff_iff, Ordering.isEq_iff_eq_eq, Int.compare_eq_eq, decide_eq_true_iff]
    simp [Dialect.plain, Comparison.allows, h]
  less a b := by
    have h : (Ord.compare a b).isLT = decide (a < b) := by
      rw [Bool.eq_iff_iff, Ordering.isLT_iff_eq_lt, Int.compare_eq_lt, decide_eq_true_iff]
    simp [Dialect.plain, Comparison.allows, h]
  add a b := rfl
  cast z := rfl
  concat parts := by
    have h : (parts.map Constant.text).mapM Constant.text? = some parts := by
      induction parts with
      | nil => rfl
      | cons part parts ih => simp [Constant.text?, ih]
    simp [Dialect.plain, h]
  like text pattern := rfl
  compareNull op v := by cases v <;> exact ⟨rfl, rfl⟩
  castNull := rfl
  concatNull values h := by
    have hm : values.mapM Constant.text? = none := by
      induction values with
      | nil => cases h
      | cons v values ih =>
        rcases List.mem_cons.mp h with rfl | h
        · simp [Constant.text?]
        · simp [ih h]
    simp [Dialect.plain, hm]
  likeNull v := by cases v <;> rfl

end GraphPlan.Sql
