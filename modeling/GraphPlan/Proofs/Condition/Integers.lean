import GraphPlan.Proofs.Decimal.Rounding
import GraphPlan.Proofs.Except
import GraphPlan.Proofs.Json.Lexing
import GraphPlan.Sql.Condition
import Mathlib.Algebra.Group.Int.Defs
import Mathlib.Data.List.TakeWhile

namespace GraphPlan

namespace Decimal

/-- The decimal that a text spells: digits, perhaps with a sign before them and a fraction after them. -/
def Scaled.ofText? (text : String) : Option Scaled :=
  let (negative, cs) := Double.splitSign text.toList
  match cs.takeWhile isDigit, cs.dropWhile isDigit with
  | [], _ => none
  | whole, [] => some (scaledOf negative whole [] 0)
  | whole, '.' :: fraction =>
    if fraction ≠ [] ∧ fraction.all isDigit then some (scaledOf negative whole fraction 0) else none
  | _, _ => none

/-- The decimal is this integer. -/
def Scaled.Is (s : Scaled) (z : Int) : Prop :=
  (if s.negative then -(s.digits : Int) else s.digits) * 10 ^ s.exponent.toNat =
    z * 10 ^ (-s.exponent).toNat

/-- The text, read as a decimal number, is exactly this integer. -/
def Spells (text : String) (z : Int) : Prop := ∃ s, Scaled.ofText? text = some s ∧ s.Is z

theorem splitSign_digits {ds : List Char} (hd : ∀ c ∈ ds, isDigit c = true) :
    Double.splitSign ds = (false, ds) := by
  unfold Double.splitSign
  split
  · cases hd '-' List.mem_cons_self
  · cases hd '+' List.mem_cons_self
  · rfl

theorem splitSign_signed (negative : Bool) {ds : List Char} (hd : ∀ c ∈ ds, isDigit c = true) :
    Double.splitSign (signed negative ds).toList = (negative, ds) := by
  rw [signed, String.toList_ofList]
  cases negative with
  | true => rfl
  | false => exact splitSign_digits hd

theorem ofText?_signed (negative : Bool) {ds : List Char} (hne : ds ≠ [])
    (hd : ∀ c ∈ ds, isDigit c = true) :
    Scaled.ofText? (signed negative ds) = some ⟨negative, digitsValue ds, 0⟩ := by
  have htake : ds.takeWhile isDigit = ds := List.takeWhile_eq_self_iff.mpr hd
  have hdrop : ds.dropWhile isDigit = [] := List.dropWhile_eq_nil_iff.mpr hd
  rw [Scaled.ofText?, splitSign_signed negative hd]
  simp [htake, hdrop, scaledOf]

/-- Digits with a sign spell one integer. -/
theorem spells_signed_iff (negative : Bool) {ds : List Char} (hne : ds ≠ [])
    (hd : ∀ c ∈ ds, isDigit c = true) (y : Int) : Spells (signed negative ds) y ↔
      y = if negative then -(digitsValue ds : Int) else digitsValue ds := by
  have hread := ofText?_signed negative hne hd
  constructor
  · rintro ⟨s, hs, hy⟩
    cases hread.symm.trans hs
    simpa [Scaled.Is] using hy.symm
  · rintro rfl
    exact ⟨_, hread, rfl⟩

theorem digitsValue_zeros (ds : List Char) (k : Nat) :
    digitsValue (ds ++ zeros k) = digitsValue ds * 10 ^ k := by
  induction k with
  | zero => simp [zeros]
  | succ k ih =>
    have hlast : digitsValue (ds ++ zeros (k + 1)) = 10 * digitsValue (ds ++ zeros k) := by
      rw [zeros, List.replicate_succ', ← List.append_assoc, digitsValue, List.foldl_append]
      rfl
    rw [hlast, ih, Nat.pow_succ, Nat.mul_left_comm, Nat.mul_comm 10]

end Decimal

open Sql

theorem intText_eq_signed (z : Int) :
    intText z = Decimal.signed (decide (z < 0)) (Nat.toDigits 10 z.natAbs) := by
  rw [← String.toList_inj, toList_intText, Decimal.signed, String.toList_ofList]
  simp only [decide_eq_true_eq]

theorem isDigit_of_mem_toDigits {n : Nat} {c : Char} (hc : c ∈ Nat.toDigits 10 n) :
    Decimal.isDigit c = true := by
  rw [Json.isDigit_eq]
  exact Nat.isDigit_of_mem_toDigits (by decide) (by decide) hc

theorem spells_intText_iff (z y : Int) : Decimal.Spells (intText z) y ↔ y = z := by
  have hz : (if z < 0 then -(z.natAbs : Int) else z.natAbs) = z := by
    split <;> omega
  rw [intText_eq_signed, Decimal.spells_signed_iff _ Nat.toDigits_ne_nil fun _ => isDigit_of_mem_toDigits,
    Json.digitsValue_toDigits]
  simp only [decide_eq_true_eq, hz]

/-- What an integer literal is written as. -/
theorem exists_spells_numberConstant (z : ExactInt) : ∃ x : Int,
    (∀ y, Decimal.Spells (Expr.numberConstant (.int z)).render y ↔ y = x) ∧
    (z.val < 2 ^ 63 → x = z.val) ∧
    (2 ^ 63 ≤ z.val → 1000 ∣ x ∧ z.val - 2048 ≤ x ∧ x ≤ z.val + 3072) := by
  by_cases hz : z.val < 0x8000000000000000
  · refine ⟨z.val, fun y => ?_, fun _ => rfl, fun h => by omega⟩
    rw [Expr.numberConstant, if_pos hz, Constant.render, spells_intText_iff]
  · have hhigh := z.high
    obtain ⟨n, hn⟩ := Int.eq_ofNat_of_zero_le (show 0 ≤ z.val by omega)
    obtain ⟨digits, exponent, hexponent, hplain, hl, hh⟩ :=
      @Decimal.Double.plain_nearest_large n (by omega) (by omega)
    have hdigits : ∀ c ∈ Nat.toDigits 10 digits ++ Decimal.zeros exponent, Decimal.isDigit c = true := by
      intro c hc
      rcases List.mem_append.mp hc with hc | hc
      · exact isDigit_of_mem_toDigits hc
      · rw [List.eq_of_mem_replicate hc]
        rfl
    have hspells := Decimal.spells_signed_iff false (by simp [Nat.toDigits_ne_nil]) hdigits
    rw [Decimal.digitsValue_zeros, Json.digitsValue_toDigits] at hspells
    have hthousand : 1000 ∣ digits * 10 ^ exponent :=
      Nat.dvd_mul_left_of_dvd (Nat.pow_dvd_pow 10 hexponent) digits
    refine ⟨(digits * 10 ^ exponent : Nat), fun y => ?_, fun h => absurd h hz, fun _ => ⟨?_, ?_, ?_⟩⟩
    · rw [Expr.numberConstant, if_neg hz, Constant.render, hn, hplain]
      exact hspells y
    · exact Int.natCast_dvd_natCast.mpr hthousand
    · omega
    · omega

namespace Expr

/-- The terms that a scalar literal becomes: alone, or as an item of a collection that is tested. -/
inductive Becomes (table : BoundTable) (scope : Scope) (j : Json) : Term → Prop where
  | alone (sorted : j.Sorted) {t : Term} (h : (literal ⟨j, sorted⟩).toTerm table scope = .ok t) :
      Becomes table scope j t
  | inCollection {e : Expr} {items : List Json} {sorted : (Json.array items).Sorted} {s t : Term}
      {ts : List Term} {k : Nat}
      (h : (binary .inCollection e (literal ⟨.array items, sorted⟩)).toTerm table scope =
        .ok (.inList s ts)) (hj : items[k]? = some j) (ht : ts[k]? = some t) :
      Becomes table scope j t
  | contains {e : Expr} {items : List Json} {sorted : (Json.array items).Sorted} {s t : Term}
      {ts : List Term} {k : Nat}
      (h : (binary .contains (literal ⟨.array items, sorted⟩) e).toTerm table scope =
        .ok (.inList s ts)) (hj : items[k]? = some j) (ht : ts[k]? = some t) :
      Becomes table scope j t

theorem scalar_of_scalars {items : List Json} {ts : List Term} (h : scalars items = .ok ts) {k : Nat}
    {j : Json} (hj : items[k]? = some j) {t : Term} (ht : ts[k]? = some t) : scalar j = .ok t := by
  induction items generalizing ts k with
  | nil => cases hj
  | cons i items ih =>
    obtain ⟨s, hs, h⟩ := bind_ok h
    obtain ⟨ss, hss, h⟩ := bind_ok h
    cases h
    cases k with
    | zero =>
      cases hj
      cases ht
      exact hs
    | succ k => exact ih hss hj ht

theorem Becomes.scalar {table : BoundTable} {scope : Scope} {j : Json} {t : Term}
    (h : Becomes table scope j t) : Expr.scalar j = .ok t := by
  cases h with
  | alone sorted h => exact h
  | inCollection h hj ht =>
    obtain ⟨s, -, h⟩ := bind_ok h
    obtain ⟨ts, hts, h⟩ := bind_ok h
    cases h
    exact scalar_of_scalars hts hj ht
  | contains h hj ht =>
    obtain ⟨s, -, h⟩ := bind_ok h
    obtain ⟨ts, hts, h⟩ := bind_ok h
    cases h
    exact scalar_of_scalars hts hj ht

/-- Where an integer literal stands for a value, the text of its constant spells one integer. Below `2 ^ 63` that is
the integer itself, and from there on it is a multiple of 1000 that is off by at most 3072. So no larger integer
keeps its value unless 1000 divides it. -/
theorem integer_spelled {table : BoundTable} {scope : Scope} {z : ExactInt} {t : Term}
    (h : Becomes table scope (.number (.int z)) t) : ∃ (c : Constant) (x : Int), t = .constant c ∧
      (∀ y, Decimal.Spells c.render y ↔ y = x) ∧ (z.val < 2 ^ 63 → x = z.val) ∧
      (2 ^ 63 ≤ z.val → 1000 ∣ x ∧ z.val - 2048 ≤ x ∧ x ≤ z.val + 3072) := by
  cases h.scalar
  obtain ⟨x, hspells, hsmall, hlarge⟩ := exists_spells_numberConstant z
  exact ⟨_, x, rfl, hspells, hsmall, hlarge⟩

def longestShort : ExactInt := ⟨9223372036854775807, by decide, by decide⟩

def longest : ExactInt := ⟨18446744073709551615, by decide, by decide⟩

def ages : Literal where
  json := .array [.null, .number (.int longest)]
  sorted := by simp [Json.Sorted, Json.SortedItems]

def animals : BoundTable := (Table.mk none "animal").bind "animal_1"

theorem integer_spelled_longest :
    (∃ c, (literal ⟨.number (.int longestShort), trivial⟩).toTerm animals .empty =
        .ok (.constant c) ∧ Decimal.Spells c.render 9223372036854775807) ∧
    ∃ c, (binary .contains (literal ages) (localField "age")).toTerm animals .empty =
        .ok (.inList (animals.column "age") [.constant .null, .constant c]) ∧
      ¬Decimal.Spells c.render 18446744073709551615 := by
  have halone : Becomes animals .empty (.number (.int longestShort))
      (.constant (numberConstant (.int longestShort))) := by
    refine .alone ?_ rfl
    trivial
  have hitem : Becomes animals .empty (.number (.int longest))
      (.constant (numberConstant (.int longest))) := by
    refine @Becomes.contains _ _ _ (localField "age") [.null, .number (.int longest)] ages.sorted
      (animals.column "age") _ [.constant .null, .constant (numberConstant (.int longest))] 1 ?_ ?_ ?_ <;> rfl
  refine ⟨⟨_, rfl, ?_⟩, ⟨_, rfl, ?_⟩⟩
  · obtain ⟨c, x, hc, hspells, hsmall, -⟩ := integer_spelled halone
    cases hc
    exact (hspells _).mpr (hsmall (by decide)).symm
  · obtain ⟨c, x, hc, hspells, -, hlarge⟩ := integer_spelled hitem
    cases hc
    intro hkept
    have hthousand := (hlarge (by decide)).1
    rw [← (hspells _).mp hkept] at hthousand
    revert hthousand
    decide

/-- The largest of all integer literals comes out as another integer. -/
theorem integer_changed : ∃ c,
    (literal ⟨.number (.int longest), trivial⟩).toTerm animals .empty = .ok (.constant c) ∧
      c.render = "18446744073709552000" ∧ ¬Decimal.Spells c.render 18446744073709551615 := by
  have htext : (Constant.double (.nearest 18446744073709551615)).render =
      intText 18446744073709552000 := by
    decide +kernel
  refine ⟨.double (.nearest 18446744073709551615), rfl, htext.trans (by decide +kernel), ?_⟩
  rw [htext, spells_intText_iff]
  decide

end Expr

end GraphPlan
