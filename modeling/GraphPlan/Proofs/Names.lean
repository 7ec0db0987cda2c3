import GraphPlan.Sql.Emission

namespace GraphPlan.Sql

/-- A name with a number at its end. -/
def numbered (name : String) (n : Nat) : String := name ++ "_" ++ Nat.repr n

private theorem underscore_notMem_repr (n : Nat) : '_' ∉ (Nat.repr n).toList := by
  rw [Nat.toList_repr]
  exact Nat.underscore_not_in_toDigits

theorem toDigits_injective {m n : Nat} (h : Nat.toDigits 10 m = Nat.toDigits 10 n) : m = n := by
  rw [← Nat.ofDigitChars_ten_toDigits (n := m), h, Nat.ofDigitChars_ten_toDigits]

theorem repr_injective {m n : Nat} (h : Nat.repr m = Nat.repr n) : m = n := by
  apply toDigits_injective
  rw [← Nat.toList_repr, ← Nat.toList_repr, h]

/-- Two lists that end in equal marks and have no mark after these agree on both sides of them. -/
private theorem append_mark_inj {mark : Char} {a b c d : List Char} (hb : mark ∉ b) (hd : mark ∉ d)
    (h : a ++ mark :: b = c ++ mark :: d) : a = c ∧ b = d := by
  induction a generalizing c with
  | nil =>
    cases c with
    | nil => simpa using h
    | cons x c =>
      simp only [List.nil_append, List.cons_append, List.cons.injEq] at h
      exact absurd (h.2 ▸ List.mem_append_right c List.mem_cons_self) hb
  | cons y a ih =>
    cases c with
    | nil =>
      simp only [List.nil_append, List.cons_append, List.cons.injEq] at h
      exact absurd (h.2.symm ▸ List.mem_append_right a List.mem_cons_self) hd
    | cons x c =>
      simp only [List.cons_append, List.cons.injEq] at h
      have ht := ih h.2
      exact ⟨by rw [h.1, ht.1], ht.2⟩

theorem numbered_inj {a b : String} {m n : Nat} (h : numbered a m = numbered b n) :
    a = b ∧ m = n := by
  have hl := congrArg String.toList h
  simp only [numbered, String.toList_append] at hl
  have hs := append_mark_inj (underscore_notMem_repr m) (underscore_notMem_repr n)
    (by simpa using hl)
  exact ⟨String.toList_inj.mp hs.1, repr_injective (String.toList_inj.mp hs.2)⟩

/-- What all names of common table expressions start with. -/
def Reserved (stem name : String) : Prop := (stem ++ "_").toList <+: name.toList

instance (stem name : String) : Decidable (Reserved stem name) :=
  inferInstanceAs (Decidable ((stem ++ "_").toList <+: name.toList))

theorem reserved_numbered (stem part : String) (n : Nat) :
    Reserved stem (numbered (stem ++ "_" ++ part) n) := by
  refine ⟨(part ++ "_" ++ Nat.repr n).toList, ?_⟩
  simp [numbered, String.toList_append, List.append_assoc]

/-- A number at the end of a name that is not reserved gives none of the generated table names. -/
theorem numbered_ne_of_not_reserved {stem part name : String} (hn : ¬Reserved stem name) (m n : Nat) :
    numbered name m ≠ numbered (stem ++ "_" ++ part) n := by
  intro h
  apply hn
  rw [(numbered_inj h).1]
  exact ⟨part.toList, by simp [String.toList_append]⟩

end GraphPlan.Sql
