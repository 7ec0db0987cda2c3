namespace GraphPlan

/-- A finite set of names, held as an increasing list, so that equal sets are equal values. -/
structure NameSet where
  names : List String
  increasing : names.Pairwise (· < ·)
  deriving DecidableEq

namespace NameSet

/-- Put a name into an increasing list, once. -/
def insertName (name : String) : List String → List String
  | [] => [name]
  | n :: ns =>
    if name < n then name :: n :: ns
    else if n < name then n :: insertName name ns
    else n :: ns

theorem mem_insertName {name x : String} {ns : List String} :
    x ∈ insertName name ns ↔ x = name ∨ x ∈ ns := by
  fun_induction insertName name ns with
  | case1 => simp
  | case2 => simp
  | case3 n ns _ _ ih => simp only [List.mem_cons, ih]; grind
  | case4 n ns h1 h2 =>
    have he : name = n := by
      rcases Std.Trichotomous.rel_or_eq_or_rel_swap (r := fun a b : String => a < b)
        (a := name) (b := n) with h | h | h
      · exact absurd h h1
      · exact h
      · exact absurd h h2
    simp [he]

theorem insertName_increasing (name : String) {ns : List String} (h : ns.Pairwise (· < ·)) :
    (insertName name ns).Pairwise (· < ·) := by
  fun_induction insertName name ns with
  | case1 => simp
  | case2 n ns hlt =>
    refine List.pairwise_cons.mpr ⟨?_, h⟩
    intro x hx
    rcases List.mem_cons.mp hx with rfl | hx
    · exact hlt
    · exact String.lt_trans hlt (List.rel_of_pairwise_cons h hx)
  | case3 n ns _ hlt ih =>
    obtain ⟨hn, hns⟩ := List.pairwise_cons.mp h
    refine List.pairwise_cons.mpr ⟨?_, ih hns⟩
    intro x hx
    rcases mem_insertName.mp hx with rfl | hx
    · exact hlt
    · exact hn x hx
  | case4 => exact h

def empty : NameSet := ⟨[], List.Pairwise.nil⟩

def insert (s : NameSet) (name : String) : NameSet :=
  ⟨insertName name s.names, insertName_increasing name s.increasing⟩

def ofList (names : List String) : NameSet := names.foldl insert empty

def singleton (name : String) : NameSet := ⟨[name], List.pairwise_singleton ..⟩

end NameSet

end GraphPlan
