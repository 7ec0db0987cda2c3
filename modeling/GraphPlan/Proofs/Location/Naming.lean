import GraphPlan.Location
import GraphPlan.Proofs.Names
import Mathlib.Data.List.Infix

namespace GraphPlan.Location

/-- Two of the three underscores before the number count as part of the name that it is added to. -/
theorem name_eq_numbered (l : Location) :
    l.name = Sql.numbered (pathName l.path ++ "__") l.visit.toNat := by
  have hmark : "___" = "__" ++ "_" := rfl
  simp only [name, Sql.numbered, hmark, String.append_assoc]

theorem name_eq_name_iff {l₁ l₂ : Location} :
    l₁.name = l₂.name ↔ l₁.visit = l₂.visit ∧ pathName l₁.path = pathName l₂.path := by
  constructor
  · intro h
    rw [name_eq_numbered, name_eq_numbered] at h
    obtain ⟨hpath, hvisit⟩ := Sql.numbered_inj h
    have hchars := congrArg String.toList hpath
    rw [String.toList_append, String.toList_append] at hchars
    exact ⟨UInt32.toNat_inj.mp hvisit, String.toList_inj.mp (List.append_cancel_right hchars)⟩
  · rintro ⟨hvisit, hpath⟩
    rw [name, name, hvisit, hpath]

/-- A text in which no separator begins, whatever comes after it. -/
structure Closed (part : List Char) : Prop where
  unsplit : ¬['_', '_'] <:+: part
  back : ¬['_'] <:+ part

/-- A separator after `part` does not begin inside a closed text, so nothing of that text comes after `part`. -/
theorem Closed.eq_nil {part extra rest rest' : List Char} (h : Closed (part ++ extra))
    (heq : '_' :: '_' :: rest = extra ++ '_' :: '_' :: rest') : extra = [] := by
  cases extra with
  | nil => rfl
  | cons c extra =>
    obtain ⟨rfl, hrest⟩ := List.cons.inj heq
    cases extra with
    | nil => exact absurd (List.suffix_append part _) h.back
    | cons c extra =>
      obtain ⟨rfl, -⟩ := List.cons.inj hrest
      exact absurd ⟨part, extra, by simp⟩ h.unsplit

/-- The first separator of a text shows where its first part ends. -/
theorem Closed.append_inj {a b rest rest' : List Char} (ha : Closed a) (hb : Closed b)
    (h : a ++ '_' :: '_' :: rest = b ++ '_' :: '_' :: rest') : a = b ∧ rest = rest' := by
  have hparts : a = b := by
    rcases List.append_eq_append_iff.mp h with ⟨extra, rfl, heq⟩ | ⟨extra, rfl, heq⟩
    · rw [hb.eq_nil heq, List.append_nil]
    · rw [ha.eq_nil heq, List.append_nil]
  rw [hparts] at h
  exact ⟨hparts, by simpa using h⟩

theorem Closed.ne_join {a b rest : List Char} (h : Closed a) : a ≠ b ++ '_' :: '_' :: rest := by
  rintro rfl
  exact h.unsplit ⟨b, rest, by simp⟩

theorem toList_pathName_singleton (part : String) : (pathName [part]).toList = part.toList := by
  simp [pathName]

theorem toList_pathName_cons_cons (part next : String) (path : List String) :
    (pathName (part :: next :: path)).toList =
      part.toList ++ '_' :: '_' :: (pathName (next :: path)).toList := by
  simp [pathName, String.toList_intercalate]

/-- A joined path has its parts in one way only. Parts may be empty or begin with an underscore: the first
separator is found from the front, so only what stands before it matters. -/
theorem pathName_inj {p q : List String} (hp : p ≠ []) (hq : q ≠ [])
    (hclosed : ∀ part ∈ p, Closed part.toList) (hclosed' : ∀ part ∈ q, Closed part.toList)
    (h : pathName p = pathName q) : p = q := by
  induction p generalizing q with
  | nil => exact absurd rfl hp
  | cons a p ih =>
    cases q with
    | nil => exact absurd rfl hq
    | cons b q =>
      have hchars := congrArg String.toList h
      have ha := hclosed a List.mem_cons_self
      have hb := hclosed' b List.mem_cons_self
      -- A path with one part has no separator in its text, and one with more parts has.
      cases p with
      | nil =>
        cases q with
        | nil =>
          rw [toList_pathName_singleton, toList_pathName_singleton] at hchars
          rw [String.toList_inj.mp hchars]
        | cons b' q =>
          rw [toList_pathName_singleton, toList_pathName_cons_cons] at hchars
          exact absurd hchars ha.ne_join
      | cons a' p =>
        cases q with
        | nil =>
          rw [toList_pathName_singleton, toList_pathName_cons_cons] at hchars
          exact absurd hchars.symm hb.ne_join
        | cons b' q =>
          rw [toList_pathName_cons_cons, toList_pathName_cons_cons] at hchars
          obtain ⟨hfirst, hrest⟩ := ha.append_inj hb hchars
          have htail := ih (List.cons_ne_nil _ _) (List.cons_ne_nil _ _)
            (fun part hm => hclosed part (List.mem_cons_of_mem a hm))
            (fun part hm => hclosed' part (List.mem_cons_of_mem b hm)) (String.toList_inj.mp hrest)
          rw [String.toList_inj.mp hfirst, htail]

/-- A word whose underscores stand alone and inside. -/
structure IsPlain (part : String) : Prop where
  nonempty : part ≠ ""
  unsplit : ¬"__".toList <:+: part.toList
  front : ¬"_".toList <+: part.toList
  back : ¬"_".toList <:+ part.toList

instance (part : String) : Decidable (IsPlain part) :=
  decidable_of_iff (part ≠ "" ∧ ¬"__".toList <:+: part.toList ∧ ¬"_".toList <+: part.toList ∧
      ¬"_".toList <:+ part.toList)
    ⟨fun h => ⟨h.1, h.2.1, h.2.2.1, h.2.2.2⟩, fun h => ⟨h.nonempty, h.unsplit, h.front, h.back⟩⟩

theorem IsPlain.closed {part : String} (h : IsPlain part) : Closed part.toList := ⟨h.unsplit, h.back⟩

/-- A location with a path of plain parts. -/
structure Plain (l : Location) : Prop where
  path_ne_nil : l.path ≠ []
  parts : ∀ part ∈ l.path, IsPlain part

instance (l : Location) : Decidable l.Plain :=
  decidable_of_iff (l.path ≠ [] ∧ ∀ part ∈ l.path, IsPlain part)
    ⟨fun h => ⟨h.1, h.2⟩, fun h => ⟨h.path_ne_nil, h.parts⟩⟩

/-- Names are equal exactly for equal visits of paths that are joined to the same text, and the name of a
plain location is that of no other plain location. -/
theorem name_identifies (l₁ l₂ : Location) :
    (l₁.name = l₂.name ↔ l₁.visit = l₂.visit ∧ pathName l₁.path = pathName l₂.path) ∧
      (l₁.Plain → l₂.Plain → l₁.name = l₂.name → l₁ = l₂) := by
  refine ⟨name_eq_name_iff, fun h₁ h₂ h => ?_⟩
  obtain ⟨hvisit, hjoined⟩ := name_eq_name_iff.mp h
  have hpath := pathName_inj h₁.path_ne_nil h₂.path_ne_nil (fun part hm => (h₁.parts part hm).closed)
    (fun part hm => (h₂.parts part hm).closed) hjoined
  rcases l₁ with ⟨path, visit⟩
  rcases l₂ with ⟨path', visit'⟩
  rw [Location.mk.injEq]
  exact ⟨hpath, hvisit⟩

/-- The second visit of a parent. -/
def parentAgain : Location := ((root "Animal").descend "out_ParentOf").revisit

/-- The location of a second visit is found from its name. Where an underscore is at the end of one part or at
the beginning of the next, two locations have one name, and only their joined paths are equal. -/
theorem name_identifies_parentAgain :
    (parentAgain.Plain ∧ (⟨["Animal", "out_ParentOf"], 2⟩ : Location).Plain ∧
      parentAgain.name = (⟨["Animal", "out_ParentOf"], 2⟩ : Location).name ∧
      parentAgain = ⟨["Animal", "out_ParentOf"], 2⟩) ∧
    (⟨["Pet_", "Toy"], 1⟩ : Location) ≠ ⟨["Pet", "_Toy"], 1⟩ ∧
      (⟨["Pet_", "Toy"], 1⟩ : Location).name = (⟨["Pet", "_Toy"], 1⟩ : Location).name ∧
      pathName ["Pet_", "Toy"] = pathName ["Pet", "_Toy"] := by
  have hagain : parentAgain.Plain := by decide +kernel
  have hparent : (⟨["Animal", "out_ParentOf"], 2⟩ : Location).Plain := by decide +kernel
  have hsame : parentAgain.name = (⟨["Animal", "out_ParentOf"], 2⟩ : Location).name := by cbv
  have hclash : (⟨["Pet_", "Toy"], 1⟩ : Location).name = (⟨["Pet", "_Toy"], 1⟩ : Location).name := by
    cbv
  exact ⟨⟨hagain, hparent, hsame, (name_identifies _ _).2 hagain hparent hsame⟩, by decide, hclash,
    ((name_identifies _ _).1.mp hclash).2⟩

end GraphPlan.Location
