import GraphPlan.Proofs.Condition.Lowering

namespace GraphPlan

namespace Sql

/-- A shortest text that matches a word with a percent sign after it. -/
def sampleMatch : List Char → List Char
  | [] => []
  | '%' :: word => sampleMatch word
  | '_' :: word => ' ' :: sampleMatch word
  | ['\\'] => ['%']
  | '\\' :: c :: word => c :: sampleMatch word
  | c :: word => c :: sampleMatch word

/-- What is left when no other rule for the first character applies. -/
theorem plain_of_other_cases {c : Char} {word : List Char} (hpercent : c = '%' → False)
    (hunderscore : c = '_' → False) (halone : c = '\\' → word = [] → False)
    (hescape : ∀ x rest, c = '\\' → word = x :: rest → False) :
    Settings.isMetacharacter c = false := by
  have hbackslash : c ≠ '\\' := by
    intro hc
    cases word with
    | nil => exact halone hc rfl
    | cons x rest => exact hescape x rest hc rfl
  simp [Settings.isMetacharacter, mt hpercent, mt hunderscore, hbackslash]

theorem likeMatch_sampleMatch (word : List Char) :
    likeMatch (word ++ ['%']) (sampleMatch word) = true := by
  fun_induction sampleMatch word with
  | case1 => rfl
  | case2 word ih => exact likeMatch_percent.mpr ⟨[], _, rfl, ih⟩
  | case3 word ih =>
    rw [List.cons_append, likeMatch]
    exact ih
  | case4 => decide
  | case5 c word ih =>
    rw [List.cons_append, List.cons_append, likeMatch, ih, beq_self_eq_true, Bool.and_self]
  | case6 c word hpercent hunderscore halone hescape ih =>
    have hc := plain_of_other_cases hpercent hunderscore halone hescape
    exact (@likeMatch_literal [c] _ _ (by simpa using hc)).mpr ⟨_, rfl, ih⟩

theorem length_sampleMatch_le (word : List Char) : (sampleMatch word).length ≤ word.length := by
  fun_induction sampleMatch word with
  | case1 => exact Nat.le_refl _
  | case2 word ih => exact Nat.le_succ_of_le ih
  | case3 word ih => exact Nat.succ_le_succ ih
  | case4 => exact Nat.le_refl _
  | case5 c word ih => exact Nat.le_succ_of_le (Nat.succ_le_succ ih)
  | case6 c word _ _ _ _ ih => exact Nat.succ_le_succ ih

/-- Only a word without special characters is its own shortest match. -/
theorem plain_of_sampleMatch_eq {word : List Char} (h : sampleMatch word = word) :
    ∀ c ∈ word, Settings.isMetacharacter c = false := by
  fun_induction sampleMatch word with
  | case1 => simp
  | case2 word ih =>
    have hle := length_sampleMatch_le word
    rw [h, List.length_cons] at hle
    omega
  | case3 word ih => cases (List.cons.inj h).1
  | case4 => cases (List.cons.inj h).1
  | case5 c word ih =>
    have hle := length_sampleMatch_le word
    have hlength := congrArg List.length h
    simp only [List.length_cons] at hlength
    omega
  | case6 c word hpercent hunderscore halone hescape ih =>
    have hc := plain_of_other_cases hpercent hunderscore halone hescape
    exact List.forall_mem_cons.mpr ⟨hc, ih (List.cons.inj h).2⟩

/-- A word between percent signs is looked for in every text if and only if it has no special characters. -/
theorem likeMatch_anywhere_iff_plain {word : List Char} :
    (∀ text, likeMatch ('%' :: (word ++ ['%'])) text = true ↔ word <:+: text) ↔
      ∀ c ∈ word, Settings.isMetacharacter c = false := by
  constructor
  · intro h
    have hmatch := likeMatch_percent.mpr ⟨[], _, rfl, likeMatch_sampleMatch word⟩
    have hoccurs : word <:+: sampleMatch word := (h _).mp hmatch
    have hlength := Nat.le_antisymm hoccurs.length_le (length_sampleMatch_le word)
    exact plain_of_sampleMatch_eq (hoccurs.eq_of_length hlength).symm
  · intro h text
    exact likeMatch_anywhere h

/-- Percent signs and underscores match themselves too. -/
theorem likeMatch_append_self {word pattern rest : List Char} (hw : '\\' ∉ word)
    (h : likeMatch pattern rest = true) : likeMatch (word ++ pattern) (word ++ rest) = true := by
  induction word with
  | nil => exact h
  | cons c word ih =>
    have hrest := ih fun hm => hw (List.mem_cons_of_mem c hm)
    by_cases hpercent : c = '%'
    · subst hpercent
      exact likeMatch_percent.mpr ⟨['%'], _, rfl, hrest⟩
    · by_cases hunderscore : c = '_'
      · subst hunderscore
        rw [List.cons_append, List.cons_append, likeMatch]
        exact hrest
      · have hbackslash : c ≠ '\\' := fun hc => hw (hc ▸ List.mem_cons_self)
        have hc : Settings.isMetacharacter c = false := by
          simp [Settings.isMetacharacter, hpercent, hunderscore, hbackslash]
        exact (@likeMatch_literal [c] _ _ (by simpa using hc)).mpr ⟨_, rfl, hrest⟩

theorem likeMatch_of_occurs {word text : List Char} (hw : '\\' ∉ word) (h : word <:+: text) :
    likeMatch ('%' :: (word ++ ['%'])) text = true := by
  obtain ⟨before, after, rfl⟩ := h
  have hend : likeMatch ['%'] after = true := likeMatch_percent.mpr ⟨after, [], by simp, rfl⟩
  exact likeMatch_percent.mpr
    ⟨before, word ++ after, by rw [List.append_assoc], likeMatch_append_self hw hend⟩

end Sql

open Sql

namespace Expr

/-- An expression whose value is a text has no parts. -/
theorem isLeaf_of_text {w : World} {e : Expr} {s : String} (h : e.value w = some (.one (.text s))) :
    e.IsLeaf := by
  cases e with
  | not e =>
    rw [value] at h
    split at h
    · cases h
    · cases h
  | binary op left right =>
    simp only [value, Option.bind_eq_bind, Option.bind_eq_some_iff] at h
    obtain ⟨_, _, _, _, _, _, h⟩ := h
    cases h
  | _ => trivial

theorem direct_of_text {w : World} {e : Expr} {s : String} (h : e.value w = some (.one (.text s))) :
    e.Direct := by
  cases e with
  | literal l =>
    obtain ⟨j, sorted⟩ := l
    cases j with
    | number n =>
      cases n with
      | int z => cases h
      | double d => trivial
    | array items =>
      obtain ⟨_, _, h⟩ := Option.map_eq_some_iff.mp h
      cases h
    | _ => trivial
  | not e => exact (isLeaf_of_text h).elim
  | binary op left right => exact (isLeaf_of_text h).elim
  | _ => trivial

/-- A test whether the text `part` occurs in the text `whole`, as the database sees it. -/
structure TextSearch (d : Dialect) (whole part : String) where
  world : World
  frame : Frame
  table : BoundTable
  scope : Scope
  shown : world.Shown d frame table scope
  left : Expr
  right : Expr
  left_value : left.value world = some (.one (.text whole))
  right_value : right.value world = some (.one (.text part))
  term : Term
  toTerm_eq : (binary .hasSubstring left right).toTerm table scope = .ok term

variable {d : Dialect} {whole part : String}

/-- The test finds what the pattern matches. -/
theorem TextSearch.holds_iff {textType : String} (hd : d.Standard textType)
    (s : TextSearch d whole part) : s.term.Holds d s.frame ↔
      likeMatch ('%' :: (part.toList ++ ['%'])) whole.toList = true := by
  obtain ⟨l, r, hl, hr, hterm⟩ := both_ok s.toTerm_eq
  have hwhole : l.eval d s.frame = .text whole := toTerm_yields_of_leaf s.shown
    (isLeaf_of_text s.left_value) (direct_of_text s.left_value) s.left_value hl
  have hpart : r.eval d s.frame = .text part := toTerm_yields_of_leaf s.shown
    (isLeaf_of_text s.right_value) (direct_of_text s.right_value) s.right_value hr
  have hpattern : (Term.concat [.text "%", r, .text "%"]).eval d s.frame =
      .text (String.join ["%", part, "%"]) := by
    rw [Term.eval, ← hd.concat, Term.evalEach_eq_map]
    simp [hpart, Term.text, Term.eval]
  rw [Term.Holds, hterm, likeInside, Term.eval, hwhole, hpattern, hd.like, Constant.IsTrue,
    Constant.bool.injEq]
  simp [String.join]

/-- A field of a row is searched for a literal. -/
def TextSearch.ofField (d : Dialect) (whole part : String) : TextSearch d whole part where
  world :=
    { field := Row.get [("text", .text whole)]
      context := fun _ _ => .null
      present := fun _ => false
      argument := fun name => .many (d.param name) }
  frame := [("rows", [("text", .text whole)])]
  table := .named "rows"
  scope := .empty
  shown := ⟨fun _ => rfl, nofun, nofun, fun _ => rfl⟩
  left := .localField "text"
  right := .literal ⟨.text part, trivial⟩
  left_value := rfl
  right_value := rfl
  term := likeInside (.column (some "rows") "text") (.text part)
  toTerm_eq := rfl

/-- A test for a text inside another is right, whatever is searched and however the two are given, if and only if
no character of the text that is looked for has a meaning in patterns. Without a backslash in it the text is
found at least wherever it occurs. -/
theorem hasSubstring_exact_iff {textType : String} (hd : d.Standard textType) (part : String) :
    ((∀ (whole : String) (s : TextSearch d whole part),
        s.term.Holds d s.frame ↔ part.toList <:+: whole.toList) ↔
      ∀ c ∈ part.toList, Settings.isMetacharacter c = false) ∧
    ('\\' ∉ part.toList → ∀ (whole : String) (s : TextSearch d whole part),
      part.toList <:+: whole.toList → s.term.Holds d s.frame) := by
  refine ⟨?_, ?_⟩
  · rw [← likeMatch_anywhere_iff_plain]
    constructor
    · intro h text
      have hsearch := h (String.ofList text) (.ofField d _ part)
      rwa [TextSearch.holds_iff hd, String.toList_ofList] at hsearch
    · intro h whole s
      rw [s.holds_iff hd]
      exact h whole.toList
  · intro hpart whole s hoccurs
    exact (s.holds_iff hd).mpr (likeMatch_of_occurs hpart hoccurs)

theorem hasSubstring_exact_iff_words :
    (∀ (whole : String) (s : TextSearch .plain whole "cat"),
      s.term.Holds .plain s.frame ↔ "cat".toList <:+: whole.toList) ∧
    ¬(∀ (whole : String) (s : TextSearch .plain whole "a_b"),
      s.term.Holds .plain s.frame ↔ "a_b".toList <:+: whole.toList) ∧
    ∀ s : TextSearch .plain "xa_by" "a_b", s.term.Holds .plain s.frame := by
  have hplain : "cat".toList.all (!Settings.isMetacharacter ·) = true := by decide
  obtain ⟨hcat, -⟩ := hasSubstring_exact_iff (Dialect.plain_standard "VARCHAR") "cat"
  obtain ⟨hscore, hfound⟩ := hasSubstring_exact_iff (Dialect.plain_standard "VARCHAR") "a_b"
  refine ⟨hcat.mpr ?_, fun h => ?_, fun s => hfound (by decide) _ s (by decide)⟩
  · intro c hc
    simpa using List.all_eq_true.mp hplain c hc
  · cases hscore.mp h '_' (by decide)

/-- A percent sign is found where there is none. -/
theorem hasSubstring_finds_absent : ∃ term,
    (binary .hasSubstring (.localField "name") (.literal ⟨.text "100%", trivial⟩)).toTerm
      ((Table.mk none "animal").bind "animal_1") .empty = .ok term ∧
    term.Holds .plain [("animal_1", [("name", .text "1000")])] ∧
    ¬"100%".toList <:+: "1000".toList := by
  exact ⟨_, rfl, by decide, by decide⟩

end Expr

end GraphPlan
