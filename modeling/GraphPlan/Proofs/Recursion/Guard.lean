import GraphPlan.Proofs.Emission.Census

/-!
What keeps a recursion from going round in circles.

A recursive table has, beside each vertex, the text of the path to it. The anchor starts a path, each step
puts one vertex more at its end, and a hop is only taken to a vertex whose text is not found on the path
between two delimiters. So the guard is as good as the delimiter: it is exact where some character of the
delimiter cannot stand in the text of a vertex, and it is not where the delimiter is a part of such texts.
-/

namespace GraphPlan.Sql

/-- The parts of a recursive table that keep its paths. -/
structure PathGuard where
  /-- The vertex that a path starts with. -/
  start : Term
  /-- The path that has only this vertex. -/
  seed : Term
  /-- The vertex that a hop leads to. -/
  next : Term
  /-- The path with this vertex at its end. -/
  grown : Term
  /-- The condition of a hop. -/
  filter : Term
  /-- The part of the condition that is about the path. -/
  unvisited : Term

/-- The vertex is in the first of four columns and the path in the last; the path is looked at by a negated
pattern at the end of the condition. -/
def pathGuard? (anchor step : Select) : Option PathGuard :=
  match anchor.projection, step.projection, step.filter with
  | [start, _, _, seed], [next, _, _, grown], some (.and [within, .not (.like text pattern)]) =>
    some {
      start := start.term
      seed := seed.term
      next := next.term
      grown := grown.term
      filter := .and [within, .not (.like text pattern)]
      unvisited := .not (.like text pattern) }
  | _, _, _ => none

namespace PathGuard

/-- Among the integers of a kind, the guard lets through all but those on the path. -/
def Tells (g : PathGuard) (d : Dialect) (settings : Settings) (name : String) (p : Int → Prop) : Prop :=
  ∀ (ids : List Int) (candidate : Int), (∀ z ∈ candidate :: ids, p z) → ∀ frame : Frame,
    frame.get (some name) settings.pathColumn =
      .text (wordPath settings.pathDelimiter (ids.map intText)) →
    g.next.eval d frame = .int candidate →
    (g.unvisited.Holds d frame ↔ candidate ∉ ids)

end PathGuard

namespace Recursion

def guard (r : Recursion) : PathGuard where
  start := r.base
  seed := .concat [r.delimiter, r.onPath r.base, r.delimiter]
  next := r.next
  grown := .concat [r.previous.column r.settings.pathColumn, r.onPath r.next, r.delimiter]
  filter := .and [r.withinDepth, r.unvisited]
  unvisited := r.unvisited

theorem pathGuard?_eq (r : Recursion) : pathGuard? r.anchor r.step = some r.guard := rfl

section

variable {r : Recursion} {d : Dialect}

/-- A step may come upon any path, after any number of hops, and look at any vertex. -/
theorem exists_stepFrame (hcheck : r.settings.check = .ok ())
    (hlabels : r.edges.qualifier ≠ r.previous.qualifier) (vertex : Constant) (path : String) (hops : Int) :
    ∃ frame : Frame, frame.get (some r.previous.qualifier) r.settings.pathColumn = .text path ∧
      frame.get (some r.previous.qualifier) r.settings.depthColumn = .int hops ∧
      r.next.eval d frame = vertex := by
  let row : Row := [(r.settings.depthColumn, .int hops), (r.settings.pathColumn, .text path)]
  have hframe := stepFrame_rows hlabels [(r.track.source, vertex)] row
  have hcolumns := columns_of_check hcheck
  refine ⟨r.stepFrame [(r.track.source, vertex)] row, ?_, ?_, ?_⟩
  · rw [Frame.get, hframe.2]
    simp [row, hcolumns.symm]
  · rw [Frame.get, hframe.2]
    simp [row]
  · rw [next, eval_column, hframe.1]
    simp

/-- Integers are told from one another if the delimiter has a character that none of them is written with. -/
theorem tells_of_mark (hd : d.Standard r.settings.castType) (hcheck : r.settings.check = .ok ())
    {p : Int → Prop} {mark : Char → Bool} (hp : ∀ z, p z → ∀ c ∈ (intText z).toList, mark c = false)
    (hm : ∃ c ∈ r.settings.pathDelimiter.toList, mark c = true) :
    r.guard.Tells d r.settings r.previous.qualifier p := by
  intro ids candidate hids frame hpath hnext
  have hword : d.cast r.settings.castType (r.next.eval d frame) = .text (intText candidate) := by
    have hnext : r.next.eval d frame = .int candidate := hnext
    rw [hnext, hd.cast]
  have hunvisited := unvisited_iff hd (delimiter_of_check hcheck).2 (intText_plain candidate) hpath hword
  rw [intText_between_iff hm fun z hz => hp z (hids z hz)] at hunvisited
  exact hunvisited

/-- They are not where one of them is found in another. -/
theorem not_tells (hd : d.Standard r.settings.castType) (hcheck : r.settings.check = .ok ())
    (hlabels : r.edges.qualifier ≠ r.previous.qualifier) {p : Int → Prop} {id candidate : Int}
    (hp : ∀ z ∈ [candidate, id], p z) (hne : candidate ≠ id)
    (hfound : r.settings.pathDelimiter.toList ++ (intText candidate).toList ++
      r.settings.pathDelimiter.toList <:+: (wordPath r.settings.pathDelimiter [intText id]).toList) :
    ¬r.guard.Tells d r.settings r.previous.qualifier p := by
  intro htells
  obtain ⟨frame, hpath, -, hnext⟩ := exists_stepFrame (d := d) hcheck hlabels (.int candidate)
    (wordPath r.settings.pathDelimiter [intText id]) 0
  have hword : d.cast r.settings.castType (r.next.eval d frame) = .text (intText candidate) := by
    rw [hnext, hd.cast]
  have hunvisited := unvisited_iff hd (delimiter_of_check hcheck).2 (intText_plain candidate) hpath hword
  exact hunvisited.mp ((htells [id] candidate hp frame hpath hnext).mpr (by simpa using hne)) hfound

end

end Recursion

/-- If a delimiter is made of digits, then an integer can have it inside. -/
theorem exists_found_of_digits {delimiter : String} (h : ∀ c ∈ delimiter.toList, c.isDigit = true) :
    ∃ n : Nat, (1 : Int) ≠ n ∧ delimiter.toList ++ (intText 1).toList ++ delimiter.toList <:+:
      (wordPath delimiter [intText n]).toList := by
  have hone : intText 1 = "1" := by decide
  obtain ⟨n, hn⟩ : ∃ n : Nat, intText n = "1" ++ (delimiter ++ "1") := by
    apply exists_intText
    intro c hc
    rw [String.toList_append, List.mem_append] at hc
    rcases hc with hc | hc
    · exact h c hc
    · have hdigit : c = '1' := by simpa using hc
      rw [hdigit]
      decide
  refine ⟨n, ?_, [], '1' :: delimiter.toList, ?_⟩
  · intro heq
    rw [← heq, hone] at hn
    have hlength := congrArg (fun text => text.toList.length) hn
    simp at hlength
  · rw [hone]
    simp [wordPath, hn, String.toList_append]

/-- If it is made of signs, then it takes the sign from an integer. -/
theorem found_of_signs {delimiter : String} (h : ∀ c ∈ delimiter.toList, c = '-') :
    delimiter.toList ++ (intText 1).toList ++ delimiter.toList <:+:
      (wordPath delimiter [intText (-1)]).toList := by
  have hsigns : delimiter.toList ++ ['-'] = '-' :: delimiter.toList := by
    rw [List.eq_replicate_of_mem h, ← List.replicate_succ', List.replicate_succ]
  have hpath : (wordPath delimiter [intText (-1)]).toList =
      (delimiter.toList ++ ['-']) ++ (intText 1).toList ++ delimiter.toList := by
    have hone : intText (-1) = "-" ++ intText 1 := by decide
    simp [wordPath, hone, String.toList_append]
  rw [hpath, hsigns]
  exact ⟨['-'], [], by simp⟩

/-- Every recursive table of a statement was made for a recursion of the tree. -/
theorem exists_madeFor {settings : Settings} {catalog : Catalog} {tree : QueryTree}
    {statement : Statement} (hb : tree.Built) (h : emit settings catalog tree = .ok statement) {c : Cte}
    (hc : c ∈ statement.ctes) {anchor step : Select} {combinator : Combinator}
    (hbody : c.body = .compound anchor combinator step) :
    settings.check = .ok () ∧ ∃ entry ∈ tree.entries, ∃ recurse setup edge, ∃ r : Recursion,
      entry.node.role = .recurse recurse ∧ r.MadeFor setup recurse entry.node edge ∧
      setup.settings = settings ∧ c = r.cte ∧ anchor = r.anchor ∧ step = r.step := by
  obtain ⟨hcheck, combinator', root, ms, -, -, hemission⟩ := exists_emission hb h
  obtain ⟨_, hrun⟩ := hemission.run
  refine ⟨hcheck, ?_⟩
  rcases hemission.mem_ctes hc with rfl | ⟨m, hm, rfl | rfl⟩
  · cases hbody
  · cases hbody
    have hsound := hrun.sound m hm
    obtain ⟨e, he, hnode⟩ := hsound.placed.lookup
    have hmade := hemission.madeFor hm
    exact ⟨e, List.mem_of_getElem? he, m.tie.hook.recurse, _, m.edge, _, hnode ▸ hsound.role,
      hnode ▸ hmade, rfl, rfl, rfl, rfl⟩
  · cases hbody

/-- The recursive table of the herd, under settings that it is known to be emitted with. -/
theorem exists_herd_recursion {settings : Settings} {names : List (Option String)}
    (h : (emit settings herdCatalog herdTree).toOption.map Statement.recursionNames = some [names]) :
    ∃ statement c anchor combinator step, emit settings herdCatalog herdTree = .ok statement ∧
      c ∈ statement.ctes ∧ c.body = .compound anchor combinator step := by
  obtain ⟨statement, hemit, hnames⟩ := exists_statement h
  obtain ⟨c, hc, anchor, combinator, step, hbody, -⟩ := exists_recursion_of_names
    (hnames ▸ List.mem_singleton_self _)
  exact ⟨statement, c, anchor, combinator, step, hemit, hc, hbody⟩

/-- Settings that pass their check do not make every guard exact on integers. One is so on natural numbers if
and only if the delimiter has a character that is no digit, and on all integers if one of its characters is
neither a digit nor a sign. It is not if there are only signs. -/
theorem emit_guard_tells_integers {settings : Settings} {catalog : Catalog} {tree : QueryTree}
    {statement : Statement} (hb : tree.Built) (h : emit settings catalog tree = .ok statement) {c : Cte}
    (hc : c ∈ statement.ctes) {anchor step : Select} {combinator : Combinator}
    (hbody : c.body = .compound anchor combinator step) :
    ∃ g, pathGuard? anchor step = some g ∧ ∀ d : Dialect, d.Standard settings.castType →
      (g.Tells d settings c.name (0 ≤ ·) ↔
        ∃ x ∈ settings.pathDelimiter.toList, x.isDigit = false) ∧
      ((∃ x ∈ settings.pathDelimiter.toList, x.isDigit = false ∧ x ≠ '-') →
        g.Tells d settings c.name fun _ => True) ∧
      ((∀ x ∈ settings.pathDelimiter.toList, x = '-') →
        ¬g.Tells d settings c.name fun _ => True) := by
  obtain ⟨hcheck, _, _, _, setup, _, r, _, hmade, rfl, rfl, rfl, rfl⟩ :=
    exists_madeFor hb h hc hbody
  rw [← hmade.settings] at hcheck ⊢
  refine ⟨r.guard, r.pathGuard?_eq, fun d hd => ⟨⟨?_, ?_⟩, ?_, ?_⟩⟩
  · intro htells
    by_contra hnone
    obtain ⟨n, hne, hfound⟩ := exists_found_of_digits fun x hx => by
      simpa using fun hdigit => hnone ⟨x, hx, hdigit⟩
    exact Recursion.not_tells hd hcheck hmade.labels.2 (by simp) hne hfound htells
  · rintro ⟨x, hx, hdigit⟩
    have hdigits : ∀ z : Int, 0 ≤ z → ∀ c ∈ (intText z).toList, (!c.isDigit) = false := by
      intro z hz c hc
      rw [intText_digits hz c hc, Bool.not_true]
    exact Recursion.tells_of_mark hd hcheck hdigits ⟨x, hx, by rw [hdigit, Bool.not_false]⟩
  · rintro ⟨x, hx, hdigit, hsign⟩
    exact Recursion.tells_of_mark hd hcheck (fun z _ => intText_chars z)
      ⟨x, hx, by simp [isMark, hdigit, hsign]⟩
  · intro hsigns
    exact Recursion.not_tells hd hcheck hmade.labels.2 (by simp) (by decide) (found_of_signs hsigns)

/-- Settings that pass their check, with a delimiter that is the sign of an integer. -/
def signed : Settings := { Settings.standard with pathDelimiter := "-" }

theorem emit_guard_tells_integers_signed : ∃ statement c anchor combinator step g,
    emit signed herdCatalog herdTree = .ok statement ∧ c ∈ statement.ctes ∧
    c.body = .compound anchor combinator step ∧ pathGuard? anchor step = some g ∧
    g.Tells .plain signed c.name (0 ≤ ·) ∧ ¬g.Tells .plain signed c.name fun _ => True := by
  have hnames : (emit signed herdCatalog herdTree).toOption.map Statement.recursionNames =
      some [["parent_id", "id", "__depth_internal_name", "__path_internal_name"].map some] := by
    decide +kernel
  have hdelimiter : signed.pathDelimiter.toList = ['-'] := by decide
  obtain ⟨statement, c, anchor, combinator, step, hemit, hc, hbody⟩ := exists_herd_recursion hnames
  obtain ⟨g, hguard, htells⟩ := emit_guard_tells_integers herdTree_built hemit hc hbody
  obtain ⟨hnatural, -, hsigns⟩ := htells .plain (Dialect.plain_standard _)
  rw [hdelimiter] at hnatural hsigns
  refine ⟨statement, c, anchor, combinator, step, g, hemit, hc, hbody, hguard, ?_, ?_⟩
  · exact hnatural.mpr ⟨'-', List.mem_singleton_self _, by decide⟩
  · exact hsigns fun x hx => List.mem_singleton.mp hx

/-- Settings that pass their check, with a digit for the delimiter. -/
def zeroed : Settings := { Settings.standard with pathDelimiter := "0" }

theorem emit_guard_confuses_integers : ∃ statement c anchor combinator step g,
    zeroed.check = .ok () ∧ emit zeroed herdCatalog herdTree = .ok statement ∧
    c ∈ statement.ctes ∧ c.body = .compound anchor combinator step ∧
    pathGuard? anchor step = some g ∧ (102 : Int) ∉ [1, 2] ∧ ∃ frame : Frame,
      frame.get (some c.name) zeroed.pathColumn =
        .text (wordPath zeroed.pathDelimiter ([1, 2].map intText)) ∧
      g.next.eval .plain frame = .int 102 ∧ ¬g.unvisited.Holds .plain frame := by
  have hnames : (emit zeroed herdCatalog herdTree).toOption.map Statement.recursionNames =
      some [["parent_id", "id", "__depth_internal_name", "__path_internal_name"].map some] := by
    decide +kernel
  obtain ⟨statement, c, anchor, combinator, step, hemit, hc, hbody⟩ := exists_herd_recursion hnames
  obtain ⟨hcheck, _, _, _, setup, _, r, _, hmade, hsettings, rfl, rfl, rfl⟩ :=
    exists_madeFor herdTree_built hemit hc hbody
  have hown := hmade.settings.trans hsettings
  have hstandard : Dialect.plain.Standard r.settings.castType := Dialect.plain_standard _
  obtain ⟨frame, hpath, -, hnext⟩ := Recursion.exists_stepFrame (r := r) (d := .plain) (hown ▸ hcheck)
    hmade.labels.2 (.int 102) (wordPath zeroed.pathDelimiter ([1, 2].map intText)) 0
  have hunvisited := Recursion.unvisited_iff hstandard (delimiter_of_check (hown ▸ hcheck)).2
    (intText_plain 102) hpath (by rw [hnext, hstandard.cast])
  rw [hown] at hpath hunvisited
  refine ⟨statement, _, _, _, _, r.guard, hcheck, hemit, hc, rfl, r.pathGuard?_eq, by decide,
    frame, hpath, hnext, ?_⟩
  -- the whole path is the integer between two delimiters
  have hwhole : zeroed.pathDelimiter.toList ++ (intText 102).toList ++ zeroed.pathDelimiter.toList =
      (wordPath zeroed.pathDelimiter ([1, 2].map intText)).toList := by
    decide
  intro hholds
  exact hunvisited.mp hholds (hwhole ▸ List.infix_refl _)

end GraphPlan.Sql
