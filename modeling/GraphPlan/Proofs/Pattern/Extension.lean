import GraphPlan.Proofs.Pattern.Insertion

namespace GraphPlan.Folds

/-- The scopes one after another, with no blocks between them. -/
def consecutive (scopes : List (FoldLocation × List Block)) : List Block :=
  scopes.flatMap fun scope => enclosed scope.1 scope.2

/-- A division into scopes only. -/
def ofEntries (scopes : List (FoldLocation × List Block)) : Division :=
  ⟨scopes.map fun scope => ⟨[], scope.1, scope.2⟩, []⟩

section Entries

variable (scopes : List (FoldLocation × List Block))

theorem entries_ofEntries : (ofEntries scopes).entries = scopes := by
  unfold ofEntries Division.entries
  rw [List.map_map]
  exact List.map_id' scopes

theorem blocks_ofEntries : (ofEntries scopes).blocks = consecutive scopes := by
  unfold ofEntries Division.blocks consecutive
  rw [List.flatMap_map]
  exact List.append_nil _

theorem main_ofEntries : (ofEntries scopes).main = [] := by
  unfold ofEntries Division.main
  rw [List.flatMap_map, List.append_nil]
  exact List.flatMap_eq_nil_iff.mpr fun _ _ => rfl

theorem valid_ofEntries {scopes : List (FoldLocation × List Block)}
    (hp : ∀ scope ∈ scopes, Plain scope.2) (hn : (scopes.map Prod.fst).Nodup) :
    (ofEntries scopes).Valid := by
  refine ⟨?_, ?_, plain_nil, ?_⟩
  · intro s hs
    obtain ⟨scope, -, rfl⟩ := List.mem_map.mp hs
    exact plain_nil
  · intro s hs
    obtain ⟨scope, hm, rfl⟩ := List.mem_map.mp hs
    exact hp scope hm
  · rw [← Division.map_fst_entries, entries_ofEntries]
    exact hn

end Entries

/-- A stream has no main stream exactly when it is a row of scopes. -/
theorem extract_eq_nil_iff {blocks : List Block} {folds : Folds} :
    extract blocks = .ok (folds, []) ↔
      blocks = consecutive folds.entries ∧ ∀ scope ∈ folds.entries, Plain scope.2 := by
  constructor
  · intro h
    obtain ⟨d, hd, hblocks, hentries, hmain⟩ := exists_division h
    obtain ⟨scopes, rest⟩ := d
    have hempty : scopes.flatMap Scope.before = [] ∧ rest = [] := List.append_eq_nil_iff.mp hmain.symm
    have hbefore : ∀ s ∈ scopes, s.before = [] := List.flatMap_eq_nil_iff.mp hempty.1
    have hentries : folds.entries = scopes.map fun s => (s.key, s.inner) := hentries
    rw [hentries]
    refine ⟨?_, ?_⟩
    · rw [← hblocks, Division.blocks, hempty.2, List.append_nil, consecutive, List.flatMap_map]
      apply List.flatMap_congr
      intro s hs
      rw [Scope.blocks, hbefore s hs]
      rfl
    · intro scope hs
      obtain ⟨s, hm, rfl⟩ := List.mem_map.mp hs
      exact hd.inner s hm
  · rintro ⟨hblocks, hplain⟩
    have hx := Division.extract_eq (valid_ofEntries hplain folds.distinct)
      (entries_ofEntries folds.entries).symm
    rwa [blocks_ofEntries, main_ofEntries, ← hblocks] at hx

/-- A scope can only be opened where none is open. -/
theorem endsOpen_of_extract_fold {xs ys : List Block} {key : FoldLocation}
    {accepted : Folds × List Block} (h : extract (xs ++ .fold key :: ys) = .ok accepted) :
    endsOpen xs = false := by
  have hrun : ∃ p, run .init 0 (xs ++ .fold key :: ys) = .ok p := ⟨_, run_of_extract h⟩
  obtain ⟨p, hp⟩ := hrun
  rw [run_append] at hp
  obtain ⟨front, hfront, hp⟩ := bind_ok hp
  obtain ⟨d, hd⟩ := dividedSoFar_init.run hfront
  have hopen := hd.endsOpen_eq
  rw [List.nil_append] at hopen
  rw [hopen]
  rw [run_cons] at hp
  obtain ⟨next, hs, -⟩ := bind_ok hp
  obtain ⟨folds, main, current⟩ := front
  cases current with
  | none => rfl
  | some current => cases hs

end GraphPlan.Folds

namespace GraphPlan.Pattern

open Grammar

/-- The blocks are whole fold scopes, of distinct keys that the stream before them does not open. -/
structure Trails (front : List Block) (scopes : List (FoldLocation × List Block))
    (blocks : List Block) : Prop where
  blocks : blocks = Folds.consecutive scopes
  plain : ∀ scope ∈ scopes, Folds.Plain scope.2
  distinct : (scopes.map Prod.fst).Nodup
  fresh : ∀ scope ∈ scopes, scope.1 ∉ Folds.scopeKeys front

/-- Nothing follows the outputs in a main stream. -/
theorem Makes.append {hierarchy : Hierarchy} {main rest : List Block} {query query' : Query}
    (h : Makes hierarchy main query) (h' : Makes hierarchy (main ++ rest) query') : rest = [] := by
  obtain ⟨p, hr, hp, -⟩ := h
  obtain ⟨p', hr', hp', -⟩ := h'
  rw [Progress.run_append, hr] at hr'
  exact (accepts_done hp).mp ⟨p', _, _, hr', hp'⟩

theorem Makes.unique {hierarchy : Hierarchy} {main : List Block} {query query' : Query}
    (h : Makes hierarchy main query) (h' : Makes hierarchy main query') :
    query'.steps = query.steps ∧ query'.condition = query.condition ∧
      query'.outputs = query.outputs := by
  obtain ⟨p, hr, hp, hs⟩ := h
  obtain ⟨p', hr', hp', hs'⟩ := h'
  obtain rfl := Except.ok.inj (hr.symm.trans hr')
  obtain ⟨hc, ho⟩ := Phase.done.inj (hp.symm.trans hp')
  exact ⟨hs'.symm.trans hs, hc.symm, ho.symm⟩

section Rest

variable {hierarchy : Hierarchy} {s t : List Block}

/-- What follows an accepted stream in another is a row of new scopes, which add to its folds. -/
theorem trails_of_accepted {query query' : Query} (h : ofBlocks hierarchy s = .ok query)
    (h' : ofBlocks hierarchy (s ++ t) = .ok query') :
    ∃ scopes, Trails s scopes t ∧ query'.folds.entries = query.folds.entries ++ scopes ∧
      query'.steps = query.steps ∧ query'.condition = query.condition ∧
      query'.outputs = query.outputs := by
  obtain ⟨main, hx, hm⟩ := ofBlocks_ok_iff.mp h
  obtain ⟨whole, hx', hm'⟩ := ofBlocks_ok_iff.mp h'
  obtain ⟨g, n, ht, hnew, hfolds, rfl⟩ := (Folds.extract_append hx).mp hx'
  obtain rfl := hm.append hm'
  rw [List.append_nil] at hm'
  obtain ⟨hblocks, hplain⟩ := Folds.extract_eq_nil_iff.mp ht
  have hkeys := (Folds.shown_of_extract ht).1
  refine ⟨g.entries, ⟨hblocks, hplain, g.distinct, ?_⟩, hfolds, hm.unique hm'⟩
  intro scope hs
  apply hnew
  rw [hkeys]
  exact List.mem_map_of_mem hs

theorem Trails.extract {scopes : List (FoldLocation × List Block)} (h : Trails s scopes t) :
    Folds.extract t = .ok (⟨scopes, h.distinct⟩, []) :=
  Folds.extract_eq_nil_iff.mpr ⟨h.blocks, h.plain⟩

theorem Trails.disjoint {scopes : List (FoldLocation × List Block)} (h : Trails s scopes t) :
    ∀ key ∈ Folds.scopeKeys t, key ∉ Folds.scopeKeys s := by
  intro key hk
  rw [(Folds.shown_of_extract h.extract).1] at hk
  obtain ⟨scope, hs, rfl⟩ := List.mem_map.mp hk
  exact h.fresh scope hs

theorem accepted_of_trails {scopes : List (FoldLocation × List Block)} (h : Trails s scopes t)
    {query : Query} (hq : ofBlocks hierarchy s = .ok query) :
    ∃ query', ofBlocks hierarchy (s ++ t) = .ok query' := by
  obtain ⟨main, hx, hm⟩ := ofBlocks_ok_iff.mp hq
  have hdistinct : ((query.folds.entries ++ scopes).map Prod.fst).Nodup := by
    rw [List.map_append, ← (Folds.shown_of_extract hx).1]
    refine List.nodup_append.mpr ⟨?_, h.distinct, ?_⟩
    · rw [(Folds.shown_of_extract hx).1]
      exact query.folds.distinct
    · intro key hk key' hk' he
      obtain ⟨scope, hs, rfl⟩ := List.mem_map.mp hk'
      subst he
      exact h.fresh scope hs hk
  refine ⟨{ query with folds := ⟨_, hdistinct⟩ }, ofBlocks_ok_iff.mpr ⟨main, ?_, hm⟩⟩
  exact (Folds.extract_append hx).mpr ⟨_, _, h.extract, h.disjoint, rfl, (List.append_nil main).symm⟩

/-- What is left of an accepted stream without the scopes at its end is accepted. -/
theorem accepted_before_trails {scopes : List (FoldLocation × List Block)} (h : Trails s scopes t)
    {query : Query} (hq : ofBlocks hierarchy (s ++ t) = .ok query) :
    ∃ query', ofBlocks hierarchy s = .ok query' := by
  obtain ⟨whole, hx, hm⟩ := ofBlocks_ok_iff.mp hq
  have hopen : Folds.endsOpen s = false := by
    cases scopes with
    | nil =>
      rw [h.blocks, Folds.consecutive, List.flatMap_nil, List.append_nil] at hx
      exact (Folds.shown_of_extract hx).2.1
    | cons scope scopes =>
      rw [h.blocks] at hx
      exact Folds.endsOpen_of_extract_fold hx
  obtain ⟨folds, main, hs⟩ := Folds.extract_front hopen hx
  obtain ⟨g, n, ht, -, -, rfl⟩ := (Folds.extract_append hs).mp hx
  rw [h.extract] at ht
  cases ht
  rw [List.append_nil] at hm
  exact ⟨{ query with folds := folds }, ofBlocks_ok_iff.mpr ⟨main, hs, hm⟩⟩

end Rest

/-- Of two accepted streams one of which goes on where the other ends, the longer one adds new fold scopes
and nothing else; without fold scopes there are no two such streams. -/
theorem ofBlocks_append (hierarchy : Hierarchy) (s t : List Block) :
    (∀ query query', ofBlocks hierarchy s = .ok query → ofBlocks hierarchy (s ++ t) = .ok query' →
      ∃ scopes, Trails s scopes t ∧ query'.folds.entries = query.folds.entries ++ scopes ∧
        query'.steps = query.steps ∧ query'.condition = query.condition ∧
        query'.outputs = query.outputs) ∧
    ((∃ query, ofBlocks hierarchy s = .ok query) →
      ((∃ query, ofBlocks hierarchy (s ++ t) = .ok query) ↔ ∃ scopes, Trails s scopes t)) ∧
    ((∃ query, ofBlocks hierarchy (s ++ t) = .ok query) →
      ((∃ query, ofBlocks hierarchy s = .ok query) ↔ ∃ scopes, Trails s scopes t)) ∧
    (∀ folds folds' query query', assemble hierarchy folds s = .ok query →
      assemble hierarchy folds' (s ++ t) = .ok query' → t = []) := by
  refine ⟨?_, ?_, ?_, ?_⟩
  · intro query query' h h'
    exact trails_of_accepted h h'
  · intro ⟨query, h⟩
    constructor
    · intro ⟨query', h'⟩
      obtain ⟨scopes, ht, -⟩ := trails_of_accepted h h'
      exact ⟨scopes, ht⟩
    · intro ⟨scopes, ht⟩
      exact accepted_of_trails ht h
  · intro ⟨query', h'⟩
    constructor
    · intro ⟨query, h⟩
      obtain ⟨scopes, ht, -⟩ := trails_of_accepted h h'
      exact ⟨scopes, ht⟩
    · intro ⟨scopes, ht⟩
      exact accepted_before_trails ht h'
  · intro folds folds' query query' h h'
    have hm := (assemble_ok_iff.mp h).2
    have hm' := (assemble_ok_iff.mp h').2
    exact hm.append hm'

/-- Scopes at the end, one of them empty, add folds. An inert block at the end is refused, and so is the
stream without its outputs. -/
theorem ofBlocks_append_parent :
    let stream := fedAnimal ++ andParent
    let scopes : List (FoldLocation × List Block) :=
      [(.behind (.root "Animal") .inward "Fed", []),
        (.behind (.root "Animal") .outward "Likes", [.constructResult .empty])]
    (∃ query query', ofBlocks Hierarchy.exact stream = .ok query ∧
      ofBlocks Hierarchy.exact (stream ++ Folds.consecutive scopes) = .ok query' ∧
      query'.steps = query.steps ∧ ∃ found, Trails stream found (Folds.consecutive scopes)) ∧
    (¬ ∃ query, ofBlocks Hierarchy.exact (stream ++ [.outputSource]) = .ok query) ∧
    (¬ ∃ query, ofBlocks Hierarchy.exact stream.dropLast = .ok query) ∧
    (∃ query, assemble Hierarchy.exact .empty (Folds.mainStream stream) = .ok query) ∧
    ¬ ∃ query, assemble Hierarchy.exact .empty (Folds.mainStream stream ++ [.outputSource]) = .ok query := by
  intro stream scopes
  have hblock {front : List Block} {found : List (FoldLocation × List Block)} {block : Block}
      (h : Trails front found [block]) : False := by
    have hlen := congrArg List.length h.blocks
    cases found with
    | nil => simp [Folds.consecutive] at hlen
    | cons scope found => simp [Folds.consecutive, Folds.enclosed] at hlen
  refine ⟨⟨_, _, rfl, rfl, ?_⟩, ?_, ?_, ⟨_, rfl⟩, ?_⟩
  · obtain ⟨found, ht, -, hs, -⟩ :=
      (ofBlocks_append Hierarchy.exact stream (Folds.consecutive scopes)).1 _ _ rfl rfl
    exact ⟨hs, found, ht⟩
  · intro h
    obtain ⟨found, ht⟩ :=
      ((ofBlocks_append Hierarchy.exact stream [.outputSource]).2.1 ⟨_, rfl⟩).mp h
    exact hblock ht
  · intro h
    obtain ⟨found, ht⟩ := ((ofBlocks_append Hierarchy.exact stream.dropLast
      [.constructResult .empty]).2.2.1 ⟨_, rfl⟩).mp h
    exact hblock ht
  · rintro ⟨query, h⟩
    have hnil := (ofBlocks_append Hierarchy.exact (Folds.mainStream stream) [.outputSource]).2.2.2
      .empty .empty _ query rfl h
    cases hnil

end GraphPlan.Pattern
