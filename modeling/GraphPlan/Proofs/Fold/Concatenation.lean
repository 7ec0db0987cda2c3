import GraphPlan.Proofs.Fold.Division

namespace GraphPlan.Folds

/-- Whether a scope is open after a block, given whether one was open before it. -/
def openAfter (isOpen : Bool) : Block → Bool
  | .fold _ => true
  | .unfold => false
  | _ => isOpen

/-- The last block that opens or closes a scope opens one. -/
def endsOpen (blocks : List Block) : Bool := blocks.foldl openAfter false

def scopeKey? : Block → Option FoldLocation
  | .fold key => some key
  | _ => none

/-- The keys of the scopes that a stream opens, in their order. -/
def scopeKeys (blocks : List Block) : List FoldLocation := blocks.filterMap scopeKey?

/-- The blocks outside of scopes, given whether a scope is open at the start. -/
def mainFrom (isOpen : Bool) : List Block → List Block
  | [] => []
  | block :: blocks =>
    if plain block && !isOpen then block :: mainFrom (openAfter isOpen block) blocks
    else mainFrom (openAfter isOpen block) blocks

def mainStream (blocks : List Block) : List Block := mainFrom false blocks

theorem openAfter_of_plain {block : Block} (h : plain block = true) (isOpen : Bool) :
    openAfter isOpen block = isOpen := by
  cases block <;> first | rfl | cases h

theorem scopeKey?_of_plain {block : Block} (h : plain block = true) : scopeKey? block = none := by
  cases block <;> first | rfl | cases h

theorem Plain.tail {block : Block} {blocks : List Block} (h : Plain (block :: blocks)) :
    plain block = true ∧ Plain blocks :=
  ⟨h block List.mem_cons_self, fun b hb => h b (List.mem_cons_of_mem block hb)⟩

theorem Plain.foldl_openAfter {xs : List Block} (h : Plain xs) (isOpen : Bool) :
    xs.foldl openAfter isOpen = isOpen := by
  induction xs with
  | nil => rfl
  | cons x xs ih =>
    have hx := openAfter_of_plain h.tail.1 isOpen
    rw [List.foldl_cons, hx]
    exact ih h.tail.2

theorem Plain.scopeKeys {xs : List Block} (h : Plain xs) : scopeKeys xs = [] := by
  apply List.filterMap_eq_nil_iff.mpr
  intro x hx
  exact scopeKey?_of_plain (h x hx)

theorem Plain.mainFrom_append {xs : List Block} (h : Plain xs) (isOpen : Bool) (ys : List Block) :
    mainFrom isOpen (xs ++ ys) = (if isOpen then [] else xs) ++ mainFrom isOpen ys := by
  induction xs with
  | nil => cases isOpen <;> rfl
  | cons x xs ih =>
    have hx := h.tail.1
    have ht := ih h.tail.2
    simp only [List.cons_append, mainFrom, openAfter_of_plain hx, hx, Bool.true_and, ht]
    cases isOpen <;> rfl

theorem scopeKeys_append (xs ys : List Block) : scopeKeys (xs ++ ys) = scopeKeys xs ++ scopeKeys ys :=
  List.filterMap_append

theorem mem_scopeKeys {key : FoldLocation} {blocks : List Block} :
    key ∈ scopeKeys blocks ↔ .fold key ∈ blocks := by
  unfold scopeKeys
  rw [List.mem_filterMap]
  constructor
  · intro ⟨block, hm, hk⟩
    cases block with
    | fold scope =>
      cases hk
      exact hm
    | _ => cases hk
  · intro hm
    exact ⟨.fold key, hm, rfl⟩

section Scopes

variable {s : Scope}

theorem Scope.scopeKeys_blocks (hb : Plain s.before) (hi : Plain s.inner) :
    scopeKeys s.blocks = [s.key] := by
  have hunfold : scopeKeys (.fold s.key :: (s.inner ++ [.unfold])) =
      s.key :: (scopeKeys s.inner ++ []) := by
    simp [scopeKeys, scopeKey?]
  rw [Scope.blocks, scopeKeys_append, hb.scopeKeys, hunfold, hi.scopeKeys]
  rfl

theorem Scope.foldl_openAfter (s : Scope) (isOpen : Bool) :
    s.blocks.foldl openAfter isOpen = false := by
  simp [Scope.blocks, openAfter]

theorem Scope.mainFrom_append (hb : Plain s.before) (hi : Plain s.inner) (more : List Block) :
    mainFrom false (s.blocks ++ more) = s.before ++ mainFrom false more := by
  have hafter : mainFrom true (s.inner ++ ([.unfold] ++ more)) = mainFrom false more := by
    rw [hi.mainFrom_append]
    rfl
  rw [Scope.blocks, List.append_assoc, hb.mainFrom_append, List.cons_append, List.append_assoc]
  exact congrArg (s.before ++ ·) hafter

end Scopes

/-- What a stream shows of its scopes is what its division has. -/
theorem Division.shown {d : Division} (hd : d.Valid) :
    scopeKeys d.blocks = d.keys ∧ endsOpen d.blocks = false ∧ mainStream d.blocks = d.main := by
  obtain ⟨scopes, rest⟩ := d
  have hrest : Plain rest := hd.rest
  have hscopes : ∀ s ∈ scopes, Plain s.before ∧ Plain s.inner := fun s hm =>
    ⟨hd.before s hm, hd.inner s hm⟩
  clear hd
  simp only [Division.blocks, Division.keys, Division.main, endsOpen, mainStream]
  induction scopes with
  | nil =>
    have hm := hrest.mainFrom_append false []
    refine ⟨hrest.scopeKeys, hrest.foldl_openAfter false, ?_⟩
    simpa [mainFrom] using hm
  | cons s scopes ih =>
    obtain ⟨hb, hi⟩ := hscopes s List.mem_cons_self
    obtain ⟨hk, ho, hm⟩ := ih fun t ht => hscopes t (List.mem_cons_of_mem s ht)
    simp only [List.flatMap_cons, List.append_assoc, List.map_cons]
    refine ⟨?_, ?_, ?_⟩
    · rw [scopeKeys_append, Scope.scopeKeys_blocks hb hi, hk]
      rfl
    · rw [List.foldl_append, s.foldl_openAfter]
      exact ho
    · rw [Scope.mainFrom_append hb hi, hm]

theorem shown_of_extract {blocks main : List Block} {folds : Folds}
    (h : extract blocks = .ok (folds, main)) :
    scopeKeys blocks = folds.entries.map Prod.fst ∧ endsOpen blocks = false ∧
      mainStream blocks = main := by
  obtain ⟨d, hd, rfl, he, rfl⟩ := exists_division h
  have hs := Division.shown hd
  rw [he, d.map_fst_entries]
  exact hs

theorem run_cons (p : Progress) (position : Nat) (block : Block) (blocks : List Block) :
    run p position (block :: blocks) =
      (step p position block).bind fun next => run next (position + 1) blocks := by
  rw [run]
  cases step p position block <;> rfl

theorem run_of_extract {blocks main : List Block} {folds : Folds}
    (h : extract blocks = .ok (folds, main)) : run .init 0 blocks = .ok ⟨folds, main, none⟩ := by
  unfold extract at h
  split at h
  · cases h
  · next hr =>
    cases h
    exact hr
  · cases h

/-- A scope is open in the reading exactly when the blocks that were read say so. -/
theorem DividedSoFar.endsOpen_eq {read : List Block} {p : Progress} {d : Division} (h : DividedSoFar read p d) :
    endsOpen read = p.current.isSome := by
  obtain ⟨-, ho, -⟩ := Division.shown h.valid
  have hread : endsOpen read = (opened p.current).foldl openAfter (endsOpen d.blocks) := by
    rw [h.blocks, endsOpen, List.foldl_append]
    rfl
  rw [hread, ho]
  cases hc : p.current with
  | none => rfl
  | some current =>
    obtain ⟨scope, inner⟩ := current
    have hi := (h.current scope inner hc).2
    exact hi.foldl_openAfter true

/-- A front of an accepted stream that leaves no scope open is accepted. -/
theorem extract_front {xs ys : List Block} {accepted : Folds × List Block}
    (ho : endsOpen xs = false) (h : extract (xs ++ ys) = .ok accepted) :
    ∃ folds main, extract xs = .ok (folds, main) := by
  obtain ⟨p, hp⟩ := (viable_iff xs).mp ⟨ys, accepted, h⟩
  obtain ⟨folds, main, current⟩ := p
  obtain ⟨d, hd⟩ := dividedSoFar_init.run hp
  have hc := hd.endsOpen_eq
  rw [List.nil_append, ho] at hc
  cases current with
  | none => exact ⟨folds, main, extract_of_run hp⟩
  | some current => cases hc

/-- The second state is the first with a front before it that had these scopes and this main stream. -/
structure Follows (front : Folds) (before : List Block) (p q : Progress) : Prop where
  folds : q.folds.entries = front.entries ++ p.folds.entries
  main : q.main = before ++ p.main
  current : q.current = p.current
  fresh : ∀ scope inner, p.current = some (scope, inner) → scope ∉ front.entries.map Prod.fst

theorem follows_init (front : Folds) (before : List Block) :
    Follows front before .init ⟨front, before, none⟩ where
  folds := by simp [Progress.init, OrderedMap.empty]
  main := by simp [Progress.init]
  current := rfl
  fresh := by
    intro scope inner h
    cases h

theorem put_append_of_notMem {key : FoldLocation} {xs ys : List (FoldLocation × List Block)}
    (h : key ∉ xs.map Prod.fst) (value : List Block) :
    OrderedMap.put key value (xs ++ ys) = xs ++ OrderedMap.put key value ys := by
  induction xs with
  | nil => rfl
  | cons x xs ih =>
    have hx : x.1 ≠ key := fun he => h (by simp [he])
    have hxs : key ∉ xs.map Prod.fst := fun hm => h (List.mem_cons_of_mem _ hm)
    rw [List.cons_append, OrderedMap.put, if_neg hx, ih hxs, List.cons_append]

section Follow

variable {front : Folds} {before : List Block} {p q : Progress}

/-- A scope is new after the front exactly when it is new by itself, if it is none of the front. -/
theorem Follows.contains_eq (h : Follows front before p q) {scope : FoldLocation}
    (hnew : scope ∉ front.entries.map Prod.fst) : q.folds.contains scope = p.folds.contains scope := by
  apply Bool.eq_iff_iff.mpr
  rw [contains_iff, contains_iff, h.folds, List.map_append, List.mem_append]
  exact or_iff_right hnew

/-- A block that opens no scope of the front is read after it as it is read by itself. -/
theorem Follows.step (h : Follows front before p q) {block : Block}
    (hnew : ∀ key ∈ scopeKey? block, key ∉ front.entries.map Prod.fst) (i j : Nat) :
    Agree (Follows front before) (step p i block) (step q j block) := by
  obtain ⟨pfolds, pmain, pcurrent⟩ := p
  obtain ⟨qfolds, qmain, qcurrent⟩ := q
  have hcurrent : qcurrent = pcurrent := h.current
  have hfolds : qfolds.entries = front.entries ++ pfolds.entries := h.folds
  have hmain : qmain = before ++ pmain := h.main
  subst hcurrent
  cases hc : qcurrent with
  | none =>
    cases block with
    | fold scope =>
      have hscope := hnew scope rfl
      have hcontains : qfolds.contains scope = pfolds.contains scope := h.contains_eq hscope
      by_cases hold : pfolds.contains scope = true
      · simp [step, hcontains, hold, Agree]
      · simp only [step, hcontains, hold, Agree]
        refine ⟨hfolds, hmain, rfl, ?_⟩
        intro scope' inner hs
        cases hs
        exact hscope
    | unfold => trivial
    | _ => exact ⟨hfolds, by simp [hmain], rfl, by simp⟩
  | some current =>
    obtain ⟨scope, inner⟩ := current
    have hfront := h.fresh scope inner hc
    cases block with
    | fold => trivial
    | unfold =>
      have hput : OrderedMap.put scope inner (front.entries ++ pfolds.entries) = _ :=
        put_append_of_notMem hfront inner
      rw [← hfolds] at hput
      exact ⟨hput, hmain, rfl, by simp⟩
    | _ =>
      refine ⟨hfolds, hmain, rfl, ?_⟩
      intro scope' inner' hs
      cases hs
      exact hfront

theorem Follows.run (h : Follows front before p q) {blocks : List Block}
    (hnew : ∀ key ∈ scopeKeys blocks, key ∉ front.entries.map Prod.fst) (i j : Nat) :
    Agree (Follows front before) (run p i blocks) (run q j blocks) := by
  induction blocks generalizing p q i j with
  | nil => exact h
  | cons block blocks ih =>
    have hhead : ∀ key ∈ scopeKey? block, key ∉ front.entries.map Prod.fst := by
      intro key hk
      exact hnew key (List.mem_filterMap.mpr ⟨block, List.mem_cons_self, hk⟩)
    have htail : ∀ key ∈ scopeKeys blocks, key ∉ front.entries.map Prod.fst := by
      intro key hk
      apply hnew key
      rw [mem_scopeKeys] at hk ⊢
      exact List.mem_cons_of_mem block hk
    rw [run_cons, run_cons]
    exact (h.step hhead i j).bind fun p' q' h' => ih h' htail (i + 1) (j + 1)

end Follow

/-- After an accepted front, what follows is accepted exactly when it is accepted by itself and opens no
scope of the front. Its scopes come after those of the front, and so does its main stream. -/
theorem extract_append {xs ys main main' : List Block} {folds folds' : Folds}
    (hx : extract xs = .ok (folds, main)) :
    extract (xs ++ ys) = .ok (folds', main') ↔
      ∃ g n, extract ys = .ok (g, n) ∧ (∀ key ∈ scopeKeys ys, key ∉ scopeKeys xs) ∧
        folds'.entries = folds.entries ++ g.entries ∧ main' = main ++ n := by
  have hkeys := (shown_of_extract hx).1
  have hrun : Folds.run .init 0 xs = .ok ⟨folds, main, none⟩ := run_of_extract hx
  have hsplit : Folds.run .init 0 (xs ++ ys) = Folds.run ⟨folds, main, none⟩ (0 + xs.length) ys := by
    rw [run_append, hrun]
    rfl
  have hagree : (∀ key ∈ scopeKeys ys, key ∉ scopeKeys xs) → Agree (Follows folds main)
      (Folds.run .init 0 ys) (Folds.run .init 0 (xs ++ ys)) := by
    intro hnew
    rw [hsplit]
    rw [hkeys] at hnew
    exact (follows_init folds main).run hnew _ _
  constructor
  · intro h
    have hnew : ∀ key ∈ scopeKeys ys, key ∉ scopeKeys xs := by
      have hnodup := folds'.distinct
      rw [← (shown_of_extract h).1, scopeKeys_append] at hnodup
      intro key hy hx
      exact (List.nodup_append.mp hnodup).2.2 key hx key hy rfl
    have ha := hagree hnew
    rw [run_of_extract h] at ha
    obtain ⟨⟨g, n, current⟩, hg, hf⟩ := ha.of_ok_right
    have hc : none = current := hf.current
    subst hc
    exact ⟨g, n, extract_of_run hg, hnew, hf.folds, hf.main⟩
  · intro ⟨g, n, hy, hnew, hfolds, hmain⟩
    have ha := hagree hnew
    rw [run_of_extract hy] at ha
    obtain ⟨⟨f, m, current⟩, hq, hf⟩ := ha.of_ok_left
    have hc : current = none := hf.current
    have he : f = folds' := OrderedMap.ext (hf.folds.trans hfolds.symm)
    have hm : m = main' := hf.main.trans hmain.symm
    subst hc he hm
    exact extract_of_run hq

/-- A scope with nothing before it. -/
def enclosed (key : FoldLocation) (inner : List Block) : List Block :=
  .fold key :: (inner ++ [.unfold])

theorem extract_plain {blocks : List Block} (h : Plain blocks) :
    extract blocks = .ok (.empty, blocks) := by
  have hd : Division.Valid ⟨[], blocks⟩ := ⟨by simp, by simp, h, List.nodup_nil⟩
  exact Division.extract_eq hd rfl

theorem extract_enclosed {key : FoldLocation} {inner : List Block} (h : Plain inner) :
    extract (enclosed key inner) = .ok (OrderedMap.empty.insert key inner, []) := by
  have hd : Division.Valid ⟨[⟨[], key, inner⟩], []⟩ :=
    ⟨by simpa using plain_nil, by simpa using h, plain_nil, by simp [Division.keys]⟩
  have hentries : (OrderedMap.empty.insert key inner).entries = [(key, inner)] := rfl
  have hx := Division.extract_eq hd hentries
  simpa [Division.blocks, Scope.blocks, Division.main, enclosed] using hx

section Insertion

variable {xs ys main main' : List Block} {folds folds' : Folds}

/-- A new scope adds its entry, and nothing to the main stream. -/
theorem extract_insert_enclosed (hx : extract xs = .ok (folds, main)) {key : FoldLocation}
    {inner : List Block} (hi : Plain inner) (hkey : key ∉ scopeKeys (xs ++ ys)) :
    extract (xs ++ (enclosed key inner ++ ys)) = .ok (folds', main') ↔
      ∃ g n, extract ys = .ok (g, n) ∧ (∀ key ∈ scopeKeys ys, key ∉ scopeKeys xs) ∧
        folds'.entries = folds.entries ++ (key, inner) :: g.entries ∧ main' = main ++ n := by
  have hs : extract (enclosed key inner) = _ := extract_enclosed hi
  have hscope : scopeKeys (enclosed key inner) = [key] := (shown_of_extract hs).1
  rw [scopeKeys_append, List.mem_append, not_or] at hkey
  rw [extract_append hx, scopeKeys_append, hscope]
  constructor
  · intro ⟨g, n, hg, hnew, hfolds, hmain⟩
    obtain ⟨g', n', hy, -, hg', hn⟩ := (extract_append hs).mp hg
    rw [List.nil_append] at hn
    subst hn
    refine ⟨g', n, hy, ?_, ?_, hmain⟩
    · intro k hk
      exact hnew k (List.mem_append_right _ hk)
    · rw [hfolds, hg']
      rfl
  · intro ⟨g', n', hy, hnew, hfolds, hmain⟩
    have hdistinct : (((key, inner) :: g'.entries).map Prod.fst).Nodup := by
      rw [List.map_cons, ← (shown_of_extract hy).1]
      refine List.nodup_cons.mpr ⟨hkey.2, ?_⟩
      rw [(shown_of_extract hy).1]
      exact g'.distinct
    refine ⟨⟨(key, inner) :: g'.entries, hdistinct⟩, n', ?_, ?_, hfolds, hmain⟩
    · refine (extract_append hs).mpr ⟨g', n', hy, ?_, rfl, rfl⟩
      intro k hk hm
      rw [hscope, List.mem_singleton] at hm
      subst hm
      exact hkey.2 hk
    · intro k hk
      rcases List.mem_append.mp hk with hk | hk
      · rw [List.mem_singleton.mp hk]
        exact hkey.1
      · exact hnew k hk

/-- Blocks that neither open nor close a scope go to the main stream. -/
theorem extract_insert_plain (hx : extract xs = .ok (folds, main)) {blocks : List Block}
    (hb : Plain blocks) :
    extract (xs ++ (blocks ++ ys)) = .ok (folds', main') ↔
      ∃ n, extract (xs ++ ys) = .ok (folds', main ++ n) ∧ main' = main ++ (blocks ++ n) := by
  have hkeys : scopeKeys (blocks ++ ys) = scopeKeys ys := by
    rw [scopeKeys_append, hb.scopeKeys, List.nil_append]
  rw [extract_append hx, hkeys]
  constructor
  · intro ⟨g, n, hg, hnew, hfolds, hmain⟩
    obtain ⟨g', n', hy, -, hg', rfl⟩ := (extract_append (extract_plain hb)).mp hg
    refine ⟨n', (extract_append hx).mpr ⟨g', n', hy, hnew, ?_, rfl⟩, hmain⟩
    rw [hfolds, hg']
    rfl
  · intro ⟨n, h, hmain⟩
    obtain ⟨g, n', hy, hnew, hfolds, hn⟩ := (extract_append hx).mp h
    obtain rfl := List.append_cancel_left hn
    refine ⟨g, blocks ++ n, ?_, hnew, hfolds, hmain⟩
    apply (extract_append (extract_plain hb)).mpr
    exact ⟨g, n, hy, by simp [hb.scopeKeys], rfl, rfl⟩

end Insertion

end GraphPlan.Folds
