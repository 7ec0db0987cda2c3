import GraphPlan.Fold
import GraphPlan.Proofs.Except

/-!
How a stream divides into its fold scopes and the main stream around them.

A `Division` lays a stream out. Extraction reads a stream block by block, and what it has read so far is a
division and perhaps an open scope (`DividedSoFar`). So it accepts the streams that have a division, gives the
parts of that division back, and stops at the first block after which no division can be completed.
-/

namespace GraphPlan.Folds

/-- Blocks that neither open a scope nor close one. -/
def plain : Block → Bool
  | .fold _ => false
  | .unfold => false
  | _ => true

def Plain (blocks : List Block) : Prop := ∀ block ∈ blocks, plain block = true

/-- A scope, and the blocks of the main stream between it and the scope before it. -/
structure Scope where
  before : List Block
  key : FoldLocation
  inner : List Block

def Scope.blocks (s : Scope) : List Block := s.before ++ .fold s.key :: (s.inner ++ [.unfold])

structure Division where
  scopes : List Scope
  /-- The blocks of the main stream after the last scope. -/
  rest : List Block

namespace Division

def blocks (d : Division) : List Block := d.scopes.flatMap Scope.blocks ++ d.rest

/-- What is left of the stream without its scopes. -/
def main (d : Division) : List Block := d.scopes.flatMap Scope.before ++ d.rest

def keys (d : Division) : List FoldLocation := d.scopes.map Scope.key

/-- The blocks of each scope, under its key. -/
def entries (d : Division) : List (FoldLocation × List Block) := d.scopes.map fun s => (s.key, s.inner)

/-- Scopes do not nest, and no two have one key. -/
structure Valid (d : Division) : Prop where
  before : ∀ s ∈ d.scopes, Plain s.before
  inner : ∀ s ∈ d.scopes, Plain s.inner
  rest : Plain d.rest
  distinct : d.keys.Nodup

theorem map_fst_entries (d : Division) : d.entries.map Prod.fst = d.keys := by
  simp [entries, keys]

end Division

theorem Plain.append {xs ys : List Block} (hx : Plain xs) (hy : Plain ys) : Plain (xs ++ ys) := by
  intro block hm
  rcases List.mem_append.mp hm with hm | hm
  · exact hx block hm
  · exact hy block hm

theorem plain_nil : Plain [] := by
  intro block hm
  cases hm

theorem plain_singleton {block : Block} (h : plain block = true) : Plain [block] := by
  intro b hm
  cases List.mem_singleton.mp hm
  exact h

/-- The first block that is not plain shows where a plain front ends. -/
theorem plain_append_inj {xs ys us vs : List Block} {x y : Block} (hxs : Plain xs) (hys : Plain ys)
    (hx : plain x = false) (hy : plain y = false) (h : xs ++ x :: us = ys ++ y :: vs) :
    xs = ys ∧ x = y ∧ us = vs := by
  induction xs generalizing ys with
  | nil =>
    cases ys with
    | nil => simpa using h
    | cons b ys =>
      have hb : x = b := (List.cons.inj h).1
      have ht := hys b List.mem_cons_self
      rw [← hb, hx] at ht
      cases ht
  | cons a xs ih =>
    have ha := hxs a List.mem_cons_self
    cases ys with
    | nil =>
      have hb : a = y := (List.cons.inj h).1
      rw [hb, hy] at ha
      cases ha
    | cons b ys =>
      obtain ⟨rfl, ht⟩ := List.cons.inj h
      have hxs' : Plain xs := fun c hc => hxs c (List.mem_cons_of_mem a hc)
      have hys' : Plain ys := fun c hc => hys c (List.mem_cons_of_mem a hc)
      obtain ⟨hl, hr⟩ := ih hxs' hys' ht
      exact ⟨by rw [hl], hr⟩

/-- A stream whose first scope lies before some other blocks has a block that is not plain. -/
theorem not_plain_scope (s : Scope) (more : List Block) : ¬ Plain (s.blocks ++ more) := by
  intro h
  have hf := h (.fold s.key) (by simp [Scope.blocks])
  cases hf

/-- Scopes can be told from the blocks that they are laid out in. -/
theorem scopes_inj {scopes scopes' : List Scope} {rest rest' : List Block}
    (hs : ∀ s ∈ scopes, Plain s.before ∧ Plain s.inner) (hr : Plain rest)
    (hs' : ∀ s ∈ scopes', Plain s.before ∧ Plain s.inner) (hr' : Plain rest')
    (h : scopes.flatMap Scope.blocks ++ rest = scopes'.flatMap Scope.blocks ++ rest') :
    scopes = scopes' ∧ rest = rest' := by
  induction scopes generalizing scopes' with
  | nil =>
    cases scopes' with
    | nil => exact ⟨rfl, h⟩
    | cons s' scopes' =>
      have hrest : rest = s'.blocks ++ (scopes'.flatMap Scope.blocks ++ rest') := by simpa using h
      exact absurd (hrest ▸ hr) (not_plain_scope s' _)
  | cons s scopes ih =>
    cases scopes' with
    | nil =>
      have hrest : rest' = s.blocks ++ (scopes.flatMap Scope.blocks ++ rest) := by simpa using h.symm
      exact absurd (hrest ▸ hr') (not_plain_scope s _)
    | cons s' scopes' =>
      obtain ⟨before, key, inner⟩ := s
      obtain ⟨before', key', inner'⟩ := s'
      obtain ⟨hb, hi⟩ := hs _ List.mem_cons_self
      obtain ⟨hb', hi'⟩ := hs' _ List.mem_cons_self
      simp only [List.flatMap_cons, Scope.blocks, List.append_assoc, List.cons_append,
        List.nil_append] at h
      -- up to the fold, from there to the unfold, and on with the other scopes
      obtain ⟨hbefore, hfold, hafter⟩ := plain_append_inj hb hb' rfl rfl h
      obtain ⟨hinner, -, hmore⟩ := plain_append_inj hi hi' rfl rfl hafter
      obtain ⟨hscopes, hrest⟩ := ih (fun s hm => hs s (List.mem_cons_of_mem _ hm))
        (fun s hm => hs' s (List.mem_cons_of_mem _ hm)) hmore
      have hkey : key = key' := Block.fold.inj hfold
      exact ⟨by rw [hkey, show before = before' from hbefore, show inner = inner' from hinner,
        hscopes], hrest⟩

/-- A stream has at most one division. -/
theorem Division.eq_of_blocks_eq {d d' : Division} (hd : d.Valid) (hd' : d'.Valid)
    (h : d.blocks = d'.blocks) : d = d' := by
  obtain ⟨scopes, rest⟩ := d
  obtain ⟨scopes', rest'⟩ := d'
  obtain ⟨hscopes, hrest⟩ := scopes_inj (fun s hm => ⟨hd.before s hm, hd.inner s hm⟩) hd.rest
    (fun s hm => ⟨hd'.before s hm, hd'.inner s hm⟩) hd'.rest h
  cases hscopes
  cases hrest
  rfl

/-- What reading a block can do. -/
inductive Takes : Progress → Block → Progress → Prop where
  | fold {folds : Folds} {main : List Block} {scope : FoldLocation}
      (fresh : scope ∉ folds.entries.map Prod.fst) :
      Takes ⟨folds, main, none⟩ (.fold scope) ⟨folds, main, some (scope, [])⟩
  | unfold {folds : Folds} {main : List Block} {scope : FoldLocation} {inner : List Block} :
      Takes ⟨folds, main, some (scope, inner)⟩ .unfold ⟨folds.insert scope inner, main, none⟩
  | inner {folds : Folds} {main : List Block} {scope : FoldLocation} {inner : List Block}
      {block : Block} (hb : plain block = true) :
      Takes ⟨folds, main, some (scope, inner)⟩ block ⟨folds, main, some (scope, inner ++ [block])⟩
  | main {folds : Folds} {main : List Block} {block : Block} (hb : plain block = true) :
      Takes ⟨folds, main, none⟩ block ⟨folds, main ++ [block], none⟩

theorem contains_iff (folds : Folds) (scope : FoldLocation) :
    folds.contains scope = true ↔ scope ∈ folds.entries.map Prod.fst := by
  simp [OrderedMap.contains]

theorem takes_of_step {p q : Progress} {position : Nat} {block : Block}
    (h : step p position block = .ok q) : Takes p block q := by
  obtain ⟨folds, main, current⟩ := p
  cases current with
  | none =>
    cases block with
    | fold scope =>
      by_cases hc : folds.contains scope = true
      · simp [step, hc] at h
      · simp only [step, hc] at h
        cases h
        exact .fold (by rwa [← contains_iff])
    | unfold => cases h
    | _ =>
      cases h
      exact .main rfl
  | some current =>
    obtain ⟨scope, inner⟩ := current
    cases block with
    | fold scope => cases h
    | unfold =>
      cases h
      exact .unfold
    | _ =>
      cases h
      exact .inner rfl

theorem Takes.step_eq {p q : Progress} {block : Block} (h : Takes p block q) (position : Nat) :
    step p position block = .ok q := by
  cases h with
  | @fold folds main scope fresh =>
    have hc : folds.contains scope = false := by
      rw [Bool.eq_false_iff]
      exact fun hc => fresh ((contains_iff folds scope).mp hc)
    simp [step, hc]
  | unfold => rfl
  | @inner folds main scope inner block hb => cases block <;> first | rfl | cases hb
  | @main folds main block hb => cases block <;> first | rfl | cases hb

theorem step_error {p : Progress} {position : Nat} {block : Block} {e : Error}
    (h : step p position block = .error e) : ∃ fault : Fault, e = fault.atBlock position block := by
  unfold step at h
  split at h
  · exact ⟨_, (Except.error.inj h).symm⟩
  · split at h
    · exact ⟨_, (Except.error.inj h).symm⟩
    · cases h
  · cases h
  · exact ⟨_, (Except.error.inj h).symm⟩
  · cases h
  · cases h

theorem run_of_takes {p q : Progress} {block : Block} (h : Takes p block q) (position : Nat)
    (blocks : List Block) : run p position (block :: blocks) = run q (position + 1) blocks := by
  rw [run, h.step_eq position]

theorem run_append (p : Progress) (position : Nat) (xs ys : List Block) :
    run p position (xs ++ ys) =
      (run p position xs).bind fun q => run q (position + xs.length) ys := by
  induction xs generalizing p position with
  | nil => rfl
  | cons x xs ih =>
    simp only [List.cons_append, run, List.length_cons]
    cases step p position x with
    | error e => rfl
    | ok next =>
      have hn : position + (xs.length + 1) = position + 1 + xs.length := by omega
      rw [hn]
      exact ih next (position + 1)

/-- Reading stops at the first block that is refused. -/
theorem run_error {p : Progress} {position : Nat} {blocks : List Block} {e : Error}
    (h : run p position blocks = .error e) :
    ∃ i block q, blocks[i]? = some block ∧ run p position (blocks.take i) = .ok q ∧
      step q (position + i) block = .error e := by
  induction blocks generalizing p position with
  | nil => cases h
  | cons block blocks ih =>
    rw [run] at h
    cases hs : step p position block with
    | error e' =>
      rw [hs] at h
      cases h
      exact ⟨0, block, p, rfl, rfl, hs⟩
    | ok next =>
      rw [hs] at h
      obtain ⟨i, b, q, hb, hr, he⟩ := ih h
      refine ⟨i + 1, b, q, hb, ?_, ?_⟩
      · rw [List.take_succ_cons, run, hs]
        exact hr
      · have hn : position + (i + 1) = position + 1 + i := by omega
        rw [hn]
        exact he

/-- The blocks of the scope that is open. -/
def opened : Option (FoldLocation × List Block) → List Block
  | none => []
  | some (scope, inner) => .fold scope :: inner

/-- What has been read is a division and the scope that is open. -/
structure DividedSoFar (read : List Block) (p : Progress) (d : Division) : Prop where
  valid : d.Valid
  blocks : read = d.blocks ++ opened p.current
  entries : p.folds.entries = d.entries
  main : p.main = d.main
  current : ∀ scope inner, p.current = some (scope, inner) → scope ∉ d.keys ∧ Plain inner

theorem dividedSoFar_init : DividedSoFar [] .init ⟨[], []⟩ where
  valid := ⟨by simp, by simp, plain_nil, List.nodup_nil⟩
  blocks := rfl
  entries := rfl
  main := rfl
  current := by simp [Progress.init]

/-- A block of the main stream. -/
theorem DividedSoFar.main_block {read : List Block} {folds : Folds} {main : List Block} {d : Division}
    {block : Block} (h : DividedSoFar read ⟨folds, main, none⟩ d) (hb : plain block = true) :
    DividedSoFar (read ++ [block]) ⟨folds, main ++ [block], none⟩ ⟨d.scopes, d.rest ++ [block]⟩ where
  valid := ⟨h.valid.before, h.valid.inner, h.valid.rest.append (plain_singleton hb), h.valid.distinct⟩
  blocks := by
    rw [h.blocks]
    simp [Division.blocks, opened]
  entries := h.entries
  main := by
    rw [show main = d.main from h.main]
    simp [Division.main]
  current := by simp

/-- The end of the open scope. -/
theorem DividedSoFar.close {read : List Block} {folds : Folds} {main : List Block} {d : Division}
    {scope : FoldLocation} {inner : List Block} (h : DividedSoFar read ⟨folds, main, some (scope, inner)⟩ d) :
    DividedSoFar (read ++ [.unfold]) ⟨folds.insert scope inner, main, none⟩
      ⟨d.scopes ++ [⟨d.rest, scope, inner⟩], []⟩ := by
  obtain ⟨hfresh, hinner⟩ := h.current scope inner rfl
  have hentries : folds.entries = d.entries := h.entries
  have hmain : main = d.main := h.main
  constructor
  · constructor
    · intro s hm
      rcases List.mem_append.mp hm with hm | hm
      · exact h.valid.before s hm
      · cases List.mem_singleton.mp hm
        exact h.valid.rest
    · intro s hm
      rcases List.mem_append.mp hm with hm | hm
      · exact h.valid.inner s hm
      · cases List.mem_singleton.mp hm
        exact hinner
    · exact plain_nil
    · have hkeys : d.keys.Nodup := h.valid.distinct
      simp only [Division.keys, List.map_append, List.map_cons, List.map_nil] at hfresh hkeys ⊢
      refine List.nodup_append.mpr ⟨hkeys, by simp, ?_⟩
      intro key hm key' hm' heq
      cases List.mem_singleton.mp hm'
      exact hfresh (heq ▸ hm)
  · rw [h.blocks]
    simp [Division.blocks, Scope.blocks, opened]
  · have hkey : scope ∉ folds.entries.map Prod.fst := by
      rw [hentries, d.map_fst_entries]
      exact hfresh
    rw [OrderedMap.entries_insert_of_notMem hkey inner, hentries]
    simp [Division.entries]
  · rw [hmain]
    simp [Division.main]
  · simp

theorem DividedSoFar.takes {read : List Block} {p q : Progress} {d : Division} {block : Block}
    (h : DividedSoFar read p d) (ht : Takes p block q) : ∃ d', DividedSoFar (read ++ [block]) q d' := by
  cases ht with
  | fold fresh =>
    refine ⟨d, h.valid, ?_, h.entries, h.main, ?_⟩
    · rw [h.blocks]
      simp [opened]
    · intro scope inner hc
      cases hc
      have hentries : _ = d.entries := h.entries
      rw [hentries, d.map_fst_entries] at fresh
      exact ⟨fresh, plain_nil⟩
  | unfold => exact ⟨_, h.close⟩
  | @inner folds main scope inner block hb =>
    obtain ⟨hfresh, hinner⟩ := h.current scope inner rfl
    refine ⟨d, h.valid, ?_, h.entries, h.main, ?_⟩
    · rw [h.blocks]
      simp [opened]
    · intro scope' inner' hc
      cases hc
      exact ⟨hfresh, hinner.append (plain_singleton hb)⟩
  | main hb => exact ⟨_, h.main_block hb⟩

theorem DividedSoFar.run {read : List Block} {p q : Progress} {d : Division} {position : Nat}
    {blocks : List Block} (h : DividedSoFar read p d) (hr : Folds.run p position blocks = .ok q) :
    ∃ d', DividedSoFar (read ++ blocks) q d' := by
  induction blocks generalizing read p d position with
  | nil =>
    cases hr
    exact ⟨d, by rwa [List.append_nil]⟩
  | cons block blocks ih =>
    rw [Folds.run] at hr
    cases hs : step p position block with
    | error e =>
      rw [hs] at hr
      cases hr
    | ok next =>
      rw [hs] at hr
      obtain ⟨d₁, h₁⟩ := h.takes (takes_of_step hs)
      obtain ⟨d₂, h₂⟩ := ih h₁ hr
      exact ⟨d₂, by simpa using h₂⟩

/-- An accepted stream has a division, whose parts come back. -/
theorem exists_division {blocks main : List Block} {folds : Folds}
    (h : extract blocks = .ok (folds, main)) :
    ∃ d : Division, d.Valid ∧ d.blocks = blocks ∧ folds.entries = d.entries ∧ main = d.main := by
  unfold extract at h
  split at h
  · cases h
  · rename_i hr
    cases h
    obtain ⟨d, hd⟩ := dividedSoFar_init.run hr
    have hblocks : blocks = d.blocks ++ [] := hd.blocks
    exact ⟨d, hd.valid, by rw [hblocks, List.append_nil], hd.entries, hd.main⟩
  · cases h

theorem run_main {xs : List Block} (hx : Plain xs) (folds : Folds) (main : List Block)
    (position : Nat) :
    run ⟨folds, main, none⟩ position xs = .ok ⟨folds, main ++ xs, none⟩ := by
  induction xs generalizing main position with
  | nil => simp [run]
  | cons x xs ih =>
    rw [run_of_takes (.main (hx x List.mem_cons_self)),
      ih (fun b hb => hx b (List.mem_cons_of_mem x hb))]
    simp

theorem run_inner {xs : List Block} (hx : Plain xs) (folds : Folds) (main : List Block)
    (scope : FoldLocation) (inner : List Block) (position : Nat) :
    run ⟨folds, main, some (scope, inner)⟩ position xs =
      .ok ⟨folds, main, some (scope, inner ++ xs)⟩ := by
  induction xs generalizing inner position with
  | nil => simp [run]
  | cons x xs ih =>
    rw [run_of_takes (.inner (hx x List.mem_cons_self)),
      ih (fun b hb => hx b (List.mem_cons_of_mem x hb))]
    simp

theorem run_scope {s : Scope} (hb : Plain s.before) (hi : Plain s.inner) {folds : Folds}
    (fresh : s.key ∉ folds.entries.map Prod.fst) (main : List Block) (position : Nat) :
    run ⟨folds, main, none⟩ position s.blocks =
      .ok ⟨folds.insert s.key s.inner, main ++ s.before, none⟩ := by
  rw [Scope.blocks, run_append, run_main hb]
  simp only [Except.bind]
  rw [run_of_takes (.fold fresh), run_append, run_inner hi]
  simp only [Except.bind, List.nil_append]
  rw [run_of_takes .unfold]
  rfl

theorem run_scopes {scopes : List Scope} (hs : ∀ s ∈ scopes, Plain s.before ∧ Plain s.inner)
    {folds : Folds} (hk : (folds.entries.map Prod.fst ++ scopes.map Scope.key).Nodup)
    (main : List Block) (position : Nat) :
    ∃ folds' : Folds, folds'.entries = folds.entries ++ scopes.map (fun s => (s.key, s.inner)) ∧
      run ⟨folds, main, none⟩ position (scopes.flatMap Scope.blocks) =
        .ok ⟨folds', main ++ scopes.flatMap Scope.before, none⟩ := by
  induction scopes generalizing folds main position with
  | nil => exact ⟨folds, by simp, by simp [run]⟩
  | cons s scopes ih =>
    have hfresh : s.key ∉ folds.entries.map Prod.fst := by
      intro hm
      exact (List.nodup_append.mp hk).2.2 s.key hm s.key (by simp) rfl
    have hentries := OrderedMap.entries_insert_of_notMem hfresh s.inner
    have hk' : ((folds.insert s.key s.inner).entries.map Prod.fst ++ scopes.map Scope.key).Nodup := by
      rw [hentries]
      simpa using hk
    obtain ⟨folds', he, hr⟩ := ih (fun t hm => hs t (List.mem_cons_of_mem s hm)) hk'
      (main ++ s.before) (position + s.blocks.length)
    obtain ⟨hb, hi⟩ := hs s List.mem_cons_self
    refine ⟨folds', by rw [he, hentries]; simp, ?_⟩
    rw [List.flatMap_cons, run_append, run_scope hb hi hfresh]
    simp only [Except.bind, hr, List.flatMap_cons, List.append_assoc]

theorem Division.extract_eq {d : Division} (hd : d.Valid) {folds : Folds}
    (hf : folds.entries = d.entries) : extract d.blocks = .ok (folds, d.main) := by
  have hscopes : ∀ s ∈ d.scopes, Plain s.before ∧ Plain s.inner := fun s hm =>
    ⟨hd.before s hm, hd.inner s hm⟩
  have hkeys : ((OrderedMap.empty : Folds).entries.map Prod.fst ++ d.scopes.map Scope.key).Nodup :=
    hd.distinct
  obtain ⟨folds', he, hr⟩ := run_scopes hscopes hkeys [] 0
  have hrun : run .init 0 d.blocks = .ok ⟨folds', d.main, none⟩ := by
    rw [Division.blocks, run_append, Progress.init, hr]
    simp only [Except.bind, List.nil_append]
    rw [run_main hd.rest]
    rfl
  have hfolds : folds' = folds := by
    apply OrderedMap.ext
    rw [he, hf]
    simp [OrderedMap.empty, Division.entries]
  rw [extract, hrun, hfolds]

/-- Some continuation of the blocks is accepted. -/
def Viable (blocks : List Block) : Prop := ∃ more accepted, extract (blocks ++ more) = .ok accepted

theorem extract_of_run {blocks main : List Block} {folds : Folds}
    (h : run .init 0 blocks = .ok ⟨folds, main, none⟩) : extract blocks = .ok (folds, main) := by
  rw [extract, h]

/-- Blocks can be carried on to an accepted stream exactly when they can be read. -/
theorem viable_iff (blocks : List Block) : Viable blocks ↔ ∃ p, run .init 0 blocks = .ok p := by
  constructor
  · rintro ⟨more, ⟨folds, main⟩, h⟩
    unfold extract at h
    split at h
    · cases h
    · rename_i hr
      rw [run_append] at hr
      obtain ⟨p, hp, -⟩ := bind_ok hr
      exact ⟨p, hp⟩
    · cases h
  · rintro ⟨⟨folds, main, current⟩, hr⟩
    cases current with
    | none => exact ⟨[], (folds, main), by rw [List.append_nil]; exact extract_of_run hr⟩
    | some open_ =>
      obtain ⟨scope, inner⟩ := open_
      refine ⟨[.unfold], (folds.insert scope inner, main), extract_of_run ?_⟩
      rw [run_append, hr]
      exact run_of_takes .unfold (0 + blocks.length) []

theorem viable_take {blocks : List Block} {i j : Nat} (hij : j ≤ i) (h : Viable (blocks.take i)) :
    Viable (blocks.take j) := by
  obtain ⟨more, accepted, he⟩ := h
  refine ⟨(blocks.take i).drop j ++ more, accepted, ?_⟩
  have hsplit : blocks.take j ++ (blocks.take i).drop j = blocks.take i := by
    have htake : blocks.take j = (blocks.take i).take j := by
      rw [List.take_take, Nat.min_eq_left hij]
    rw [htake, List.take_append_drop]
  rw [← List.append_assoc, hsplit]
  exact he

/-- A stream is accepted exactly when it has a division into scopes of distinct keys and a main stream
around them; it has no other division, and the parts of this one come back. A stream that is refused is
either refused at the first block after which no continuation is accepted, or for its end, and then some
continuation is accepted. -/
theorem extract_iff_division (blocks : List Block) :
    (∀ folds main, extract blocks = .ok (folds, main) ↔
      ∃ d : Division, d.Valid ∧ d.blocks = blocks ∧ folds.entries = d.entries ∧ main = d.main) ∧
    (∀ d d' : Division, d.Valid → d'.Valid → d.blocks = blocks → d'.blocks = blocks → d = d') ∧
    ∀ e, extract blocks = .error e →
      (∃ i block reason, e = .malformed (some i) block.render reason ∧ blocks[i]? = some block ∧
        ¬ Viable (blocks.take (i + 1)) ∧ ∀ j < i, Viable (blocks.take (j + 1))) ∨
      ∃ scope reason, e = .malformed none scope reason ∧ Viable blocks := by
  refine ⟨fun folds main => ⟨exists_division, ?_⟩, ?_, ?_⟩
  · rintro ⟨d, hd, rfl, hf, rfl⟩
    exact d.extract_eq hd hf
  · intro d d' hd hd' h h'
    exact Division.eq_of_blocks_eq hd hd' (h.trans h'.symm)
  · intro e h
    unfold extract at h
    split at h
    · rename_i e' hr
      cases h
      obtain ⟨i, block, q, hb, hq, he⟩ := run_error hr
      obtain ⟨fault, rfl⟩ := step_error he
      rw [Nat.zero_add] at he
      refine .inl ⟨i, block, fault.reason, by rw [Fault.atBlock, Nat.zero_add], hb, ?_, ?_⟩
      · rw [viable_iff]
        rintro ⟨p, hp⟩
        have hi : i < blocks.length := (List.getElem?_eq_some_iff.mp hb).1
        have hlen : (blocks.take i).length = i := List.length_take_of_le (Nat.le_of_lt hi)
        rw [List.take_add_one, hb, run_append, hq, hlen] at hp
        simp [Except.bind, run, he] at hp
      · intro j hj
        exact viable_take (show j + 1 ≤ i by omega) ((viable_iff _).mpr ⟨q, hq⟩)
    · cases h
    · rename_i folds main scope inner hr
      cases h
      exact .inr ⟨_, _, rfl, (viable_iff _).mpr ⟨_, hr⟩⟩

def pens : FoldLocation := .behind (.root "Zoo") .outward "Pen"

def keepers : FoldLocation := .behind (.root "Zoo") .outward "Keeper"

/-- The pens of a zoo and its keepers, with a block between the two scopes. -/
def zooStream : List Block :=
  [.outputSource, .fold pens, .endOptional, .unfold, .endOptional, .fold keepers, .unfold]

/-- The sample divides; no stream goes on from it by opening its first scope again; and while its second
scope is open it can still be carried on. -/
theorem extract_iff_division_zoo :
    (∃ d : Division, d.Valid ∧ d.blocks = zooStream ∧
      d.entries = [(pens, [.endOptional]), (keepers, [])] ∧ d.main = [.outputSource, .endOptional]) ∧
    ¬ Viable (zooStream ++ [.fold pens]) ∧ Viable (zooStream.take 6) := by
  refine ⟨?_, ?_, ?_⟩
  · obtain ⟨d, hd, hb, he, hm⟩ := ((extract_iff_division zooStream).1
      ⟨[(pens, [.endOptional]), (keepers, [])], by decide⟩ [.outputSource, .endOptional]).mp rfl
    exact ⟨d, hd, hb, he.symm, hm.symm⟩
  · have hrefused : extract (zooStream ++ [.fold pens]) =
        .error (Fault.reopened.atBlock 7 (.fold pens)) := rfl
    rcases (extract_iff_division (zooStream ++ [.fold pens])).2.2 _ hrefused with
      ⟨i, block, reason, he, hb, hn, hv⟩ | ⟨scope, reason, he, hv⟩
    · simp only [Fault.atBlock, Error.malformed.injEq, Option.some.injEq] at he
      obtain ⟨rfl, -⟩ := he
      exact hn
    · cases he
  · have hrefused : extract (zooStream.take 6) =
        .error (.malformed none keepers.name Fault.unclosed.reason) := rfl
    rcases (extract_iff_division (zooStream.take 6)).2.2 _ hrefused with
      ⟨i, block, reason, he, hb, hn, hv⟩ | ⟨scope, reason, he, hv⟩
    · cases he
    · exact hv

end GraphPlan.Folds
