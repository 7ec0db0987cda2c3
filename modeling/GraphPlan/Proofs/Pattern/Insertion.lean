import GraphPlan.Proofs.Fold.Concatenation
import GraphPlan.Proofs.Pattern.Acceptance

namespace GraphPlan.Pattern

open Grammar

/-- A phase without the position of the segment at hand. -/
def Phase.unplaced : Phase → Phase
  | .building segment => .building ⟨0, segment.blocks⟩
  | phase => phase

/-- The states are the same but for the position of the segment at hand. -/
structure Displaced (p q : Progress) : Prop where
  phase : p.phase.unplaced = q.phase.unplaced
  linked : p.linked = q.linked
  latest : p.latest = q.latest
  steps : p.steps = q.steps

theorem displaced_refl (p : Progress) : Displaced p p := ⟨rfl, rfl, rfl, rfl⟩

theorem Phase.unplaced_eq_done {phase : Phase} {condition : Option Expr}
    {outputs : OrderedMap String Expr} :
    phase.unplaced = .done condition outputs ↔ phase = .done condition outputs := by
  cases phase <;> simp [Phase.unplaced]

theorem Displaced.done_iff {p q : Progress} (h : Displaced p q) {condition : Option Expr}
    {outputs : OrderedMap String Expr} :
    p.phase = .done condition outputs ↔ q.phase = .done condition outputs := by
  rw [← Phase.unplaced_eq_done, h.phase, Phase.unplaced_eq_done]

theorem Segment.shape_agree (i j : Nat) (blocks : List Block) :
    Agree (· = ·) (Segment.shape ⟨i, blocks⟩) (Segment.shape ⟨j, blocks⟩) := by
  unfold Segment.shape
  dsimp only
  split
  · rfl
  · rfl
  · split
    · rfl
    · trivial
  · split
    · rfl
    · trivial
  · trivial

theorem Segment.step_agree (i j : Nat) (blocks : List Block) (hierarchy : Hierarchy)
    (linked : Option Location) :
    Agree (· = ·) (Segment.step ⟨i, blocks⟩ hierarchy linked)
      (Segment.step ⟨j, blocks⟩ hierarchy linked) := by
  apply (Segment.shape_agree i j blocks).bind
  intro shape shape' hs
  subst hs
  split
  · rfl
  · trivial

/-- Closing a segment looks at the link and at the steps before it. -/
theorem Progress.close_congr {p q : Progress} (hl : p.linked = q.linked) (hs : p.steps = q.steps)
    (hierarchy : Hierarchy) (segment : Segment) :
    p.close hierarchy segment = q.close hierarchy segment := by
  obtain ⟨phase, linked, latest, steps⟩ := p
  obtain ⟨phase', linked', latest', steps'⟩ := q
  subst hl hs
  rfl

section Displaced

variable {p q : Progress} (hierarchy : Hierarchy)

theorem Displaced.close (h : Displaced p q) (i j : Nat) (blocks : List Block) :
    Agree (· = ·) (p.close hierarchy ⟨i, blocks⟩) (q.close hierarchy ⟨j, blocks⟩) := by
  rw [← Progress.close_congr h.linked h.steps]
  apply (Segment.step_agree i j blocks hierarchy p.linked).bind
  intro step step' hs
  subst hs
  split
  · trivial
  · rfl

/-- A block of the segment at hand. -/
theorem Displaced.extend (h : Displaced p q) {segment segment' : Segment}
    (hb : segment.blocks = segment'.blocks) (i j : Nat) (block : Block) :
    Agree Displaced (p.extend hierarchy segment i block) (q.extend hierarchy segment' j block) := by
  obtain ⟨start, blocks⟩ := segment
  obtain ⟨start', blocks'⟩ := segment'
  subst hb
  have hclose := h.close hierarchy start start' blocks
  have hhop : Agree Displaced (p.advance hierarchy ⟨start, blocks⟩ i block)
      (q.advance hierarchy ⟨start', blocks⟩ j block) :=
    hclose.bind fun _ _ hs => ⟨rfl, h.latest, rfl, hs⟩
  cases block with
  | queryRoot => trivial
  | traverse => exact hhop
  | recurse => exact hhop
  | backtrack => exact ⟨h.phase, h.linked, rfl, h.steps⟩
  | markLocation => exact ⟨rfl, h.linked, rfl, h.steps⟩
  | coerceType => exact ⟨rfl, h.linked, h.latest, h.steps⟩
  | filter => exact ⟨rfl, h.linked, h.latest, h.steps⟩
  | fold => trivial
  | unfold => exact h
  | outputSource => exact h
  | endOptional => exact h
  | globalOperationsStart => exact hclose.bind fun _ _ hs => ⟨rfl, rfl, h.latest, hs⟩
  | constructResult => trivial

theorem Displaced.step (h : Displaced p q) (i j : Nat) (block : Block) :
    Agree Displaced (p.step hierarchy i block) (q.step hierarchy j block) := by
  obtain ⟨phase, linked, latest, steps⟩ := p
  obtain ⟨phase', linked', latest', steps'⟩ := q
  have hphase : phase.unplaced = phase'.unplaced := h.phase
  have hl : linked = linked' := h.linked
  have ht : latest = latest' := h.latest
  have hs : steps = steps' := h.steps
  cases phase with
  | building segment =>
    cases phase' with
    | building segment' =>
      have hb : segment.blocks = segment'.blocks := by
        simpa [Phase.unplaced] using hphase
      exact h.extend hierarchy hb i j block
    | _ => cases hphase
  | awaitingRoot =>
    cases phase' with
    | awaitingRoot =>
      cases block with
      | queryRoot => exact ⟨rfl, hl, ht, hs⟩
      | _ => trivial
    | _ => cases hphase
  | awaitingOutputs condition =>
    cases phase' with
    | awaitingOutputs condition' =>
      cases hphase
      cases block with
      | filter =>
        cases condition with
        | none => exact ⟨rfl, hl, ht, hs⟩
        | some => trivial
      | constructResult => cases condition <;> exact ⟨rfl, hl, ht, hs⟩
      | _ => cases condition <;> trivial
    | _ => cases hphase
  | done condition outputs =>
    cases phase' with
    | done => trivial
    | _ => cases hphase

theorem Progress.run_cons (p : Progress) (position : Nat) (block : Block) (blocks : List Block) :
    Progress.run hierarchy p position (block :: blocks) =
      (p.step hierarchy position block).bind fun next =>
        Progress.run hierarchy next (position + 1) blocks := by
  rw [Progress.run]
  cases p.step hierarchy position block <;> rfl

/-- From the same state the same blocks are read at any position, to the same end. -/
theorem Displaced.run (h : Displaced p q) (i j : Nat) (blocks : List Block) :
    Agree Displaced (Progress.run hierarchy p i blocks) (Progress.run hierarchy q j blocks) := by
  induction blocks generalizing p q i j with
  | nil => exact h
  | cons block blocks ih =>
    rw [Progress.run_cons, Progress.run_cons]
    apply (h.step hierarchy i j block).bind
    intro p' q' h'
    exact ih h' (i + 1) (j + 1)

end Displaced

/-- The blocks are read as the steps, the condition and the outputs of the query. -/
def Makes (hierarchy : Hierarchy) (main : List Block) (query : Query) : Prop :=
  ∃ p, Progress.run hierarchy .init 0 main = .ok p ∧
    p.phase = .done query.condition query.outputs ∧ p.steps = query.steps

theorem assemble_ok_iff {hierarchy : Hierarchy} {folds : Folds} {main : List Block} {query : Query} :
    assemble hierarchy folds main = .ok query ↔ query.folds = folds ∧ Makes hierarchy main query := by
  constructor
  · intro h
    obtain ⟨p, hr, h⟩ := bind_ok h
    split at h
    · next hp =>
      cases h
      exact ⟨rfl, p, hr, hp, rfl⟩
    all_goals cases h
  · intro ⟨hf, p, hr, hp, hs⟩
    obtain ⟨steps, folds', condition, outputs⟩ := query
    subst hf hs
    simp [assemble, hr, hp, bind, Except.bind]

theorem ofBlocks_ok_iff {hierarchy : Hierarchy} {blocks : List Block} {query : Query} :
    ofBlocks hierarchy blocks = .ok query ↔
      ∃ main, Folds.extract blocks = .ok (query.folds, main) ∧ Makes hierarchy main query := by
  constructor
  · intro h
    obtain ⟨⟨folds, main⟩, hf, h⟩ := bind_ok h
    obtain ⟨he, hm⟩ := assemble_ok_iff.mp h
    rw [he]
    exact ⟨main, hf, hm⟩
  · intro ⟨main, hf, hm⟩
    have ha : assemble hierarchy query.folds main = .ok query := assemble_ok_iff.mpr ⟨rfl, hm⟩
    unfold ofBlocks
    rw [hf]
    exact ha

theorem Progress.run_append (hierarchy : Hierarchy) (p : Progress) (position : Nat)
    (xs ys : List Block) :
    Progress.run hierarchy p position (xs ++ ys) =
      (Progress.run hierarchy p position xs).bind fun next =>
        Progress.run hierarchy next (position + xs.length) ys := by
  induction xs generalizing p position with
  | nil => rfl
  | cons x xs ih =>
    have hlen : position + 1 + xs.length = position + (x :: xs).length := by
      simp
      omega
    rw [List.cons_append, Progress.run_cons, Progress.run_cons]
    cases p.step hierarchy position x with
    | error e => rfl
    | ok next =>
      have ht := ih next (position + 1)
      rw [hlen] at ht
      exact ht

theorem Progress.building_of_step {p next : Progress} {segment : Segment} {hierarchy : Hierarchy}
    {position : Nat} {block : Block} (hp : p.phase = .building segment)
    (hg : block ≠ .globalOperationsStart) (h : p.step hierarchy position block = .ok next) :
    ∃ segment', next.phase = .building segment' := by
  by_cases hi : inner block = true
  · rw [Progress.step_inner hp hi] at h
    cases h
    exact ⟨_, rfl⟩
  by_cases hh : isHop block = true
  · rw [Progress.step_hop hp hh] at h
    obtain ⟨steps, -, h⟩ := map_ok h
    subst h
    exact ⟨_, rfl⟩
  · obtain ⟨e, he⟩ := Progress.step_refused hp hi hh hg hierarchy position
    rw [he] at h
    cases h

/-- The steps go on until the marker. -/
theorem Progress.building_of_run {p p' : Progress} {segment : Segment} {hierarchy : Hierarchy}
    {position : Nat} {blocks : List Block} (hp : p.phase = .building segment)
    (hg : .globalOperationsStart ∉ blocks)
    (h : Progress.run hierarchy p position blocks = .ok p') :
    ∃ segment', p'.phase = .building segment' := by
  induction blocks generalizing p segment position with
  | nil =>
    cases h
    exact ⟨segment, hp⟩
  | cons block blocks ih =>
    rw [Progress.run_cons] at h
    obtain ⟨next, hs, h⟩ := bind_ok h
    have hb : block ≠ .globalOperationsStart := fun he => hg (by simp [he])
    obtain ⟨segment', hn⟩ := Progress.building_of_step hp hb hs
    exact ih hn (fun hm => hg (List.mem_cons_of_mem block hm)) h

theorem Progress.building_of_init {p : Progress} {hierarchy : Hierarchy} {blocks : List Block}
    (hne : blocks ≠ []) (hg : .globalOperationsStart ∉ blocks)
    (h : Progress.run hierarchy .init 0 blocks = .ok p) : ∃ segment, p.phase = .building segment := by
  cases blocks with
  | nil => exact absurd rfl hne
  | cons block blocks =>
    rw [Progress.run_cons] at h
    obtain ⟨next, hs, hrest⟩ := bind_ok h
    have hblocks : .globalOperationsStart ∉ blocks := fun hm => hg (List.mem_cons_of_mem block hm)
    cases block with
    | queryRoot types =>
      have hn : next.phase = .building ⟨0, [.queryRoot types]⟩ := by
        cases hs
        rfl
      exact Progress.building_of_run hn hblocks hrest
    | _ => cases hs

/-- A block that says something about the outputs or the scopes of optional parts, and nothing about the
steps. -/
def inert : Block → Bool
  | .outputSource => true
  | .endOptional => true
  | _ => false

theorem plain_of_inert {block : Block} (h : inert block = true) : Folds.plain block = true := by
  cases block <;> first | rfl | cases h

theorem Progress.run_inert {p : Progress} {segment : Segment} {noise : List Block}
    (hp : p.phase = .building segment) (hn : ∀ block ∈ noise, inert block = true)
    (hierarchy : Hierarchy) (position : Nat) :
    Progress.run hierarchy p position noise = .ok p := by
  induction noise generalizing position with
  | nil => rfl
  | cons block noise ih =>
    have hstep : p.step hierarchy position block = .ok p := by
      have hb := hn block List.mem_cons_self
      obtain ⟨phase, linked, latest, steps⟩ := p
      cases hp
      cases block <;> first | rfl | cases hb
    rw [Progress.run_cons, hstep]
    exact ih (fun b hb => hn b (List.mem_cons_of_mem block hb)) (position + 1)

/-- Inert blocks among the steps make no difference. -/
theorem makes_inert_iff {hierarchy : Hierarchy} {before noise after : List Block} {query : Query}
    (hne : before ≠ []) (hg : .globalOperationsStart ∉ before)
    (hn : ∀ block ∈ noise, inert block = true) :
    Makes hierarchy (before ++ (noise ++ after)) query ↔ Makes hierarchy (before ++ after) query := by
  unfold Makes
  rw [Progress.run_append, Progress.run_append]
  cases hr : Progress.run hierarchy .init 0 before with
  | error e => simp [Except.bind]
  | ok p =>
    obtain ⟨segment, hp⟩ := Progress.building_of_init hne hg hr
    have hnoise := Progress.run_inert hp hn hierarchy (0 + before.length)
    have hagree := (displaced_refl p).run hierarchy (0 + before.length + noise.length)
      (0 + before.length) after
    simp only [Except.bind, Progress.run_append, hnoise]
    constructor
    · intro ⟨p', hr', hdone, hsteps⟩
      rw [hr'] at hagree
      obtain ⟨q', hq', hd⟩ := hagree.of_ok_left
      exact ⟨q', hq', hd.done_iff.mp hdone, hd.steps.symm.trans hsteps⟩
    · intro ⟨q', hr', hdone, hsteps⟩
      rw [hr'] at hagree
      obtain ⟨p', hp', hd⟩ := hagree.of_ok_right
      exact ⟨p', hp', hd.done_iff.mpr hdone, hd.steps.trans hsteps⟩

/-- The second query is the first with one more fold, which comes after those of the given keys. -/
structure Query.GainsFold (keys : List FoldLocation) (key : FoldLocation) (body : List Block)
    (query query' : Query) : Prop where
  steps : query'.steps = query.steps
  condition : query'.condition = query.condition
  outputs : query'.outputs = query.outputs
  folds : ∃ before after, before.map Prod.fst = keys ∧ query.folds.entries = before ++ after ∧
    query'.folds.entries = before ++ (key, body) :: after

section Insertion

variable {hierarchy : Hierarchy} {a b : List Block}

theorem extract_of_ofBlocks (ho : Folds.endsOpen a = false) {query : Query}
    (h : ofBlocks hierarchy (a ++ b) = .ok query) :
    ∃ folds main, Folds.extract a = .ok (folds, main) := by
  obtain ⟨main, he, -⟩ := ofBlocks_ok_iff.mp h
  exact Folds.extract_front ho he

/-- A new fold scope becomes an entry of the folds. -/
theorem ofBlocks_insert_enclosed (ho : Folds.endsOpen a = false) {key : FoldLocation}
    {body : List Block} (hkey : key ∉ Folds.scopeKeys (a ++ b)) (hbody : Folds.Plain body) :
    Agree (Query.GainsFold (Folds.scopeKeys a) key body) (ofBlocks hierarchy (a ++ b))
      (ofBlocks hierarchy (a ++ (Folds.enclosed key body ++ b))) := by
  apply agree_of_ok
  · intro query h
    obtain ⟨folds, main, ha⟩ := extract_of_ofBlocks ho h
    obtain ⟨whole, he, hmakes⟩ := ofBlocks_ok_iff.mp h
    obtain ⟨g, n, hb, hnew, hfolds, hmain⟩ := (Folds.extract_append ha).mp he
    have hkeys : Folds.scopeKeys a = folds.entries.map Prod.fst := (Folds.shown_of_extract ha).1
    have hdistinct : ((folds.entries ++ (key, body) :: g.entries).map Prod.fst).Nodup := by
      have hold := query.folds.distinct
      rw [← (Folds.shown_of_extract he).1] at hold
      have hperm : ((folds.entries ++ (key, body) :: g.entries).map Prod.fst).Perm
          (key :: Folds.scopeKeys (a ++ b)) := by
        rw [Folds.scopeKeys_append, hkeys, (Folds.shown_of_extract hb).1, List.map_append,
          List.map_cons]
        exact List.perm_middle
      exact hperm.nodup_iff.mpr (List.nodup_cons.mpr ⟨hkey, hold⟩)
    refine ⟨{ query with folds := ⟨_, hdistinct⟩ }, ?_, ⟨rfl, rfl, rfl, ?_⟩⟩
    · apply ofBlocks_ok_iff.mpr
      exact ⟨whole, (Folds.extract_insert_enclosed ha hbody hkey).mpr ⟨g, n, hb, hnew, rfl, hmain⟩,
        hmakes⟩
    · exact ⟨folds.entries, g.entries, hkeys.symm, hfolds, rfl⟩
  · intro query h
    obtain ⟨folds, main, ha⟩ := extract_of_ofBlocks ho h
    obtain ⟨whole, he, hmakes⟩ := ofBlocks_ok_iff.mp h
    obtain ⟨g, n, hb, hnew, hfolds, hmain⟩ := (Folds.extract_insert_enclosed ha hbody hkey).mp he
    have hdistinct : ((folds.entries ++ g.entries).map Prod.fst).Nodup := by
      have hold := query.folds.distinct
      rw [hfolds, List.map_append] at hold
      rw [List.map_append]
      exact hold.sublist (List.Sublist.append_left (List.sublist_cons_self key _) _)
    refine ⟨{ query with folds := ⟨_, hdistinct⟩ }, ofBlocks_ok_iff.mpr ⟨whole, ?_, hmakes⟩⟩
    exact (Folds.extract_append ha).mpr ⟨g, n, hb, hnew, rfl, hmain⟩

/-- Inert blocks between the first block of the main stream and its marker make no difference. -/
theorem ofBlocks_insert_inert (ho : Folds.endsOpen a = false) {noise : List Block}
    (hn : ∀ block ∈ noise, inert block = true) (hne : Folds.mainStream a ≠ [])
    (hg : .globalOperationsStart ∉ Folds.mainStream a) :
    Agree (· = ·) (ofBlocks hierarchy (a ++ b)) (ofBlocks hierarchy (a ++ (noise ++ b))) := by
  have hplain : Folds.Plain noise := fun block hm => plain_of_inert (hn block hm)
  apply agree_of_ok
  · intro query h
    obtain ⟨folds, main, ha⟩ := extract_of_ofBlocks ho h
    obtain ⟨whole, he, hmakes⟩ := ofBlocks_ok_iff.mp h
    obtain ⟨g, n, -, -, -, rfl⟩ := (Folds.extract_append ha).mp he
    rw [(Folds.shown_of_extract ha).2.2] at hne hg
    refine ⟨query, ofBlocks_ok_iff.mpr ⟨main ++ (noise ++ n), ?_, ?_⟩, rfl⟩
    · exact (Folds.extract_insert_plain ha hplain).mpr ⟨n, he, rfl⟩
    · exact (makes_inert_iff hne hg hn).mpr hmakes
  · intro query h
    obtain ⟨folds, main, ha⟩ := extract_of_ofBlocks ho h
    obtain ⟨whole, he, hmakes⟩ := ofBlocks_ok_iff.mp h
    obtain ⟨n, hb, rfl⟩ := (Folds.extract_insert_plain ha hplain).mp he
    rw [(Folds.shown_of_extract ha).2.2] at hne hg
    have hmakes' := (makes_inert_iff hne hg hn).mp hmakes
    exact ⟨query, ofBlocks_ok_iff.mpr ⟨main ++ n, hb, hmakes'⟩⟩

end Insertion

/-- Where no scope is open, a scope of a new key can be put in, which makes one more fold, and inert blocks
can be put in among the steps, which makes no difference. -/
theorem ofBlocks_insert (hierarchy : Hierarchy) (a b : List Block)
    (ho : Folds.endsOpen a = false) :
    (∀ key body, key ∉ Folds.scopeKeys (a ++ b) → Folds.Plain body →
      Agree (Query.GainsFold (Folds.scopeKeys a) key body) (ofBlocks hierarchy (a ++ b))
        (ofBlocks hierarchy (a ++ (Folds.enclosed key body ++ b)))) ∧
    (∀ noise, (∀ block ∈ noise, inert block = true) → Folds.mainStream a ≠ [] →
      .globalOperationsStart ∉ Folds.mainStream a →
      Agree (· = ·) (ofBlocks hierarchy (a ++ b)) (ofBlocks hierarchy (a ++ (noise ++ b)))) := by
  refine ⟨?_, ?_⟩
  · intro key body hkey hbody
    exact ofBlocks_insert_enclosed ho hkey hbody
  · intro noise hn hne hg
    exact ofBlocks_insert_inert ho hn hne hg

/-- An animal, its food in a fold scope. -/
def fedAnimal : List Block :=
  [.queryRoot (.singleton "Animal"), .markLocation (.root "Animal"),
    .fold (.behind (.root "Animal") .outward "Fed"), .markLocation (.root "Fed"), .unfold]

/-- The parent of the animal before, and no outputs. -/
def andParent : List Block :=
  [.traverse ⟨.outward, "ParentOf", false, false⟩, .coerceType (.singleton "Animal"),
    .markLocation ((Location.root "Animal").descend "out_ParentOf"),
    .globalOperationsStart, .constructResult .empty]

/-- The blocks of a scope may be any that neither open nor close one, also those that end a stream. -/
theorem ofBlocks_insert_parent :
    let key := FoldLocation.behind (.root "Animal") .inward "Fed"
    let body : List Block := [.constructResult .empty, .queryRoot (.singleton "Food")]
    Folds.endsOpen fedAnimal = false ∧ key ∉ Folds.scopeKeys (fedAnimal ++ andParent) ∧
      (∃ query, ofBlocks Hierarchy.exact (fedAnimal ++ andParent) = .ok query) ∧
      Agree (Query.GainsFold (Folds.scopeKeys fedAnimal) key body)
        (ofBlocks Hierarchy.exact (fedAnimal ++ andParent))
        (ofBlocks Hierarchy.exact (fedAnimal ++ (Folds.enclosed key body ++ andParent))) ∧
      Agree (· = ·) (ofBlocks Hierarchy.exact (fedAnimal ++ andParent))
        (ofBlocks Hierarchy.exact (fedAnimal ++ ([.endOptional, .outputSource] ++ andParent))) := by
  intro key body
  have ho : Folds.endsOpen fedAnimal = false := rfl
  have hkey : key ∉ Folds.scopeKeys (fedAnimal ++ andParent) := by decide
  have hbody : Folds.Plain body := by simp [body, Folds.Plain, Folds.plain]
  obtain ⟨hscope, hinert⟩ := ofBlocks_insert Hierarchy.exact fedAnimal andParent ho
  refine ⟨ho, hkey, ⟨_, rfl⟩, hscope key body hkey hbody, hinert _ ?_ ?_ ?_⟩
  · simp [inert]
  · simp [Folds.mainStream, Folds.mainFrom, fedAnimal, Folds.plain]
  · simp [Folds.mainStream, Folds.mainFrom, fedAnimal, Folds.plain, Folds.openAfter]

end GraphPlan.Pattern
