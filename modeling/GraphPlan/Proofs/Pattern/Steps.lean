import GraphPlan.Proofs.Fold.Division
import GraphPlan.Proofs.Pattern.Acceptance
import Mathlib.Logic.Relation

namespace GraphPlan.Pattern

open Grammar

/-- Blocks that open a step. -/
def begins (block : Block) : Bool := isRoot block || isHop block

/-- Blocks at which the step before them ends. -/
def ends : Block → Bool
  | .globalOperationsStart => true
  | block => begins block

def condition? : Block → Option Expr
  | .filter condition => some condition
  | _ => none

/-- The types that a block names. -/
def named? : Block → Option NameSet
  | .queryRoot types => some types
  | .coerceType types => some types
  | _ => none

/-- The step has the filter and the mark of the blocks after its opening, and the labels of the one exact
type that they or the opening name. -/
structure Step.TakenFrom (step : Step) (hierarchy : Hierarchy) (body : List Block) : Prop where
  condition : body.filterMap condition? = step.condition.toList
  bound : marks body = [step.bound]
  exact : ∃ types name, (step.opening.block :: body).filterMap named? = [types] ∧
    types.names = [name] ∧ step.types = hierarchy name

theorem block_of_traversal? {block : Block} {opening : Opening}
    (h : traversal? block = some opening) : opening.block = block ∧ named? block = none := by
  cases block with
  | traverse t =>
    cases h
    exact ⟨rfl, rfl⟩
  | recurse r =>
    cases h
    exact ⟨rfl, rfl⟩
  | _ => cases h

/-- All that a shape holds stands in the blocks of the segment. -/
theorem Segment.shape_reads {s : Segment} {shape : Shape} (h : s.shape = .ok shape) :
    ∃ body, s.blocks = shape.opening.block :: body ∧
      body.filterMap condition? = shape.condition.toList ∧ marks body = [shape.bound] ∧
      s.blocks.filterMap named? = [shape.types] := by
  unfold Segment.shape at h
  split at h
  · rename_i hb
    cases h
    exact ⟨_, hb, rfl, rfl, by rw [hb]; rfl⟩
  · rename_i hb
    cases h
    exact ⟨_, hb, rfl, rfl, by rw [hb]; rfl⟩
  · rename_i hb
    split at h
    · rename_i ht
      cases h
      obtain ⟨ho, hn⟩ := block_of_traversal? ht
      refine ⟨_, by rw [hb, ho], rfl, rfl, ?_⟩
      rw [hb, List.filterMap_cons_none hn]
      rfl
    · cases h
  · rename_i hb
    split at h
    · rename_i ht
      cases h
      obtain ⟨ho, hn⟩ := block_of_traversal? ht
      refine ⟨_, by rw [hb, ho], rfl, rfl, ?_⟩
      rw [hb, List.filterMap_cons_none hn]
      rfl
    · cases h
  · cases h

theorem Segment.step_takenFrom {s : Segment} {hierarchy : Hierarchy} {linked : Option Location}
    {step : Step} (h : s.step hierarchy linked = .ok step) :
    ∃ body, s.blocks = step.opening.block :: body ∧ step.TakenFrom hierarchy body := by
  obtain ⟨shape, hs, h⟩ := bind_ok h
  obtain ⟨body, hb, hc, hm, hn⟩ := Segment.shape_reads hs
  split at h
  · rename_i name hname
    cases h
    exact ⟨body, hb, hc, hm, shape.types, name, by rw [← hb, hn], hname, rfl⟩
  · cases h

/-- Silent blocks do not count for what a step reads. -/
theorem filterMap_content {α : Type} {f : Block → Option α}
    (hf : ∀ block, silent block = true → f block = none) (segment : List Block) :
    (content segment).filterMap f = segment.filterMap f := by
  unfold content
  rw [List.filterMap_filter]
  congr
  funext block
  cases hs : silent block with
  | false => rfl
  | true => exact (hf block hs).symm

theorem Step.TakenFrom.of_content {step : Step} {hierarchy : Hierarchy} {body : List Block}
    (h : step.TakenFrom hierarchy (content body)) : step.TakenFrom hierarchy body := by
  have hc : (content body).filterMap condition? = body.filterMap condition? :=
    filterMap_content (by intro block hs; cases block <;> first | rfl | cases hs) body
  have hn : (content body).filterMap named? = body.filterMap named? :=
    filterMap_content (by intro block hs; cases block <;> first | rfl | cases hs) body
  obtain ⟨types, name, ht, hname, hh⟩ := h.exact
  refine ⟨by rw [← hc, h.condition], by rw [← marks_content, h.bound], types, name, ?_, hname, hh⟩
  rw [List.filterMap_cons] at ht ⊢
  rwa [hn] at ht

/-- The step that the next segment yields, in view of the segments and the steps before it. -/
structure Yields (hierarchy : Hierarchy) (closed : List (List Block)) (steps : List Step)
    (segment : List Block) (step : Step) : Prop where
  opens : opener closed step.opening.block = true
  segment : ∃ body, segment = step.opening.block :: body ∧ (∀ block ∈ body, inner block = true) ∧
    step.TakenFrom hierarchy body
  linked : step.linked = lastVisit closed.flatten
  earlier : ∀ location, step.linked = some location → location ∈ steps.map (·.bound)
  fresh : step.bound ∉ steps.map (·.bound)

inductive Yielded (hierarchy : Hierarchy) : List (List Block) → List Step → Prop
  | nil : Yielded hierarchy [] []
  | snoc {closed : List (List Block)} {steps : List Step} {segment : List Block} {step : Step}
    (before : Yielded hierarchy closed steps) (last : Yields hierarchy closed steps segment step) :
    Yielded hierarchy (closed ++ [segment]) (steps ++ [step])

theorem lastVisit_append_visited {front back : List Block} {location : Location}
    (h : lastVisit back = some location) : lastVisit (front ++ back) = some location := by
  unfold lastVisit at h ⊢
  rw [List.filterMap_append, List.getLast?_append, h]
  rfl

/-- Every closed segment visits a location, so the last one decides. -/
theorem HasRead.linked_flatten {p : Progress} {closed : List (List Block)} {current : List Block}
    {segment : Segment} (h : HasRead p closed current segment) :
    p.linked = lastVisit closed.flatten := by
  rw [h.linked]
  rcases List.eq_nil_or_concat closed with rfl | ⟨front, last, rfl⟩
  · rfl
  · obtain ⟨location, hv⟩ := h.visited last (by simp)
    simp [hv, lastVisit_append_visited hv]

theorem content_cons {block : Block} (hs : silent block = false) (body : List Block) :
    content (block :: body) = block :: content body := by
  unfold content
  rw [List.filter_cons_of_pos (by simp [hs])]

theorem HasRead.yields {p : Progress} {closed : List (List Block)} {current : List Block}
    {segment : Segment} (h : HasRead p closed current segment) {hierarchy : Hierarchy}
    {steps : List Step} (hs : p.close hierarchy segment = .ok steps) :
    ∃ step, steps = p.steps ++ [step] ∧ Yields hierarchy closed p.steps current step := by
  obtain ⟨step, hstep, hl, hb, rfl⟩ := Progress.close_ok_iff.mp hs
  have hlinked : step.linked = p.linked := (Segment.step_ok hstep).1
  obtain ⟨content', hblocks, htaken⟩ := Segment.step_takenFrom hstep
  obtain ⟨opening, body, rfl, ho, hi⟩ := h.opens
  -- The opening is not silent, so it is the first block of the segment and of its content.
  have hsilent : silent opening = false := by
    unfold opener at ho
    split at ho <;> cases opening <;> first | rfl | cases ho
  rw [h.blocks, content_cons hsilent] at hblocks
  obtain ⟨rfl, rfl⟩ := List.cons.inj hblocks
  exact ⟨step, rfl, ho, ⟨body, rfl, hi, htaken.of_content⟩, hlinked.trans h.linked_flatten,
    fun location he => hl location (hlinked ▸ he), hb⟩

/-- The segments have all been closed. -/
def Phase.global : Phase → Bool
  | .awaitingOutputs _ => true
  | .done .. => true
  | _ => false

theorem Progress.step_global {p next : Progress} {hierarchy : Hierarchy} {position : Nat}
    {block : Block} (hg : p.phase.global = true) (h : p.step hierarchy position block = .ok next) :
    next.steps = p.steps ∧ next.phase.global = true := by
  obtain ⟨phase, linked, latest, steps⟩ := p
  unfold Progress.step at h
  split at h
  case h_4 | h_5 =>
    cases h
    exact ⟨rfl, rfl⟩
  case h_1 | h_3 => simp_all [Phase.global]
  all_goals cases h

/-- The global operations make no steps. -/
theorem Progress.run_global {p p' : Progress} {hierarchy : Hierarchy} {position : Nat}
    {blocks : List Block} (hg : p.phase.global = true)
    (h : Progress.run hierarchy p position blocks = .ok p') : p'.steps = p.steps := by
  induction blocks generalizing p position with
  | nil =>
    cases h
    rfl
  | cons block blocks ih =>
    rw [Progress.run] at h
    split at h
    · rename_i next hs
      obtain ⟨hsteps, hphase⟩ := Progress.step_global hg hs
      rw [ih hphase h, hsteps]
    · cases h

/-- A run that is in the middle of a segment ends with the steps of all the segments, those that are
closed already and those that are still to come. -/
theorem HasRead.yielded {p p' : Progress} {closed : List (List Block)} {current : List Block}
    {segment : Segment} (h : HasRead p closed current segment) {hierarchy : Hierarchy}
    (hy : Yielded hierarchy closed p.steps) {position : Nat} {rest : List Block}
    (hr : Progress.run hierarchy p position rest = .ok p') {condition : Option Expr}
    {outputs : OrderedMap String Expr} (hp : p'.phase = .done condition outputs) :
    ∃ segments tail, closed.flatten ++ current ++ rest =
        segments.flatten ++ .globalOperationsStart :: tail ∧
      Tail tail ∧ Yielded hierarchy segments p'.steps ∧ segments ≠ [] := by
  induction rest generalizing p closed current segment position with
  | nil =>
    cases hr
    cases h.phase.symm.trans hp
  | cons block rest ih =>
    rw [Progress.run] at hr
    by_cases hi : inner block = true
    · rw [Progress.step_inner h.phase hi] at hr
      simpa using ih (h.extend hi) hy hr
    by_cases hh : isHop block = true
    · rw [Progress.step_hop h.phase hh] at hr
      cases hc : p.close hierarchy segment with
      | error e => simp [hc, Except.map] at hr
      | ok steps =>
        obtain ⟨step, rfl, hlast⟩ := h.yields hc
        rw [hc] at hr
        simpa using ih (h.next hc hh position) (hy.snoc hlast) hr
    by_cases hg : block = .globalOperationsStart
    · subst hg
      rw [Progress.step_marker h.phase] at hr
      cases hc : p.close hierarchy segment with
      | error e => simp [hc, Except.map] at hr
      | ok steps =>
        obtain ⟨step, rfl, hlast⟩ := h.yields hc
        rw [hc] at hr
        have htail : Tail rest := (accepts_globals rfl).mp ⟨p', condition, outputs, hr, hp⟩
        refine ⟨closed ++ [current], rest, by simp, htail, ?_, by simp⟩
        rw [Progress.run_global rfl hr]
        exact hy.snoc hlast
    · obtain ⟨e, he⟩ := Progress.step_refused h.phase hi hh hg hierarchy position
      rw [he] at hr
      cases hr

theorem assemble_yielded {hierarchy : Hierarchy} {folds : Folds} {blocks : List Block} {query : Query}
    (h : assemble hierarchy folds blocks = .ok query) :
    ∃ segments tail, blocks = segments.flatten ++ .globalOperationsStart :: tail ∧ Tail tail ∧
      Yielded hierarchy segments query.steps ∧ segments ≠ [] := by
  obtain ⟨p, hr, h⟩ := bind_ok h
  split at h
  · rename_i condition outputs hp
    cases h
    cases blocks with
    | nil =>
      cases hr
      cases hp
    | cons block rest =>
      cases block with
      | queryRoot types => simpa using (hasRead_root types 0).yielded .nil hr hp
      | _ => cases hr
  all_goals cases h

/-- The step with this index lies in the stream between the blocks before it and the block that ends it,
and it takes its link from the first and its parts from what stands between. -/
structure Step.Laid (step : Step) (hierarchy : Hierarchy) (stream : List Block) (index : Nat)
    (before body : List Block) (stop : Block) (after : List Block) : Prop where
  stream_eq : stream = before ++ step.opening.block :: (body ++ stop :: after)
  openings : before.countP begins = index
  open_within : ∀ block ∈ body, ends block = false
  ended : ends stop = true
  linked : step.linked = lastVisit before
  reads : step.TakenFrom hierarchy body

theorem ends_eq_false_of_inner {block : Block} (h : inner block = true) :
    ends block = false ∧ begins block = false := by
  cases block <;> first | exact ⟨rfl, rfl⟩ | cases h

theorem begins_of_opener {closed : List (List Block)} {block : Block}
    (h : opener closed block = true) : begins block = true ∧ ends block = true := by
  unfold opener at h
  split at h <;> cases block <;> first | exact ⟨rfl, rfl⟩ | cases h

theorem Yields.filter_begins {hierarchy : Hierarchy} {closed : List (List Block)} {steps : List Step}
    {segment : List Block} {step : Step} (h : Yields hierarchy closed steps segment step) :
    segment.filter begins = [step.opening.block] := by
  obtain ⟨body, rfl, hi, -⟩ := h.segment
  have hnone : body.filter begins = [] := by
    rw [List.filter_eq_nil_iff]
    intro block hm
    simp [(ends_eq_false_of_inner (hi block hm)).2]
  rw [List.filter_cons_of_pos (begins_of_opener h.opens).1, hnone]

theorem Yielded.filter_begins {hierarchy : Hierarchy} {segments : List (List Block)}
    {steps : List Step} (h : Yielded hierarchy segments steps) :
    segments.flatten.filter begins = steps.map (·.opening.block) := by
  induction h with
  | nil => rfl
  | snoc _ last ih => simp [ih, last.filter_begins]

theorem Grammar.Tail.filter_begins {tail : List Block} (h : Tail tail) : tail.filter begins = [] := by
  rcases h with ⟨outputs, rfl⟩ | ⟨condition, outputs, rfl⟩ <;> rfl

theorem Yielded.length_eq {hierarchy : Hierarchy} {segments : List (List Block)} {steps : List Step}
    (h : Yielded hierarchy segments steps) : steps.length = segments.length := by
  induction h with
  | nil => rfl
  | snoc _ _ ih => simp [ih]

/-- A step was yielded by the segment at its own place, in view of those before it. -/
theorem Yielded.split {hierarchy : Hierarchy} {segments : List (List Block)} {steps : List Step}
    (h : Yielded hierarchy segments steps) {k : Nat} {step : Step} (hk : steps[k]? = some step) :
    ∃ closed segment after, segments = closed ++ segment :: after ∧ closed.length = k ∧
      Yielded hierarchy closed (steps.take k) ∧
      Yields hierarchy closed (steps.take k) segment step ∧
      ∀ next ∈ after, ∃ block more, next = block :: more ∧ ends block = true := by
  induction h with
  | nil => cases hk
  | @snoc closed steps segment last before hlast ih =>
    rcases Nat.lt_trichotomy k steps.length with hlt | rfl | hgt
    · rw [List.getElem?_append_left hlt] at hk
      obtain ⟨closed', segment', after, rfl, hlen, hbefore, hyields, hafter⟩ := ih hk
      rw [List.take_append_of_le_length (Nat.le_of_lt hlt)]
      refine ⟨closed', segment', after ++ [segment], by simp, hlen, hbefore, hyields, fun next hm => ?_⟩
      rcases List.mem_append.mp hm with hm | hm
      · exact hafter next hm
      · cases List.mem_singleton.mp hm
        obtain ⟨body, rfl, -⟩ := hlast.segment
        exact ⟨_, body, rfl, (begins_of_opener hlast.opens).2⟩
    · rw [List.getElem?_concat_length] at hk
      cases hk
      rw [List.take_left]
      exact ⟨closed, segment, [], rfl, before.length_eq.symm, before, hlast, by simp⟩
    · rw [List.getElem?_eq_none (by simp; omega)] at hk
      cases hk

theorem exists_stop {after : List (List Block)}
    (h : ∀ next ∈ after, ∃ block more, next = block :: more ∧ ends block = true)
    (tail : List Block) : ∃ stop rest,
      after.flatten ++ .globalOperationsStart :: tail = stop :: rest ∧ ends stop = true := by
  cases after with
  | nil => exact ⟨_, tail, rfl, rfl⟩
  | cons next after =>
    obtain ⟨block, more, rfl, hb⟩ := h next List.mem_cons_self
    exact ⟨block, _, rfl, hb⟩

theorem Yielded.laid {hierarchy : Hierarchy} {segments : List (List Block)} {steps : List Step}
    (h : Yielded hierarchy segments steps) (tail : List Block) {k : Nat} {step : Step}
    (hk : steps[k]? = some step) : ∃ before body stop after,
      step.Laid hierarchy (segments.flatten ++ .globalOperationsStart :: tail) k before body stop
        after := by
  obtain ⟨closed, segment, later, rfl, hlen, hbefore, hyields, hlater⟩ := h.split hk
  obtain ⟨stop, rest, hstop, hends⟩ := exists_stop hlater tail
  obtain ⟨body, rfl, hi, htaken⟩ := hyields.segment
  refine ⟨closed.flatten, body, stop, rest, ⟨?_, ?_, ?_, hends, hyields.linked, htaken⟩⟩
  · simp [← hstop]
  · rw [List.countP_eq_length_filter, hbefore.filter_begins, List.length_map, hbefore.length_eq, hlen]
  · exact fun block hm => (ends_eq_false_of_inner (hi block hm)).1

/-- The first step is linked to the location that the second binds. -/
def Leads (steps : List Step) (k j : Nat) : Prop :=
  ∃ step target, steps[k]? = some step ∧ steps[j]? = some target ∧ step.linked = some target.bound

/-- The steps make a tree: the first one is its root, every other one is linked to one earlier step, and
the links lead to the root. -/
structure Rooted (steps : List Step) : Prop where
  nonempty : steps ≠ []
  root : ∀ k step, steps[k]? = some step → (isRoot step.opening.block = true ↔ k = 0)
  unlinked : ∀ k step, steps[k]? = some step → (step.linked = none ↔ k = 0)
  distinct : (steps.map (·.bound)).Nodup
  parent : ∀ k, 1 ≤ k → k < steps.length → ∃ j < k, Leads steps k j ∧ ∀ i, Leads steps k i → i = j
  reaches : ∀ k < steps.length, Relation.ReflTransGen (Leads steps) k 0

theorem Yielded.nodup_bound {hierarchy : Hierarchy} {segments : List (List Block)}
    {steps : List Step} (h : Yielded hierarchy segments steps) : (steps.map (·.bound)).Nodup := by
  induction h with
  | nil => exact List.nodup_nil
  | snoc _ last ih =>
    rw [List.map_append]
    refine List.nodup_append.mpr ⟨ih, by simp, fun location hm other ho => ?_⟩
    cases List.mem_singleton.mp ho
    rintro rfl
    exact last.fresh hm

/-- Once a segment is closed, some location has been visited. -/
theorem Yielded.visited {hierarchy : Hierarchy} {segments : List (List Block)} {steps : List Step}
    (h : Yielded hierarchy segments steps) (hn : segments ≠ []) :
    ∃ location, lastVisit segments.flatten = some location := by
  cases h with
  | nil => exact absurd rfl hn
  | @snoc closed steps segment step _ last =>
    obtain ⟨body, rfl, -, htaken⟩ := last.segment
    have hm : step.bound ∈ marks (closed ++ [step.opening.block :: body]).flatten := by
      have hb : step.bound ∈ marks body := by simp [htaken.bound]
      unfold marks at hb ⊢
      simp only [List.flatten_append, List.flatten_singleton, List.filterMap_append,
        List.mem_append, List.mem_filterMap, List.mem_cons] at hb ⊢
      obtain ⟨block, hb, he⟩ := hb
      exact .inr ⟨block, .inr hb, he⟩
    exact ⟨_, List.getLast?_eq_some_getLast (List.ne_nil_of_mem (mem_visits_of_mem_marks hm))⟩

theorem leads_unique {steps : List Step} (h : (steps.map (·.bound)).Nodup) {k i j : Nat}
    (hi : Leads steps k i) (hj : Leads steps k j) : i = j := by
  obtain ⟨step, target, hk, hti, hli⟩ := hi
  obtain ⟨step', target', hk', htj, hlj⟩ := hj
  cases hk.symm.trans hk'
  have hb : target.bound = target'.bound := Option.some.inj (hli.symm.trans hlj)
  have hlen : i < (steps.map (·.bound)).length := by
    simpa using (List.getElem?_eq_some_iff.mp hti).1
  refine (List.getElem?_inj hlen h).mp ?_
  rw [List.getElem?_map, List.getElem?_map, hti, htj]
  simp [hb]

/-- Where every step but the first leads to an earlier one, every step reaches the first. -/
theorem reaches_root {steps : List Step}
    (h : ∀ k, 1 ≤ k → k < steps.length → ∃ j < k, Leads steps k j) {k : Nat}
    (hk : k < steps.length) : Relation.ReflTransGen (Leads steps) k 0 := by
  induction k using Nat.strongRecOn with
  | _ k ih =>
    by_cases h0 : k = 0
    · subst h0
      exact .refl
    · obtain ⟨j, hj, hl⟩ := h k (by omega) hk
      exact .head hl (ih j hj (by omega))

theorem Yielded.leads {hierarchy : Hierarchy} {segments : List (List Block)} {steps : List Step}
    (h : Yielded hierarchy segments steps) {k : Nat} (h1 : 1 ≤ k) (hk : k < steps.length) :
    ∃ j < k, Leads steps k j := by
  have hget : steps[k]? = some steps[k] := List.getElem?_eq_getElem hk
  obtain ⟨closed, segment, later, rfl, hlen, hbefore, hyields, -⟩ := h.split hget
  have hclosed : closed ≠ [] := List.ne_nil_of_length_pos (by omega)
  obtain ⟨location, hv⟩ := hbefore.visited hclosed
  have hlinked : steps[k].linked = some location := hyields.linked.trans hv
  obtain ⟨target, hm, rfl⟩ := List.mem_map.mp (hyields.earlier location hlinked)
  obtain ⟨j, hj⟩ := List.mem_iff_getElem?.mp hm
  have hjk : j < k := by
    have hlt := (List.getElem?_eq_some_iff.mp hj).1
    rw [List.length_take] at hlt
    omega
  rw [List.getElem?_take, if_pos hjk] at hj
  exact ⟨j, hjk, steps[k], target, hget, hj, hlinked⟩

theorem Yielded.rooted {hierarchy : Hierarchy} {segments : List (List Block)} {steps : List Step}
    (h : Yielded hierarchy segments steps) (hn : segments ≠ []) : Rooted steps := by
  have hdistinct := h.nodup_bound
  refine ⟨?_, fun k step hk => ?_, fun k step hk => ?_, hdistinct, fun k h1 hk => ?_,
    fun k hk => reaches_root (fun k h1 hk => h.leads h1 hk) hk⟩
  · rintro rfl
    exact hn (List.length_eq_zero_iff.mp h.length_eq.symm)
  · obtain ⟨closed, segment, later, rfl, rfl, -, hyields, -⟩ := h.split hk
    have hopen := hyields.opens
    unfold opener at hopen
    cases closed with
    | nil => simpa using hopen
    | cons first closed =>
      have hhop : isHop step.opening.block = true := hopen
      have hroot : isRoot step.opening.block = false := by
        cases hb : step.opening.block <;> first | rfl | simp [hb, isHop] at hhop
      simp [hroot]
  · constructor
    · intro hl
      by_contra h0
      obtain ⟨j, -, step', target, hk', -, hl'⟩ :=
        h.leads (by omega) (List.getElem?_eq_some_iff.mp hk).1
      cases hk.symm.trans hk'
      cases hl.symm.trans hl'
    · rintro rfl
      obtain ⟨closed, segment, later, rfl, hlen, -, hyields, -⟩ := h.split hk
      rw [hyields.linked, List.length_eq_zero_iff.mp hlen]
      rfl
  · obtain ⟨j, hj, hl⟩ := h.leads h1 hk
    exact ⟨j, hj, hl, fun i hi => leads_unique hdistinct hi hl⟩

/-- The steps of a query are, in order, those of the openings outside the fold scopes. Each one is linked
to the location last visited before its opening, takes its parts from the blocks between its opening and
the next one, and together they make a tree. -/
theorem steps_of_ofBlocks {hierarchy : Hierarchy} {blocks : List Block} {query : Query}
    (h : ofBlocks hierarchy blocks = .ok query) :
    ∃ d : Folds.Division, d.Valid ∧ d.blocks = blocks ∧ query.folds.entries = d.entries ∧
      query.steps.map (·.opening.block) = d.main.filter begins ∧
      (∀ (k : Nat) (step : Step), query.steps[k]? = some step →
        ∃ before body stop after, step.Laid hierarchy d.main k before body stop after) ∧
      Rooted query.steps := by
  obtain ⟨⟨folds, main⟩, hf, h⟩ := bind_ok h
  obtain ⟨d, hd, hblocks, hentries, rfl⟩ := Folds.exists_division hf
  have hfolds : query.folds = folds := by
    obtain ⟨p, -, h⟩ := bind_ok h
    split at h
    · cases h
      rfl
    all_goals cases h
  obtain ⟨segments, tail, hmain, htail, hy, hn⟩ := assemble_yielded h
  refine ⟨d, hd, hblocks, by rw [hfolds, hentries], ?_, fun k step hk => ?_, hy.rooted hn⟩
  · rw [hmain, List.filter_append, hy.filter_begins,
      List.filter_cons_of_neg (by simp [begins, isRoot, isHop]), htail.filter_begins,
      List.append_nil]
  · rw [hmain]
    exact hy.laid tail hk

def parent : Location := (Location.root "Animal").descend "out_ParentOf"

def ancestor : Location := (Location.root "Animal").descend "in_ParentOf"

/-- The parent of an animal, with a return to the animal before its own mark; a fold scope that has a
traversal of its own; and, from the animal again, its ancestors. -/
def kinStream : List Block :=
  [.queryRoot (.singleton "Animal"), .markLocation (.root "Animal"),
    .traverse ⟨.outward, "ParentOf", true, false⟩, .backtrack (.root "Animal") true,
    .coerceType (.singleton "Animal"), .markLocation parent, .endOptional,
    .fold (.behind (.root "Animal") .outward "Fed"), .traverse ⟨.outward, "Fed", false, false⟩,
    .markLocation (.root "Fed"), .unfold,
    .backtrack (.root "Animal") true, .recurse ⟨.inward, "ParentOf", 2, false⟩,
    .coerceType (.singleton "Animal"), .markLocation ancestor,
    .globalOperationsStart, .constructResult .empty]

theorem steps_of_ofBlocks_kin : ∃ query, ofBlocks Hierarchy.exact kinStream = .ok query ∧
    query.steps.map (·.linked) = [none, some (.root "Animal"), some (.root "Animal")] ∧
    ∃ d : Folds.Division, d.Valid ∧ d.blocks = kinStream ∧ query.folds.entries = d.entries ∧
      query.steps.map (·.opening.block) = d.main.filter begins ∧
      (∀ (k : Nat) (step : Step), query.steps[k]? = some step →
        ∃ before body stop after, step.Laid Hierarchy.exact d.main k before body stop after) ∧
      Rooted query.steps :=
  ⟨_, rfl, rfl, steps_of_ofBlocks rfl⟩

end GraphPlan.Pattern
