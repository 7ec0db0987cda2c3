import GraphPlan.Proofs.Except
import GraphPlan.Proofs.Pattern.Grammar

/-!
Assembly accepts the sentences of the grammar and nothing else.

The state of the assembly is tied to what has been read (`HasRead`): the segments that are closed, and the
part of the next one. What is accepted from such a state is what completes this part (`Completes`); both
sides unfold block by block in the same way, so the proof is one induction over the rest of the stream.
-/

namespace GraphPlan.Pattern

open Grammar

theorem heading_of_traversal? {block : Block} {opening : Opening}
    (h : traversal? block = some opening) (types : NameSet) :
    Heading block types [block, .coerceType types] := by
  cases block with
  | traverse t => exact .traverse t types
  | recurse r => exact .recurse r types
  | _ => cases h

theorem Segment.shape_ok {s : Segment} {shape : Shape} (h : s.shape = .ok shape) :
    ∃ opening heading, Heading opening shape.types heading ∧
      Closes heading s.blocks shape.bound := by
  unfold Segment.shape at h
  split at h
  · cases h
    exact ⟨_, _, .root _, .inl ‹_›⟩
  · cases h
    exact ⟨_, _, .root _, .inr ⟨_, ‹_›⟩⟩
  · rename_i hb
    split at h
    · cases h
      exact ⟨_, _, heading_of_traversal? ‹_› _, .inl hb⟩
    · cases h
  · rename_i hb
    split at h
    · cases h
      exact ⟨_, _, heading_of_traversal? ‹_› _, .inr ⟨_, hb⟩⟩
    · cases h
  · cases h

theorem Segment.step_ok {s : Segment} {hierarchy : Hierarchy} {linked : Option Location} {step : Step}
    (h : s.step hierarchy linked = .ok step) :
    step.linked = linked ∧ ∃ opening types heading, Heading opening types heading ∧
      types.names.length = 1 ∧ Closes heading s.blocks step.bound := by
  obtain ⟨shape, hs, h⟩ := bind_ok h
  obtain ⟨opening, heading, hh, hc⟩ := Segment.shape_ok hs
  split at h
  · rename_i name hn
    cases h
    exact ⟨rfl, opening, shape.types, heading, hh, by rw [hn]; rfl, hc⟩
  · cases h

theorem Segment.exists_step {s : Segment} {opening : Block} {types : NameSet} {heading : List Block}
    {bound : Location} (hh : Heading opening types heading) (hn : types.names.length = 1)
    (hc : Closes heading s.blocks bound) (hierarchy : Hierarchy) (linked : Option Location) :
    ∃ step, s.step hierarchy linked = .ok step := by
  obtain ⟨start, blocks⟩ := s
  obtain ⟨name, hname⟩ := List.length_eq_one_iff.mp hn
  rcases hc with hc | ⟨condition, hc⟩ <;> cases hc <;> cases hh <;>
    simp [Segment.step, Segment.shape, traversal?, hname, bind, Except.bind]

theorem Progress.binds_iff (p : Progress) (location : Location) :
    p.binds location = true ↔ location ∈ p.steps.map (·.bound) := by
  simp [Progress.binds]

/-- A segment is closed when it makes a step, its link is bound, and the location it binds is new. -/
theorem Progress.close_ok_iff {p : Progress} {hierarchy : Hierarchy} {segment : Segment}
    {steps : List Step} : p.close hierarchy segment = .ok steps ↔
      ∃ step, segment.step hierarchy p.linked = .ok step ∧
        (∀ location, p.linked = some location → location ∈ p.steps.map (·.bound)) ∧
        step.bound ∉ p.steps.map (·.bound) ∧ steps = p.steps ++ [step] := by
  unfold Progress.close
  cases hs : segment.step hierarchy p.linked with
  | error e => simp [bind, Except.bind]
  | ok step =>
    have hl : step.linked = p.linked := (Segment.step_ok hs).1
    have hlink : p.linkFault? step = none ↔
        ∀ location, p.linked = some location → location ∈ p.steps.map (·.bound) := by
      unfold Progress.linkFault?
      rw [hl]
      cases p.linked with
      | none => simp
      | some location => simp [← Progress.binds_iff]
    have hbound : p.boundFault? step = none ↔ step.bound ∉ p.steps.map (·.bound) := by
      simp [Progress.boundFault?, ← Progress.binds_iff]
    simp only [bind, Except.bind, Except.ok.injEq, exists_eq_left']
    rw [← hlink, ← hbound]
    cases p.linkFault? step <;> cases p.boundFault? step <;> simp [eq_comm]

/-- The state after a block inside the segment at hand. -/
def Progress.push (p : Progress) (segment : Segment) (block : Block) : Progress :=
  { p with
    phase := .building (if silent block then segment else segment.push block)
    latest := (visit? block).or p.latest }

section Step

variable {p : Progress} {segment : Segment} {block : Block} {hierarchy : Hierarchy} {position : Nat}

theorem Progress.step_inner (hp : p.phase = .building segment) (hb : inner block = true) :
    p.step hierarchy position block = .ok (p.push segment block) := by
  obtain ⟨phase, linked, latest, steps⟩ := p
  cases hp
  cases block <;> first | rfl | cases hb

theorem Progress.step_hop (hp : p.phase = .building segment) (hb : isHop block = true) :
    p.step hierarchy position block = (p.close hierarchy segment).map fun steps =>
      ⟨.building ⟨position, [block]⟩, p.latest, none, steps⟩ := by
  obtain ⟨phase, linked, latest, steps⟩ := p
  cases hp
  cases block <;> first | rfl | cases hb

theorem Progress.step_marker (hp : p.phase = .building segment) :
    p.step hierarchy position .globalOperationsStart = (p.close hierarchy segment).map fun steps =>
      ⟨.awaitingOutputs none, none, p.latest, steps⟩ := by
  obtain ⟨phase, linked, latest, steps⟩ := p
  cases hp
  rfl

theorem Progress.step_refused (hp : p.phase = .building segment) (hi : ¬ inner block = true)
    (hh : ¬ isHop block = true) (hg : block ≠ .globalOperationsStart) (hierarchy : Hierarchy)
    (position : Nat) : ∃ e, p.step hierarchy position block = .error e := by
  obtain ⟨phase, linked, latest, steps⟩ := p
  cases hp
  cases block <;>
    first
    | exact ⟨_, rfl⟩
    | exact absurd rfl hi
    | exact absurd rfl hh
    | exact absurd rfl hg

end Step

theorem content_append (segment : List Block) (block : Block) :
    content (segment ++ [block]) = content segment ++ if silent block then [] else [block] := by
  unfold content
  rw [List.filter_append]
  cases hs : silent block <;> simp [hs]

theorem lastVisit_append (segment : List Block) (block : Block) :
    lastVisit (segment ++ [block]) = (visit? block).or (lastVisit segment) := by
  unfold lastVisit
  rw [List.filterMap_append]
  cases hv : visit? block <;> simp [hv]

theorem Grammar.Opens.append {kind : Block → Bool} {segment : List Block} {block : Block}
    (h : Opens kind segment) (hb : inner block = true) : Opens kind (segment ++ [block]) := by
  obtain ⟨opening, rest, rfl, ho, hr⟩ := h
  refine ⟨opening, rest ++ [block], rfl, ho, fun b hm => ?_⟩
  rcases List.mem_append.mp hm with hm | hm
  · exact hr b hm
  · cases List.mem_singleton.mp hm
    exact hb

/-- The segment at hand is the next one as far as it has been read, after those that are closed. -/
structure HasRead (p : Progress) (closed : List (List Block)) (current : List Block)
    (segment : Segment) : Prop where
  phase : p.phase = .building segment
  blocks : segment.blocks = content current
  latest : p.latest = lastVisit current
  linked : p.linked = closed.getLast?.bind lastVisit
  bound : p.steps.map (·.bound) = closed.flatMap marks
  opens : Opens (opener closed) current
  visited : ∀ s ∈ closed, ∃ location, lastVisit s = some location

theorem hasRead_root (types : NameSet) (position : Nat) :
    HasRead { Progress.init with phase := .building ⟨position, [.queryRoot types]⟩ } []
      [.queryRoot types] ⟨position, [.queryRoot types]⟩ where
  phase := rfl
  blocks := rfl
  latest := rfl
  linked := rfl
  bound := rfl
  opens := ⟨_, [], rfl, rfl, by simp⟩
  visited := by simp

/-- The segment at hand can be closed exactly when it fits those before it. -/
theorem HasRead.close_iff {p : Progress} {closed : List (List Block)} {current : List Block}
    {segment : Segment} (h : HasRead p closed current segment) (hierarchy : Hierarchy) :
    (∃ steps, p.close hierarchy segment = .ok steps) ↔ Fits closed current := by
  simp only [Progress.close_ok_iff, h.bound]
  constructor
  · rintro ⟨_, step, hs, hl, hb, _⟩
    obtain ⟨_, opening, types, heading, hh, hn, hc⟩ := Segment.step_ok hs
    rw [h.blocks] at hc
    refine ⟨h.opens, ⟨opening, types, heading, step.bound, hh, hn, hc⟩, ?_, ?_⟩
    · rw [marks_of_closes hh hc]
      intro location hm
      cases List.mem_singleton.mp hm
      exact hb
    · intro before hlast
      obtain ⟨location, hv⟩ := h.visited before (List.mem_of_getLast? hlast)
      exact ⟨location, hv, hl location (by rw [h.linked, hlast]; exact hv)⟩
  · intro hf
    obtain ⟨opening, types, heading, bound, hh, hn, hc⟩ := hf.formed
    obtain ⟨step, hs⟩ := Segment.exists_step hh hn (by rwa [h.blocks]) hierarchy p.linked
    refine ⟨_, step, hs, ?_, ?_, rfl⟩
    · intro location hl
      rw [h.linked] at hl
      obtain ⟨before, hlast, hv⟩ := Option.bind_eq_some_iff.mp hl
      obtain ⟨location', hv', hm⟩ := hf.linked before hlast
      cases hv.symm.trans hv'
      exact hm
    · obtain ⟨_, _, _, _, hh', _, hc'⟩ := Segment.step_ok hs
      rw [h.blocks] at hc'
      exact hf.fresh _ (by rw [marks_of_closes hh' hc']; exact List.mem_singleton_self _)

/-- A segment that has been closed has its mark among the bound locations, and the next one opens. -/
theorem HasRead.next {p : Progress} {closed : List (List Block)} {current : List Block}
    {segment : Segment} (h : HasRead p closed current segment) {hierarchy : Hierarchy}
    {steps : List Step} (hs : p.close hierarchy segment = .ok steps) {block : Block}
    (hb : isHop block = true) (position : Nat) :
    HasRead ⟨.building ⟨position, [block]⟩, p.latest, none, steps⟩ (closed ++ [current]) [block]
      ⟨position, [block]⟩ := by
  have hf : Fits closed current := (h.close_iff hierarchy).mp ⟨steps, hs⟩
  refine ⟨rfl, ?_, ?_, ?_, ?_, ⟨block, [], rfl, ?_, by simp⟩, ?_⟩
  · cases block <;> first | rfl | cases hb
  · cases block <;> first | rfl | cases hb
  · simp [h.latest]
  · obtain ⟨step, hstep, _, _, rfl⟩ := Progress.close_ok_iff.mp hs
    obtain ⟨_, _, _, _, hh, _, hc⟩ := Segment.step_ok hstep
    rw [h.blocks] at hc
    simp [h.bound, marks_of_closes hh hc]
  · rwa [opener_append]
  · intro s hm
    rcases List.mem_append.mp hm with hm | hm
    · exact h.visited s hm
    · cases List.mem_singleton.mp hm
      exact hf.formed.exists_lastVisit

theorem HasRead.extend {p : Progress} {closed : List (List Block)} {current : List Block}
    {segment : Segment} (h : HasRead p closed current segment) {block : Block}
    (hb : inner block = true) :
    HasRead (p.push segment block) closed (current ++ [block])
      (if silent block then segment else segment.push block) := by
  refine ⟨rfl, ?_, ?_, h.linked, h.bound, h.opens.append hb, h.visited⟩
  · rw [content_append, ← h.blocks]
    cases silent block
    · rfl
    · exact (List.append_nil _).symm
  · rw [lastVisit_append, ← h.latest]
    rfl

/-- From this state the blocks are read to the end, up to the outputs. -/
def Progress.Accepts (p : Progress) (hierarchy : Hierarchy) (position : Nat) (blocks : List Block) :
    Prop :=
  ∃ p' condition outputs, Progress.run hierarchy p position blocks = .ok p' ∧
    p'.phase = .done condition outputs

theorem accepts_nil {p : Progress} {hierarchy : Hierarchy} {position : Nat} :
    p.Accepts hierarchy position [] ↔ ∃ condition outputs, p.phase = .done condition outputs := by
  constructor
  · rintro ⟨p', condition, outputs, hr, hp⟩
    cases hr
    exact ⟨condition, outputs, hp⟩
  · rintro ⟨condition, outputs, hp⟩
    exact ⟨p, condition, outputs, rfl, hp⟩

theorem accepts_of_step {p next : Progress} {hierarchy : Hierarchy} {position : Nat} {block : Block}
    (hs : p.step hierarchy position block = .ok next) (blocks : List Block) :
    p.Accepts hierarchy position (block :: blocks) ↔
      next.Accepts hierarchy (position + 1) blocks := by
  simp [Progress.Accepts, Progress.run, hs]

theorem not_accepts_of_step {p : Progress} {hierarchy : Hierarchy} {position : Nat} {block : Block}
    {e : Error} (hs : p.step hierarchy position block = .error e) (blocks : List Block) :
    ¬ p.Accepts hierarchy position (block :: blocks) := by
  simp [Progress.Accepts, Progress.run, hs]

/-- A block that closes the segment at hand is read if the segment can be closed. -/
theorem accepts_of_close {p : Progress} {hierarchy : Hierarchy} {segment : Segment} {position : Nat}
    {block : Block} {blocks : List Block} {next : List Step → Progress}
    (hs : p.step hierarchy position block = (p.close hierarchy segment).map next) :
    p.Accepts hierarchy position (block :: blocks) ↔
      ∃ steps, p.close hierarchy segment = .ok steps ∧
        (next steps).Accepts hierarchy (position + 1) blocks := by
  cases hc : p.close hierarchy segment with
  | error e =>
    rw [hc] at hs
    simp [not_accepts_of_step hs]
  | ok steps =>
    rw [hc] at hs
    simp [accepts_of_step hs]

section Globals

variable {p : Progress} {hierarchy : Hierarchy} {position : Nat} {blocks : List Block}

theorem accepts_done {condition : Option Expr} {outputs : OrderedMap String Expr}
    (hp : p.phase = .done condition outputs) :
    p.Accepts hierarchy position blocks ↔ blocks = [] := by
  cases blocks with
  | nil => simp [accepts_nil, hp]
  | cons block blocks =>
    have hs : p.step hierarchy position block = .error (Fault.trailing.atBlock position block) := by
      simp [Progress.step, hp]
    simp [not_accepts_of_step hs]

/-- The outputs end the stream, whether a filter came before them or not. -/
theorem accepts_outputs {condition : Option Expr} {outputs : OrderedMap String Expr}
    (hp : p.phase = .awaitingOutputs condition) :
    p.Accepts hierarchy position (.constructResult outputs :: blocks) ↔ blocks = [] := by
  have hs : p.step hierarchy position (.constructResult outputs) =
      .ok { p with phase := .done condition outputs } := by
    simp [Progress.step, hp]
  rw [accepts_of_step hs, accepts_done rfl]

theorem accepts_filtered {condition : Expr} (hp : p.phase = .awaitingOutputs (some condition)) :
    p.Accepts hierarchy position blocks ↔ ∃ outputs, blocks = [.constructResult outputs] := by
  cases blocks with
  | nil => simp [accepts_nil, hp]
  | cons block blocks =>
    cases block with
    | constructResult outputs => simp [accepts_outputs hp]
    | _ => exact iff_of_false (not_accepts_of_step (by simp [Progress.step, hp]; rfl) _) (by simp)

theorem accepts_globals (hp : p.phase = .awaitingOutputs none) :
    p.Accepts hierarchy position blocks ↔ Tail blocks := by
  unfold Tail
  cases blocks with
  | nil => simp [accepts_nil, hp]
  | cons block blocks =>
    cases block with
    | constructResult outputs => simp [accepts_outputs hp]
    | filter condition =>
      have hs : p.step hierarchy position (.filter condition) =
          .ok { p with phase := .awaitingOutputs (some condition) } := by
        simp [Progress.step, hp]
      rw [accepts_of_step hs, accepts_filtered rfl]
      simp
    | _ => exact iff_of_false (not_accepts_of_step (by simp [Progress.step, hp]; rfl) _) (by simp)

end Globals

/-- What is accepted in the middle of a segment is what completes it. -/
theorem HasRead.accepts_iff {p : Progress} {closed : List (List Block)} {current : List Block}
    {segment : Segment} (h : HasRead p closed current segment) (hierarchy : Hierarchy)
    (position : Nat) (rest : List Block) :
    p.Accepts hierarchy position rest ↔ Completes closed current rest := by
  induction rest generalizing p closed current segment position with
  | nil => simp [accepts_nil, h.phase, not_completes_nil]
  | cons block rest ih =>
    by_cases hi : inner block = true
    · rw [accepts_of_step (Progress.step_inner h.phase hi), ih (h.extend hi), completes_inner hi]
    by_cases hh : isHop block = true
    · rw [accepts_of_close (Progress.step_hop h.phase hh), completes_hop hh, ← h.close_iff hierarchy]
      constructor
      · rintro ⟨steps, hc, ha⟩
        exact ⟨⟨steps, hc⟩, (ih (h.next hc hh position) _).mp ha⟩
      · rintro ⟨⟨steps, hc⟩, ha⟩
        exact ⟨steps, hc, (ih (h.next hc hh position) _).mpr ha⟩
    by_cases hg : block = .globalOperationsStart
    · subst hg
      rw [accepts_of_close (Progress.step_marker h.phase), completes_marker, ← h.close_iff hierarchy]
      constructor
      · rintro ⟨steps, hc, ha⟩
        exact ⟨⟨steps, hc⟩, (accepts_globals rfl).mp ha⟩
      · rintro ⟨⟨steps, hc⟩, ht⟩
        exact ⟨steps, hc, (accepts_globals rfl).mpr ht⟩
    · obtain ⟨e, he⟩ := Progress.step_refused h.phase hi hh hg hierarchy position
      refine iff_of_false (not_accepts_of_step he rest) ?_
      rw [completes_cons]
      simp [hi, hh, hg]

theorem init_accepts_iff (hierarchy : Hierarchy) (blocks : List Block) :
    Progress.init.Accepts hierarchy 0 blocks ↔ ∃ segments tail, Sentence blocks segments tail := by
  rw [exists_sentence_iff]
  cases blocks with
  | nil => simp [accepts_nil, Progress.init]
  | cons block rest =>
    cases block with
    | queryRoot types =>
      have hs : Progress.init.step hierarchy 0 (.queryRoot types) =
          .ok { Progress.init with phase := .building ⟨0, [.queryRoot types]⟩ } := rfl
      rw [accepts_of_step hs, (hasRead_root types 0).accepts_iff]
      simp
    | _ => exact iff_of_false (not_accepts_of_step rfl _) (by simp)

theorem exists_assemble_iff (hierarchy : Hierarchy) (folds : Folds) (blocks : List Block) :
    (∃ query, assemble hierarchy folds blocks = .ok query) ↔
      Progress.init.Accepts hierarchy 0 blocks := by
  constructor
  · rintro ⟨query, h⟩
    obtain ⟨p, hr, h⟩ := bind_ok h
    split at h
    · exact ⟨p, _, _, hr, ‹_›⟩
    all_goals cases h
  · rintro ⟨p, condition, outputs, hr, hp⟩
    refine ⟨⟨p.steps, folds, condition, outputs⟩, ?_⟩
    simp [assemble, hr, hp, bind, Except.bind]

def Malformed (e : Error) : Prop :=
  ∃ position block reason, e = .malformed position block reason

theorem Segment.fail_malformed {α : Type} {s : Segment} {fault : Fault} {e : Error}
    (h : (s.fail fault : Except Error α) = .error e) : Malformed e := by
  cases h
  exact ⟨_, _, _, rfl⟩

theorem Segment.step_malformed {s : Segment} {hierarchy : Hierarchy} {linked : Option Location}
    {e : Error} (h : s.step hierarchy linked = .error e) : Malformed e := by
  rcases bind_error h with h | ⟨shape, _, h⟩
  · unfold Segment.shape at h
    split at h
    · cases h
    · cases h
    · split at h
      · cases h
      · exact Segment.fail_malformed h
    · split at h
      · cases h
      · exact Segment.fail_malformed h
    · exact Segment.fail_malformed h
  · split at h
    · cases h
    · exact Segment.fail_malformed h

theorem Progress.fault_malformed {p : Progress} {step : Step} {e : Error}
    (h : (p.linkFault? step <|> p.boundFault? step) = some e) : Malformed e := by
  rw [Option.orElse_eq_orElse, Option.orElse_eq_or, Option.or_eq_some_iff] at h
  rcases h with h | ⟨_, h⟩
  · unfold Progress.linkFault? at h
    split at h
    · split at h
      · cases h
      · cases h
        exact ⟨_, _, _, rfl⟩
    · cases h
  · unfold Progress.boundFault? at h
    split at h
    · cases h
      exact ⟨_, _, _, rfl⟩
    · cases h

theorem Progress.close_malformed {p : Progress} {hierarchy : Hierarchy} {segment : Segment}
    {e : Error} (h : p.close hierarchy segment = .error e) : Malformed e := by
  rcases bind_error h with h | ⟨step, _, h⟩
  · exact Segment.step_malformed h
  · split at h
    · rename_i e' he
      cases h
      exact Progress.fault_malformed he
    · cases h

theorem Progress.extend_malformed {p : Progress} {hierarchy : Hierarchy} {segment : Segment}
    {position : Nat} {block : Block} {e : Error}
    (h : p.extend hierarchy segment position block = .error e) : Malformed e := by
  have closing {f : List Step → Except Error Progress} (hf : ∀ steps, f steps ≠ .error e)
      (h : (p.close hierarchy segment).bind f = .error e) : Malformed e := by
    rcases bind_error h with h | ⟨steps, _, h⟩
    · exact Progress.close_malformed h
    · exact absurd h (hf steps)
  cases block with
  | traverse _ => exact closing (by simp [pure, Except.pure]) h
  | recurse _ => exact closing (by simp [pure, Except.pure]) h
  | globalOperationsStart => exact closing (by simp [pure, Except.pure]) h
  | queryRoot _ | fold _ | constructResult _ =>
    cases h
    exact ⟨_, _, _, rfl⟩
  | _ => cases h

theorem Progress.step_malformed {p : Progress} {hierarchy : Hierarchy} {position : Nat}
    {block : Block} {e : Error} (h : p.step hierarchy position block = .error e) : Malformed e := by
  unfold Progress.step at h
  split at h
  case h_3 => exact Progress.extend_malformed h
  all_goals
    cases h
    try exact ⟨_, _, _, rfl⟩

theorem Progress.run_malformed {p : Progress} {hierarchy : Hierarchy} {position : Nat}
    {blocks : List Block} {e : Error} (h : Progress.run hierarchy p position blocks = .error e) :
    Malformed e := by
  induction blocks generalizing p position with
  | nil => cases h
  | cons block blocks ih =>
    rw [Progress.run] at h
    split at h
    · exact ih h
    · rename_i e' hs
      cases h
      exact Progress.step_malformed hs

theorem assemble_malformed {hierarchy : Hierarchy} {folds : Folds} {blocks : List Block} {e : Error}
    (h : assemble hierarchy folds blocks = .error e) : Malformed e := by
  rcases bind_error h with h | ⟨p, _, h⟩
  · exact Progress.run_malformed h
  · split at h
    · cases h
    all_goals
      cases h
      exact ⟨_, _, _, rfl⟩

/-- A stream becomes a query exactly when it is a sentence, and is refused as malformed otherwise. -/
theorem assemble_accepts_sentences (hierarchy : Hierarchy) (folds : Folds) (blocks : List Block) :
    ((∃ query, assemble hierarchy folds blocks = .ok query) ↔
      ∃ segments tail, Sentence blocks segments tail) ∧
    ((∃ position block reason,
        assemble hierarchy folds blocks = .error (.malformed position block reason)) ↔
      ¬ ∃ segments tail, Sentence blocks segments tail) := by
  have hok := (exists_assemble_iff hierarchy folds blocks).trans (init_accepts_iff hierarchy blocks)
  refine ⟨hok, ?_⟩
  rw [← hok]
  constructor
  · rintro ⟨position, block, reason, he⟩ ⟨query, hq⟩
    cases he.symm.trans hq
  · intro hn
    cases hr : assemble hierarchy folds blocks with
    | ok query => exact absurd ⟨query, hr⟩ hn
    | error e =>
      obtain ⟨position, block, reason, rfl⟩ := assemble_malformed hr
      exact ⟨position, block, reason, rfl⟩

end GraphPlan.Pattern
