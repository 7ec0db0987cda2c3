import GraphPlan.Proofs.Pattern.Insertion
import GraphPlan.Proofs.Pattern.Steps

/-!
What the errors of an assembly point at.

An error is found at a block, when a step is reduced, when a step is linked to those before it, or at the end of
the stream. While blocks are read, the state knows where the step at hand was opened, which of the blocks since
then it keeps, and that it has its locations from blocks (`Knows`), so each error can be traced to a place of the
stream (`Blames`). Only what is found at the end can be mended by more blocks.
-/

namespace GraphPlan.Pattern

open Grammar

/-- The blocks that a step keeps besides its opening. -/
def isPart : Block → Bool
  | .filter _ => true
  | .coerceType _ => true
  | .markLocation _ => true
  | _ => false

/-- Blocks that close the step before them. -/
def closes : Block → Bool
  | .globalOperationsStart => true
  | block => isHop block

/-- The step that is opened at a position: its opening, and its parts up to the block that closes it. -/
def stepAt (s : List Block) (i : Nat) : List Block :=
  match s.drop i with
  | [] => []
  | opening :: rest => opening :: (rest.takeWhile fun block => !closes block).filter isPart

/-- A block marks the location or returns to it. -/
def Visited (s : List Block) (location : Location) : Prop :=
  .markLocation location ∈ s ∨ ∃ optional, .backtrack location optional ∈ s

theorem closes_eq_false_of_inner {block : Block} (h : inner block = true) : closes block = false := by
  cases block <;> first | rfl | cases h

theorem isPart_of_inner {block : Block} (h : inner block = true) : isPart block = !silent block := by
  cases block <;> first | rfl | cases h

theorem stepAt_append {before body after : List Block} {opening stop : Block}
    (hb : ∀ block ∈ body, inner block = true) (hs : closes stop = true) :
    stepAt (before ++ opening :: (body ++ stop :: after)) before.length =
      opening :: body.filter isPart := by
  have hbody : ∀ block ∈ body, (!closes block) = true := by
    intro block hm
    rw [closes_eq_false_of_inner (hb block hm)]
    rfl
  have htake : (body ++ stop :: after).takeWhile (fun block => !closes block) = body := by
    rw [List.takeWhile_append_of_pos hbody, List.takeWhile_cons_of_neg (by simp [hs]), List.append_nil]
  rw [stepAt, List.drop_left]
  simp only [htake]

theorem Visited.append {s : List Block} {location : Location} (h : Visited s location)
    (t : List Block) : Visited (s ++ t) location := by
  rcases h with h | ⟨optional, h⟩
  · exact .inl (List.mem_append_left t h)
  · exact .inr ⟨optional, List.mem_append_left t h⟩

theorem visited_of_visit? {s : List Block} {block : Block} {location : Location}
    (hb : block ∈ s) (h : visit? block = some location) : Visited s location := by
  cases block with
  | markLocation l =>
    cases h
    exact .inl hb
  | backtrack l optional =>
    cases h
    exact .inr ⟨optional, hb⟩
  | _ => cases h

/-- The faults that are found when the stream has ended. -/
def Fault.atEnd : Fault → Bool
  | empty => true
  | markerMissing => true
  | outputsMissing => true
  | _ => false

/-- An error that is found while blocks are read, with the place of the stream that it is about. -/
inductive Blames (s : List Block) : Fault → Error → Prop where
  | block {fault : Fault} {before after : List Block} {block : Block} (hf : fault.atEnd = false)
      (hs : s = before ++ block :: after) : Blames s fault (fault.atBlock before.length block)
  | step {fault : Fault} {before body after : List Block} {opening stop : Block}
      (hf : fault.atEnd = false) (hs : s = before ++ opening :: (body ++ stop :: after))
      (ho : begins opening = true) (hb : ∀ block ∈ body, inner block = true)
      (hstop : closes stop = true) :
      Blames s fault (fault.atBlocks before.length (opening :: body.filter isPart))
  | location {fault : Fault} {location : Location}
      (hf : fault = .linkUnbound ∨ fault = .boundTwice) (hv : Visited s location) :
      Blames s fault (fault.atLocation location)

theorem Blames.append {s : List Block} {fault : Fault} {e : Error} (h : Blames s fault e)
    (t : List Block) : Blames (s ++ t) fault e := by
  cases h with
  | @block before after block hf hs =>
    have hmore : s ++ t = before ++ block :: (after ++ t) := by simp [hs]
    exact .block hf hmore
  | @step before body after opening stop hf hs ho hb hstop =>
    have hmore : s ++ t = before ++ opening :: (body ++ stop :: (after ++ t)) := by simp [hs]
    exact .step hf hmore ho hb hstop
  | location hf hv => exact .location hf (hv.append t)

theorem Blames.not_atEnd {s : List Block} {fault : Fault} {e : Error} (h : Blames s fault e) :
    fault.atEnd = false := by
  cases h with
  | block hf _ => exact hf
  | step hf _ _ _ _ => exact hf
  | location hf _ => rcases hf with rfl | rfl <;> rfl

theorem Segment.shape_error {s : Segment} {e : Error} (h : s.shape = .error e) :
    ∃ fault : Fault, fault.atEnd = false ∧ e = fault.atBlocks s.start s.blocks := by
  unfold Segment.shape at h
  split at h
  · cases h
  · cases h
  · split at h
    · cases h
    · cases h
      exact ⟨.traversalShape, rfl, rfl⟩
  · split at h
    · cases h
    · cases h
      exact ⟨.traversalShape, rfl, rfl⟩
  · cases h
    exact ⟨.stepShape, rfl, rfl⟩

/-- A segment that makes no step is reported with all of its blocks. -/
theorem Segment.step_error {s : Segment} {hierarchy : Hierarchy} {linked : Option Location} {e : Error}
    (h : s.step hierarchy linked = .error e) :
    ∃ fault : Fault, fault.atEnd = false ∧ e = fault.atBlocks s.start s.blocks := by
  rcases bind_error h with h | ⟨shape, -, h⟩
  · exact Segment.shape_error h
  · split at h
    · cases h
    · cases h
      exact ⟨.exactType, rfl, rfl⟩

theorem Segment.mem_of_step {s : Segment} {hierarchy : Hierarchy} {linked : Option Location}
    {step : Step} (h : s.step hierarchy linked = .ok step) : .markLocation step.bound ∈ s.blocks := by
  obtain ⟨-, -, -, heading, -, -, hc | ⟨condition, hc⟩⟩ := Segment.step_ok h <;> simp [hc]

/-- A step that does not fit those before it is reported with the location at which it does not. -/
theorem Progress.close_error {p : Progress} {hierarchy : Hierarchy} {segment : Segment} {e : Error}
    (h : p.close hierarchy segment = .error e) :
    (∃ fault : Fault, fault.atEnd = false ∧ e = fault.atBlocks segment.start segment.blocks) ∨
      (∃ location, p.linked = some location ∧ e = Fault.linkUnbound.atLocation location) ∨
      ∃ location, .markLocation location ∈ segment.blocks ∧
        e = Fault.boundTwice.atLocation location := by
  rcases bind_error h with h | ⟨step, hstep, h⟩
  · exact .inl (Segment.step_error h)
  have hlinked : step.linked = p.linked := (Segment.step_ok hstep).1
  split at h
  · next e' hfault =>
    cases h
    rcases Option.or_eq_some_iff.mp ((Option.orElse_eq_or ..).symm.trans hfault) with hlink | ⟨-, hbound⟩
    · unfold Progress.linkFault? at hlink
      split at hlink
      · next location hl =>
        split at hlink
        · cases hlink
        · cases hlink
          exact .inr (.inl ⟨location, hlinked ▸ hl, rfl⟩)
      · cases hlink
    · unfold Progress.boundFault? at hbound
      split at hbound
      · cases hbound
        exact .inr (.inr ⟨step.bound, Segment.mem_of_step hstep, rfl⟩)
      · cases hbound
  · cases h

/-- The segment at hand was opened by a block and has kept the parts that came since then, and the locations of
the state are those of blocks. -/
structure Progress.Knows (p : Progress) (read : List Block) : Prop where
  segment : ∀ segment, p.phase = .building segment → ∃ before opening body,
    read = before ++ opening :: body ∧ segment.start = before.length ∧ begins opening = true ∧
      (∀ block ∈ body, inner block = true) ∧ segment.blocks = opening :: body.filter isPart
  linked : ∀ location, p.linked = some location → Visited read location
  latest : ∀ location, p.latest = some location → Visited read location

section

variable {p : Progress} {read : List Block} {hierarchy : Hierarchy}

theorem knows_init : Progress.init.Knows [] := by
  refine ⟨?_, ?_, ?_⟩ <;> intro x hx <;> cases hx

/-- A block opens a segment, and the state takes its link from what it knows. -/
theorem Progress.knows_open {block : Block} (hb : begins block = true) {linked latest : Option Location}
    {steps : List Step} (hl : ∀ location, linked = some location → Visited read location)
    (hv : ∀ location, latest = some location → Visited read location) :
    Progress.Knows ⟨.building ⟨read.length, [block]⟩, linked, latest, steps⟩ (read ++ [block]) where
  segment := by
    intro segment hs
    cases hs
    exact ⟨read, block, [], rfl, rfl, hb, by simp, rfl⟩
  linked := fun location h => (hl location h).append _
  latest := fun location h => (hv location h).append _

theorem Progress.Knows.push (h : p.Knows read) {segment : Segment} (hp : p.phase = .building segment)
    {block : Block} (hb : inner block = true) : (p.push segment block).Knows (read ++ [block]) where
  segment := by
    intro segment' hs
    cases hs
    obtain ⟨before, opening, body, rfl, hstart, hopening, hbody, hblocks⟩ := h.segment segment hp
    refine ⟨before, opening, body ++ [block], by simp, ?_, hopening, ?_, ?_⟩
    · rw [← hstart]
      split <;> rfl
    · intro b hm
      rcases List.mem_append.mp hm with hm | hm
      · exact hbody b hm
      · rw [List.mem_singleton.mp hm]
        exact hb
    · rw [List.filter_append, List.filter_singleton, isPart_of_inner hb]
      cases silent block <;> simp [Segment.push, hblocks]
  linked := fun location hl => (h.linked location hl).append _
  latest := by
    intro location hl
    rcases Option.or_eq_some_iff.mp hl with hv | ⟨-, hl⟩
    · exact visited_of_visit? (by simp) hv
    · exact (h.latest location hl).append _

/-- Outside the steps a state knows nothing. -/
theorem Progress.knows_of_links (hp : ∀ segment, p.phase ≠ .building segment)
    (hl : ∀ location, p.linked = some location → Visited read location)
    (hv : ∀ location, p.latest = some location → Visited read location) : p.Knows read :=
  ⟨fun segment hs => absurd hs (hp segment), hl, hv⟩

/-- If the step at hand cannot be closed by a block, its opening or one of its locations is to blame. -/
theorem Progress.Knows.close_error (h : p.Knows read) {segment : Segment}
    (hp : p.phase = .building segment) {block : Block} (hb : closes block = true) {e : Error}
    (he : p.close hierarchy segment = .error e) : ∃ fault, Blames (read ++ [block]) fault e := by
  obtain ⟨before, opening, body, rfl, hstart, hopening, hbody, hblocks⟩ := h.segment segment hp
  rcases Progress.close_error he with ⟨fault, hf, rfl⟩ | ⟨location, hl, rfl⟩ | ⟨location, hm, rfl⟩
  · refine ⟨fault, ?_⟩
    rw [hstart, hblocks]
    have hread : (before ++ opening :: body) ++ [block] = before ++ opening :: (body ++ block :: []) := by
      simp
    exact .step hf hread hopening hbody hb
  · exact ⟨_, .location (.inl rfl) ((h.linked location hl).append _)⟩
  · refine ⟨_, .location (.inr rfl) (.inl ?_)⟩
    rw [hblocks] at hm
    rcases List.mem_cons.mp hm with rfl | hm
    · cases hopening
    · simp [List.mem_of_mem_filter hm]

theorem ends_block_error (fault : Fault) (hf : fault.atEnd = false) (block : Block)
    {good : Progress → Prop} : Ends (.error (fault.atBlock read.length block)) good
      fun e => ∃ fault, Blames (read ++ [block]) fault e :=
  ends_error ⟨fault, .block hf rfl⟩

/-- The next block closes the step at hand, and the state goes on from there. -/
theorem Progress.Knows.ends_close (h : p.Knows read) {segment : Segment}
    (hp : p.phase = .building segment) {block : Block} (hb : closes block = true)
    {next : List Step → Progress} (hn : ∀ steps, (next steps).Knows (read ++ [block])) :
    Ends ((p.close hierarchy segment).map next) (Progress.Knows · (read ++ [block]))
      fun e => ∃ fault, Blames (read ++ [block]) fault e := by
  cases hc : p.close hierarchy segment with
  | error e => exact ends_error (h.close_error hp hb hc)
  | ok steps => exact ends_ok (hn steps)

theorem Progress.Knows.step_building (h : p.Knows read) {segment : Segment}
    (hp : p.phase = .building segment) (block : Block) :
    Ends (p.step hierarchy read.length block) (Progress.Knows · (read ++ [block]))
      fun e => ∃ fault, Blames (read ++ [block]) fault e := by
  by_cases hi : inner block = true
  · rw [Progress.step_inner hp hi]
    exact ends_ok (h.push hp hi)
  by_cases hh : isHop block = true
  · have hb : closes block = true := by cases block <;> first | rfl | cases hh
    rw [Progress.step_hop hp hh]
    refine h.ends_close hp hb fun steps => Progress.knows_open (by simp [begins, hh]) h.latest ?_
    intro location hl
    cases hl
  · obtain ⟨phase, linked, latest, steps⟩ := p
    cases hp
    cases block with
    | globalOperationsStart =>
      rw [Progress.step_marker rfl]
      refine h.ends_close rfl rfl fun steps => Progress.knows_of_links ?_ ?_ ?_
      · intro segment hs
        cases hs
      · intro location hl
        cases hl
      · exact fun location hl => (h.latest location hl).append _
    | queryRoot types => exact ends_block_error .rootRepeated rfl _
    | fold scope => exact ends_block_error .foldLeft rfl _
    | constructResult fields => exact ends_block_error .outputsEarly rfl _
    | traverse t => exact absurd rfl hh
    | recurse r => exact absurd rfl hh
    | _ => exact absurd rfl hi

/-- One block more: the state knows of it, or the error is about a place up to it. -/
theorem Progress.Knows.step (h : p.Knows read) (block : Block) :
    Ends (p.step hierarchy read.length block) (Progress.Knows · (read ++ [block]))
      fun e => ∃ fault, Blames (read ++ [block]) fault e := by
  have hlinked : ∀ location, p.linked = some location → Visited (read ++ [block]) location :=
    fun location hl => (h.linked location hl).append _
  have hlatest : ∀ location, p.latest = some location → Visited (read ++ [block]) location :=
    fun location hl => (h.latest location hl).append _
  obtain ⟨phase, linked, latest, steps⟩ := p
  cases phase with
  | awaitingRoot =>
    cases block with
    | queryRoot types => exact ends_ok (Progress.knows_open rfl h.linked h.latest)
    | _ => exact ends_block_error .rootMissing rfl _
  | building segment => exact h.step_building rfl block
  | awaitingOutputs condition =>
    cases block with
    | constructResult outputs =>
      cases condition <;> exact ends_ok (Progress.knows_of_links (by simp) hlinked hlatest)
    | filter predicate =>
      cases condition with
      | none => exact ends_ok (Progress.knows_of_links (by simp) hlinked hlatest)
      | some condition => exact ends_block_error .globalOperations rfl _
    | _ => cases condition <;> exact ends_block_error .globalOperations rfl _
  | done condition outputs => exact ends_block_error .trailing rfl _

/-- A whole run: an error that stops it is about a place of the stream. -/
theorem Progress.Knows.run (h : p.Knows read) (blocks : List Block) :
    Ends (Progress.run hierarchy p read.length blocks) (Progress.Knows · (read ++ blocks))
      fun e => ∃ fault, Blames (read ++ blocks) fault e := by
  induction blocks generalizing p read with
  | nil =>
    rw [List.append_nil]
    exact ends_ok h
  | cons block blocks ih =>
    have hsplit : read ++ block :: blocks = (read ++ [block]) ++ blocks := by simp
    rw [Progress.run_cons, hsplit]
    refine ((h.step block).mono (fun _ hn => hn) ?_).bind fun next hn => ?_
    · rintro e ⟨fault, hb⟩
      exact ⟨fault, hb.append blocks⟩
    · have hrest := ih hn
      rw [List.length_append, List.length_singleton] at hrest
      exact hrest

end

/-- An assembly fails while blocks are read, or because there are no more of them. -/
theorem assemble_error {hierarchy : Hierarchy} {folds : Folds} {s : List Block} {e : Error}
    (h : assemble hierarchy folds s = .error e) :
    Progress.run hierarchy .init 0 s = .error e ∨
      ∃ (fault : Fault) (p : Progress), fault.atEnd = true ∧ e = fault.ofStream s ∧
        Progress.run hierarchy .init 0 s = .ok p ∧
        ∀ condition outputs, p.phase ≠ .done condition outputs := by
  rcases bind_error h with h | ⟨p, hp, h⟩
  · exact .inl h
  refine .inr ?_
  split at h
  · cases h
  all_goals
    next hphase =>
      cases h
      refine ⟨_, p, ?_, rfl, hp, by simp [hphase]⟩
      rfl

theorem assemble_append_of_run_error {hierarchy : Hierarchy} {s : List Block} {e : Error}
    (h : Progress.run hierarchy .init 0 s = .error e) (folds : Folds) (t : List Block) :
    assemble hierarchy folds (s ++ t) = .error e := by
  rw [assemble, Progress.run_append, h]
  rfl

/-- A fold that comes where the stream could have gone on is an error of its own. -/
theorem Progress.step_fold {p : Progress} (hp : ∀ condition outputs, p.phase ≠ .done condition outputs)
    (hierarchy : Hierarchy) (position : Nat) (scope : FoldLocation) :
    ∃ fault : Fault, p.step hierarchy position (.fold scope) =
      .error (fault.atBlock position (.fold scope)) := by
  obtain ⟨phase, linked, latest, steps⟩ := p
  cases phase with
  | awaitingRoot => exact ⟨.rootMissing, rfl⟩
  | building segment => exact ⟨.foldLeft, rfl⟩
  | awaitingOutputs condition => cases condition <;> exact ⟨.globalOperations, rfl⟩
  | done condition outputs => exact absurd rfl (hp condition outputs)

/-- Errors point at the stream and are final. One with a position renders the block there or the step that is
opened there. One without renders the whole stream, if this has ended too early, or a location of it. More
blocks change nothing, unless the stream has ended too early. -/
theorem assemble_error_attributed {hierarchy : Hierarchy} {folds : Folds} {s : List Block} {e : Error}
    (h : assemble hierarchy folds s = .error e) :
    ∃ (fault : Fault) (position : Option Nat) (text : String),
      e = .malformed position text fault.reason ∧
      (∀ i, position = some i → ∃ block, s[i]? = some block ∧
        (text = block.render ∨
          begins block = true ∧ (∃ stop ∈ s.drop (i + 1), closes stop = true) ∧
            text = Block.renderAll (stepAt s i))) ∧
      (position = none →
        fault.atEnd = true ∧ text = Block.renderAll s ∨
        (fault = .linkUnbound ∨ fault = .boundTwice) ∧
          ∃ location, Visited s location ∧ text = location.name) ∧
      (fault.atEnd = false ↔ ∀ t, assemble hierarchy folds (s ++ t) = .error e) := by
  rcases assemble_error h with hrun | ⟨fault, p, hf, rfl, hp, hphase⟩
  · obtain ⟨fault, hblames⟩ := (knows_init.run s).error e hrun
    have hfinal : fault.atEnd = false ↔ ∀ t, assemble hierarchy folds (s ++ t) = .error e :=
      iff_of_true hblames.not_atEnd (assemble_append_of_run_error hrun folds)
    rw [List.nil_append] at hblames
    cases hblames with
    | @block before after block hf hs =>
      refine ⟨fault, some before.length, block.render, rfl, ?_, by simp, hfinal⟩
      rintro _ ⟨⟩
      exact ⟨block, by simp [hs], .inl rfl⟩
    | @step before body after opening stop hf hs ho hb hstop =>
      refine ⟨fault, some before.length, _, rfl, ?_, by simp, hfinal⟩
      rintro _ ⟨⟩
      refine ⟨opening, by simp [hs], .inr ⟨ho, ⟨stop, ?_, hstop⟩, ?_⟩⟩
      · simp [hs, List.drop_append]
      · rw [hs, stepAt_append hb hstop]
    | @location location hf hv =>
      exact ⟨fault, none, location.name, rfl, by simp, fun _ => .inr ⟨hf, location, hv, rfl⟩, hfinal⟩
  · refine ⟨fault, none, Block.renderAll s, rfl, by simp, fun _ => .inl ⟨hf, rfl⟩, ?_⟩
    refine iff_of_false (by simp [hf]) fun hfinal => ?_
    -- With a fold after it, the stream has an error that is about that block.
    let scope : FoldLocation := ⟨.root "", []⟩
    obtain ⟨fault', hstep⟩ := Progress.step_fold hphase hierarchy s.length scope
    have hmore := hfinal [.fold scope]
    rw [assemble, Progress.run_append, hp] at hmore
    simp [bind, Except.bind, Progress.run, hstep, Fault.atBlock, Fault.ofStream] at hmore

/-- The parent of an animal, whose type is not named before it is marked. -/
def untypedParent : List Block :=
  [.queryRoot (.singleton "Animal"), .markLocation (.root "Animal"), .outputSource,
    .traverse ⟨.outward, "ParentOf", true, false⟩, .endOptional, .markLocation parent,
    .backtrack (.root "Animal") true, .globalOperationsStart]

/-- The blocks that leave no trace count for the position of the step, and are left out of its text. -/
theorem assemble_error_attributed_untyped :
    let e : Error := .malformed (some 3)
      "[Traverse(out_ParentOf, optional), MarkLocation(Animal__out_ParentOf___1)]" Fault.stepShape.reason
    assemble .exact .empty untypedParent = .error e ∧
      (∃ block, untypedParent[3]? = some block ∧ begins block = true ∧
        stepAt untypedParent 3 = [block, .markLocation parent]) ∧
      ∀ t, assemble .exact .empty (untypedParent ++ t) = .error e := by
  intro e
  let step : List Block := [.traverse ⟨.outward, "ParentOf", true, false⟩, .markLocation parent]
  have htext : Block.renderAll step =
      "[Traverse(out_ParentOf, optional), MarkLocation(Animal__out_ParentOf___1)]" := by decide +kernel
  have h : assemble .exact .empty untypedParent = .error e := by
    show Except.error (Fault.stepShape.atBlocks 3 step) = .error e
    rw [Fault.atBlocks, htext]
  obtain ⟨fault, position, text, he, -, -, hfinal⟩ := assemble_error_attributed h
  obtain ⟨-, -, hreason⟩ := Error.malformed.inj he
  refine ⟨h, ⟨_, rfl, rfl, rfl⟩, hfinal.mp ?_⟩
  cases fault <;> first | rfl | exact absurd hreason (by decide)

end GraphPlan.Pattern
