import GraphPlan.Pattern.Query

/-!
Assembly of a pattern query from a stream without fold scopes.

The stream is a row of segments, a marker, and the global operations. A segment opens with a query root,
a traversal or a recursion and becomes one step; it is linked to the location that was last marked or
returned to in the segment before it. The global operations are at most one filter and then the outputs.
-/

namespace GraphPlan.Pattern

inductive Fault where
  | rootMissing
  | rootRepeated
  | foldLeft
  | outputsEarly
  | globalOperations
  | trailing
  | traversalShape
  | stepShape
  | exactType
  | linkUnbound
  | boundTwice
  | empty
  | markerMissing
  | outputsMissing

namespace Fault

def reason : Fault → String
  | rootMissing => "the first block of the IR must be QueryRoot"
  | rootRepeated => "encountered a QueryRoot block that was not the first block in the IR"
  | foldLeft => "Fold blocks must be extracted before step assembly"
  | outputsEarly => "ConstructResult encountered before GlobalOperationsStart"
  | globalOperations => "global operations must be [ConstructResult] or [Filter, ConstructResult]"
  | trailing => "no blocks may follow ConstructResult"
  | traversalShape => "unexpected block types for a traversal step"
  | stepShape => "unexpected block types for a step"
  | exactType => "a step must name exactly one exact type"
  | linkUnbound => "step is linked to a location that no earlier step binds"
  | boundTwice => "location is bound by more than one step"
  | empty => "empty IR: no QueryRoot block was found"
  | markerMissing => "no GlobalOperationsStart block was found"
  | outputsMissing => "global operations must end with a ConstructResult block"

def atBlock (fault : Fault) (position : Nat) (block : Block) : Error :=
  .malformed (some position) block.render fault.reason

def atBlocks (fault : Fault) (position : Nat) (blocks : List Block) : Error :=
  .malformed (some position) (Block.renderAll blocks) fault.reason

def atLocation (fault : Fault) (location : Location) : Error :=
  .malformed none location.name fault.reason

def ofStream (fault : Fault) (blocks : List Block) : Error :=
  .malformed none (Block.renderAll blocks) fault.reason

end Fault

/-- The blocks of a segment that make up its step, and the position of its opening block. -/
structure Segment where
  start : Nat
  blocks : List Block

def Segment.push (s : Segment) (block : Block) : Segment := ⟨s.start, s.blocks ++ [block]⟩

def Segment.fail {α : Type} (s : Segment) (fault : Fault) : Except Error α :=
  .error (fault.atBlocks s.start s.blocks)

/-- A step before its types are looked up. -/
structure Shape where
  opening : Opening
  types : NameSet
  condition : Option Expr
  bound : Location

def traversal? : Block → Option Opening
  | .traverse t => some (.traverse t)
  | .recurse r => some (.recurse r)
  | _ => none

/-- The four forms that a segment may have. -/
def Segment.shape (s : Segment) : Except Error Shape :=
  match s.blocks with
  | [.queryRoot types, .markLocation bound] => .ok ⟨.queryRoot types, types, none, bound⟩
  | [.queryRoot types, .filter condition, .markLocation bound] =>
    .ok ⟨.queryRoot types, types, some condition, bound⟩
  | [opening, .coerceType types, .markLocation bound] =>
    match traversal? opening with
    | some opening => .ok ⟨opening, types, none, bound⟩
    | none => s.fail .traversalShape
  | [opening, .coerceType types, .filter condition, .markLocation bound] =>
    match traversal? opening with
    | some opening => .ok ⟨opening, types, some condition, bound⟩
    | none => s.fail .traversalShape
  | _ => s.fail .stepShape

def Segment.step (s : Segment) (hierarchy : Hierarchy) (linked : Option Location) :
    Except Error Step := do
  let shape ← s.shape
  match shape.types.names with
  | [exact] => .ok ⟨linked, shape.opening, hierarchy exact, shape.condition, shape.bound⟩
  | _ => s.fail .exactType

/-- Which part of the stream is being read. -/
inductive Phase where
  | awaitingRoot
  | building (segment : Segment)
  | awaitingOutputs (condition : Option Expr)
  | done (condition : Option Expr) (outputs : OrderedMap String Expr)

structure Progress where
  phase : Phase
  /-- The link of the segment at hand. -/
  linked : Option Location
  /-- The location last marked or returned to in the segment at hand. -/
  latest : Option Location
  steps : List Step

def Progress.init : Progress := ⟨.awaitingRoot, none, none, []⟩

def Progress.binds (p : Progress) (location : Location) : Bool :=
  p.steps.any (·.bound == location)

/-- A link must lead to an earlier step. -/
def Progress.linkFault? (p : Progress) (step : Step) : Option Error :=
  match step.linked with
  | some linked => if p.binds linked then none else some (Fault.linkUnbound.atLocation linked)
  | none => none

/-- No location is bound twice. -/
def Progress.boundFault? (p : Progress) (step : Step) : Option Error :=
  if p.binds step.bound then some (Fault.boundTwice.atLocation step.bound) else none

/-- Turn the segment at hand into a step that fits those before it. -/
def Progress.close (p : Progress) (hierarchy : Hierarchy) (segment : Segment) :
    Except Error (List Step) := do
  let step ← segment.step hierarchy p.linked
  match p.linkFault? step <|> p.boundFault? step with
  | some e => .error e
  | none => .ok (p.steps ++ [step])

def Progress.advance (p : Progress) (hierarchy : Hierarchy) (segment : Segment) (position : Nat)
    (block : Block) : Except Error Progress := do
  return ⟨.building ⟨position, [block]⟩, p.latest, none, ← p.close hierarchy segment⟩

/-- A block inside a segment. -/
def Progress.extend (p : Progress) (hierarchy : Hierarchy) (segment : Segment) (position : Nat)
    (block : Block) : Except Error Progress :=
  match block with
  | .queryRoot _ => .error (Fault.rootRepeated.atBlock position block)
  | .traverse _ => p.advance hierarchy segment position block
  | .recurse _ => p.advance hierarchy segment position block
  | .backtrack location _ => .ok { p with latest := some location }
  | .markLocation location =>
    .ok { p with phase := .building (segment.push block), latest := some location }
  | .filter _ => .ok { p with phase := .building (segment.push block) }
  | .coerceType _ => .ok { p with phase := .building (segment.push block) }
  | .unfold => .ok p
  | .outputSource => .ok p
  | .endOptional => .ok p
  | .globalOperationsStart => do
    return ⟨.awaitingOutputs none, none, p.latest, ← p.close hierarchy segment⟩
  | .fold _ => .error (Fault.foldLeft.atBlock position block)
  | .constructResult _ => .error (Fault.outputsEarly.atBlock position block)

def Progress.step (p : Progress) (hierarchy : Hierarchy) (position : Nat) (block : Block) :
    Except Error Progress :=
  match p.phase, block with
  | .awaitingRoot, .queryRoot _ => .ok { p with phase := .building ⟨position, [block]⟩ }
  | .awaitingRoot, _ => .error (Fault.rootMissing.atBlock position block)
  | .building segment, _ => p.extend hierarchy segment position block
  | .awaitingOutputs none, .filter condition => .ok { p with phase := .awaitingOutputs (some condition) }
  | .awaitingOutputs condition, .constructResult outputs =>
    .ok { p with phase := .done condition outputs }
  | .awaitingOutputs _, _ => .error (Fault.globalOperations.atBlock position block)
  | .done .., _ => .error (Fault.trailing.atBlock position block)

/-- Read blocks of which the first has the given position. -/
def Progress.run (hierarchy : Hierarchy) (p : Progress) (position : Nat) :
    List Block → Except Error Progress
  | [] => .ok p
  | block :: blocks =>
    match p.step hierarchy position block with
    | .ok next => run hierarchy next (position + 1) blocks
    | .error e => .error e

/-- The pattern query of a stream whose fold scopes have been taken out. -/
def assemble (hierarchy : Hierarchy) (folds : Folds) (blocks : List Block) : Except Error Query := do
  let p ← Progress.run hierarchy .init 0 blocks
  match p.phase with
  | .done condition outputs => .ok ⟨p.steps, folds, condition, outputs⟩
  | .awaitingRoot => .error (Fault.empty.ofStream blocks)
  | .building _ => .error (Fault.markerMissing.ofStream blocks)
  | .awaitingOutputs _ => .error (Fault.outputsMissing.ofStream blocks)

/-- The pattern query of a stream. -/
def ofBlocks (hierarchy : Hierarchy) (blocks : List Block) : Except Error Query := do
  let (folds, main) ← Folds.extract blocks
  assemble hierarchy folds main

end GraphPlan.Pattern
