import GraphPlan.Block
import GraphPlan.Error

/-!
Fold scopes. The blocks from a fold to its unfold belong to the scope that the fold names; all others
are the main stream. Scopes do not nest, and each is opened at most once.
-/

namespace GraphPlan

/-- The blocks of each scope, in the order in which the scopes end. -/
abbrev Folds := OrderedMap FoldLocation (List Block)

namespace Folds

inductive Fault where
  | nested
  | reopened
  | unopened
  | unclosed

def Fault.reason : Fault → String
  | nested => "Fold block encountered inside another fold scope"
  | reopened => "fold scope location opened more than once"
  | unopened => "Unfold block encountered outside a fold scope"
  | unclosed => "fold scope was never closed by an Unfold block"

def Fault.atBlock (fault : Fault) (position : Nat) (block : Block) : Error :=
  .malformed (some position) block.render fault.reason

/-- What has been read of a stream: the closed scopes, the main stream, and the open scope. -/
structure Progress where
  folds : Folds
  main : List Block
  current : Option (FoldLocation × List Block)

def Progress.init : Progress := ⟨.empty, [], none⟩

def step (p : Progress) (position : Nat) (block : Block) : Except Error Progress :=
  match block, p.current with
  | .fold _, some _ => .error (Fault.nested.atBlock position block)
  | .fold scope, none =>
    if p.folds.contains scope then .error (Fault.reopened.atBlock position block)
    else .ok { p with current := some (scope, []) }
  | .unfold, some (scope, inner) =>
    .ok { p with folds := p.folds.insert scope inner, current := none }
  | .unfold, none => .error (Fault.unopened.atBlock position block)
  | _, some (scope, inner) => .ok { p with current := some (scope, inner ++ [block]) }
  | _, none => .ok { p with main := p.main ++ [block] }

/-- Read blocks of which the first has the given position. -/
def run (p : Progress) (position : Nat) : List Block → Except Error Progress
  | [] => .ok p
  | block :: blocks =>
    match step p position block with
    | .ok next => run next (position + 1) blocks
    | .error e => .error e

/-- The scopes of a stream and what is left of it without them. -/
def extract (blocks : List Block) : Except Error (Folds × List Block) :=
  match run .init 0 blocks with
  | .error e => .error e
  | .ok ⟨folds, main, none⟩ => .ok (folds, main)
  | .ok ⟨_, _, some (scope, _)⟩ => .error (.malformed none scope.name Fault.unclosed.reason)

end Folds

end GraphPlan
