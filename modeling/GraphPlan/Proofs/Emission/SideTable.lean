import GraphPlan.Proofs.Emission.Derivation
import GraphPlan.Proofs.QueryTree.Numbered
import Mathlib.Logic.Function.Basic

/-!
Emission over the row of entries itself.

Here the tree is never taken apart. Nodes are followed by their ids, and what is known of each of them while
the statement grows stands in a table beside the row, under the id: it is put there when a node is bound, and
taken out when the node is joined to its parent. What is asked about the database is asked with whole entries.

`Tracks` compares such an emission with one that has no table: they make the same expressions with the same
names, and end in results that are related or in the same error.
-/

namespace GraphPlan.Sql

/-- What can be asked about a database, with every node given by its entry. -/
structure Provider where
  table : String → Table
  tableNamed : String → Table
  edge : Entry → Option Edge
  joins : Entry → Entry → BoundTable → BoundTable → List JoinClause
  column : Selection → BoundTable → Term
  condition : Entry → Expr → BoundTable → Except Error Term
  presence : Entry → BoundTable → Term
  combinator : String

namespace Provider

/-- No answer depends on the ids that an entry holds. -/
structure IgnoresIds (p : Provider) : Prop where
  edge : ∀ e f : Entry, e.node = f.node → p.edge e = p.edge f
  joins : ∀ e f e' f' : Entry, e.node = e'.node → f.node = f'.node → p.joins e f = p.joins e' f'
  condition : ∀ e f : Entry, e.node = f.node → p.condition e = p.condition f
  presence : ∀ e f : Entry, e.node = f.node → p.presence e = p.presence f

/-- What is answered about an entry and that of its parent, whatever node is named in the question. -/
def about (p : Provider) (parent e : Entry) : Catalog where
  table := p.table
  tableNamed := p.tableNamed
  edge _ := p.edge e
  joins _ _ := p.joins parent e
  column := p.column
  condition _ := p.condition e
  presence _ := p.presence e
  combinator := p.combinator

/-- The entry of a node that has no place in a tree. -/
def bare (node : Node) : Entry := ⟨node, none, [], []⟩

/-- What is answered about nodes, each of which is asked about with some entry of it. -/
def catalogBy (p : Provider) (entryOf : Node → Entry) : Catalog where
  table := p.table
  tableNamed := p.tableNamed
  edge node := p.edge (entryOf node)
  joins parent child := p.joins (entryOf parent) (entryOf child)
  column := p.column
  condition node := p.condition (entryOf node)
  presence node := p.presence (entryOf node)
  combinator := p.combinator

/-- What is answered about nodes that have no place in a tree. -/
def catalog (p : Provider) : Catalog := p.catalogBy bare

/-- For the entries of a tree, the answers are those for the entries that are chosen for their nodes. -/
structure AgreesBy (p : Provider) (entryOf : Node → Entry) (t : QueryTree) : Prop where
  edge : ∀ e ∈ t.entries, p.edge e = p.edge (entryOf e.node)
  joins : ∀ e ∈ t.entries, ∀ f ∈ t.entries, p.joins e f = p.joins (entryOf e.node) (entryOf f.node)
  condition : ∀ e ∈ t.entries, p.condition e = p.condition (entryOf e.node)
  presence : ∀ e ∈ t.entries, p.presence e = p.presence (entryOf e.node)

theorem IgnoresIds.agreesBy {p : Provider} (h : p.IgnoresIds) (t : QueryTree) : p.AgreesBy bare t where
  edge e _ := h.edge e (bare e.node) rfl
  joins e _ f _ := h.joins e f (bare e.node) (bare f.node) rfl rfl
  condition e _ := h.condition e (bare e.node) rfl
  presence e _ := h.presence e (bare e.node) rfl

theorem agreesBy_of_entry (p : Provider) {entryOf : Node → Entry} {t : QueryTree}
    (h : ∀ e ∈ t.entries, entryOf e.node = e) : p.AgreesBy entryOf t where
  edge e he := by rw [h e he]
  joins e he f hf := by rw [h e he, h f hf]
  condition e he := by rw [h e he]
  presence e he := by rw [h e he]

end Provider

/-- A column of the node's own table becomes a link. -/
def Relation.link (r : Relation) (column label : String) : Relation :=
  { r with links := r.links ++ [⟨r.table.column column, label⟩] }

/-- What is known of a node while the statement grows. -/
structure NodeState extends Relation where
  /-- The recursions to be emitted once the node has become an expression. -/
  recursions : List NodeId
  /-- The link column of each of them. -/
  recursionLinks : OrderedMap NodeId String

namespace NodeState

/-- The same recursions with another relation. -/
def become (st : NodeState) (r : Relation) : NodeState := ⟨r, st.recursions, st.recursionLinks⟩

/-- A column of the node's own table becomes the link of a recursion. -/
def link (st : NodeState) (recursion : NodeId) (column label : String) : NodeState :=
  ⟨st.toRelation.link column label, st.recursions, st.recursionLinks.insert recursion label⟩

/-- Take over the recursions of a child, after its relation has been joined. -/
def takeOver (st : NodeState) (joined : Relation) (below : NodeState) : NodeState :=
  ⟨joined, st.recursions ++ below.recursions, st.recursionLinks.extend below.recursionLinks⟩

end NodeState

abbrev States := NodeId → Option NodeState

abbrev Work := StateT States Emit

inductive TableFault where
  | missing (id : NodeId)
  | unlinked (location : Location)
  | notRecursive (location : Location)
  | linkMissing (id : NodeId)
  | noLinkBack (id : NodeId)

def TableFault.error : TableFault → Error
  | missing id => .internal ("node " ++ Nat.repr id ++ " has no emission state at this point")
  | unlinked location =>
    .internal ("recursive node " ++ location.name ++ " reached without a parent link")
  | notRecursive location =>
    .internal ("create_recursive_clause called on non-recursive node " ++ location.name)
  | linkMissing id =>
    .internal ("no link column recorded for recursion node " ++ Nat.repr id)
  | noLinkBack id => .internal ("recursion node " ++ Nat.repr id ++ " produced no link column")

namespace Work

def state (id : NodeId) : Work NodeState := do
  match (← get) id with
  | some st => return st
  | none => throw (TableFault.missing id).error

def put (id : NodeId) (st : NodeState) : Work Unit :=
  modify fun states => Function.update states id (some st)

def take (id : NodeId) : Work NodeState := do
  let st ← state id
  modify fun states => Function.update states id none
  return st

/-- The outputs of a whole tree. -/
def finalSelect (id : NodeId) : Work Select := do
  let st ← take id
  st.toRelation.finalQuery

end Work

/-- What an emission over a row works with throughout. -/
structure Job where
  provider : Provider
  settings : Settings
  combinator : Combinator
  tree : QueryTree

namespace Job

variable (job : Job)

def setup (parent e : Entry) : Setup := ⟨job.provider.about parent e, job.settings, job.combinator⟩

def entry (id : NodeId) : Work Entry := liftM (job.tree.entry id)

/-- Enter a node by itself into the table. -/
def bindTable (id : NodeId) : Work Unit := do
  let e ← job.entry id
  let table := job.provider.table e.node.relation
  let bound := table.bind (← Emit.freshAlias table.name)
  let r ← Relation.ofNode (job.setup e e) e.node bound
  Work.put id ⟨r, e.recursions, .empty⟩

/-- Give a node a link column for one of its recursions. -/
def createLink (id recursion : NodeId) : Work Unit := do
  let e ← job.entry recursion
  let edge ← Edge.checked e.node (job.provider.edge e)
  let label ← Emit.freshLink
  let st ← Work.state id
  Work.put id (st.link recursion edge.linkColumn label)

def plant (id : NodeId) (recursions : List NodeId) : Work Unit := do
  job.bindTable id
  recursions.forM (job.createLink id)

/-- Join a child to its parent, which takes over all that is known of it. -/
def pullUp (parent child : NodeId) : Work Unit := do
  let e ← job.entry parent
  let f ← job.entry child
  let below ← Work.take child
  let st ← Work.state parent
  let r ← absorb (job.setup e f) e.node st.toRelation f.node below.toRelation
  Work.put parent (st.takeOver r below)

/-- Join the children of a node into it, from the bottom up, to a depth. -/
def collapse : Nat → NodeId → Work Unit
  | 0, id => throw (QueryTree.ShapeFault.endless id).error
  | depth + 1, id => do
    let e ← job.entry id
    e.children.forM (collapse depth)
    job.plant id e.recursions
    e.children.forM (job.pullUp id)

/-- Add the recursive expression of a node. -/
def enterRecursion (id : NodeId) (link : Link) : Work String := do
  let e ← job.entry id
  match e.node.role with
  | .recurse recurse => do
    let st ← Work.state id
    let (r, label) ← recursiveClause (job.setup e e) recurse link e.node st.toRelation
    Work.put id (st.become r)
    return label
  | _ => throw (TableFault.notRecursive e.node.location).error

/-- A recursion is entered through its link, and any other node is not entered. -/
def enter (id : NodeId) (e : Entry) (link : Option Link) : Work (Option String) :=
  if e.node.isRecursive then
    match link with
    | some link => do
      let label ← job.enterRecursion id link
      return some label
    | none => throw (TableFault.unlinked e.node.location).error
  else pure none

/-- Make a node a common table expression. -/
def wrap (id : NodeId) : Work Unit := do
  let e ← job.entry id
  let st ← Work.state id
  let r ← materialize (job.setup e e) e.node st.toRelation
  Work.put id (st.become r)

/-- Emit a recursion, given how to emit one, and join it to the node through its link column. Its outputs
are not put out by the node yet. -/
def joinIn (lower : NodeId → Option Link → Work (Option String)) (id recursion : NodeId) :
    Work (List Column) := do
  let st ← Work.state id
  match st.recursionLinks.get? recursion with
  | none => throw (TableFault.linkMissing recursion).error
  | some label => do
    match ← lower recursion (some ⟨st.table, label⟩) with
    | none => throw (TableFault.noLinkBack recursion).error
    | some back => do
      let below ← Work.take recursion
      let e ← job.entry recursion
      let st ← Work.state id
      let on : Term := .equal (st.table.column label) (below.table.column back)
      Work.put id (st.become (st.toRelation.join (joinKind e.node) below.source on))
      return below.outputs

/-- Emit the recursions of a node one by one. What they put out is collected, and comes after what the node
puts out. -/
def traverse (lower : NodeId → Option Link → Work (Option String)) (id : NodeId) :
    List NodeId → List Column → Work Unit
  | [], collected => do
    let st ← Work.state id
    Work.put id (st.become { st.toRelation with outputs := st.outputs ++ collected })
  | recursion :: rest, collected => do
    let more ← job.joinIn lower id recursion
    traverse lower id rest (collected ++ more)

/-- Make a node a common table expression and emit the recursions that follow it. -/
def settle (lower : NodeId → Option Link → Work (Option String)) (id : NodeId) : Work Unit := do
  job.wrap id
  let st ← Work.state id
  job.traverse lower id st.recursions []

/-- Emit a node with all that hangs on it, to a depth. From a recursion comes the name of its link back. -/
def lower : Nat → NodeId → Option Link → Work (Option String)
  | 0, id, _ => throw (QueryTree.ShapeFault.endless id).error
  | depth + 1, id, link => do
    let e ← job.entry id
    job.collapse job.tree.size id
    let back ← job.enter id e link
    job.settle (lower depth) id
    return back

def run : Work Select := do
  let _ ← job.lower job.tree.size QueryTree.rootId none
  Work.finalSelect QueryTree.rootId

end Job

/-- The statement of a query tree, by way of the table. -/
def emitByTable (settings : Settings) (provider : Provider) (tree : QueryTree) :
    Except Error Statement := do
  settings.check
  let combinator ← Combinator.ofName (settings.combinator.getD provider.combinator)
  tree.checkShape
  let (((select, _), supply) : (Select × States) × Supply) ←
    (⟨provider, settings, combinator, tree⟩ : Job).run (fun _ => none) .init
  return ⟨supply.ctes, select⟩

/-- From a table, the two make the same expressions and give out the same names, and end in results that are
related or in the same error. -/
def Tracks {α β : Type} (w : Work α) (states : States) (m : Emit β)
    (related : α → States → β → Prop) : Prop :=
  ∀ s, Tallies (fun p q => p.2 = q.2 ∧ related p.1.1 p.1.2 q.1) (w states s) (m s)

/-- From a table, the step gives this and leaves this table. -/
def Gives {α : Type} (w : Work α) (states : States) (a : α) (after : States) : Prop :=
  ∀ s, w states s = .ok ((a, after), s)

/-- The second table has such a state under the id, and is the first under all others. -/
def Leaves (states : States) (id : NodeId) (held : NodeState → Prop) (after : States) : Prop :=
  ∃ st, after = Function.update states id (some st) ∧ held st

section

variable {α β γ δ : Type} {states after : States}

theorem Leaves.of_update {id : NodeId} {held : NodeState → Prop} {entry : Option NodeState}
    (h : Leaves (Function.update states id entry) id held after) : Leaves states id held after := by
  obtain ⟨st, hafter, hst⟩ := h
  rw [Function.update_idem] at hafter
  exact ⟨st, hafter, hst⟩

theorem Tracks.bind {w : Work α} {f : α → Work γ} {m : Emit β} {g : β → Emit δ}
    {related : α → States → β → Prop} {outcome : γ → States → δ → Prop}
    (h : Tracks w states m related)
    (hf : ∀ a after b, related a after b → Tracks (f a) after (g b) outcome) :
    Tracks (w >>= f) states (m >>= g) outcome := by
  intro s
  apply Tallies.bind (h s)
  rintro ⟨⟨a, after⟩, s'⟩ ⟨b, s''⟩ ⟨hs, hr⟩
  cases hs
  exact hf a after b hr s'

theorem Tracks.mono {w : Work α} {m : Emit β} {related outcome : α → States → β → Prop}
    (h : Tracks w states m related) (hr : ∀ a after b, related a after b → outcome a after b) :
    Tracks w states m outcome := by
  intro s
  exact (h s).mono fun p q hpq => ⟨hpq.1, hr _ _ _ hpq.2⟩

theorem Tracks.result {w : Work α} {m : Emit β} {related : α → States → β → Prop}
    {outcome : α → States → δ → Prop} (h : Tracks w states m related) {f : β → δ}
    (hr : ∀ a after b, related a after b → outcome a after (f b)) :
    Tracks w states (m >>= fun b => pure (f b)) outcome := by
  rw [← bind_pure w]
  apply h.bind
  intro a after b hab s
  exact ⟨rfl, hr a after b hab⟩

theorem tracks_pure {a : α} {b : β} {related : α → States → β → Prop} (h : related a states b) :
    Tracks (pure a) states (pure b) related :=
  fun _ => ⟨rfl, h⟩

/-- A step that does not look at the table leaves it as it is. -/
theorem tracks_lift (m : Emit α) (states : States) :
    Tracks (liftM m) states m fun a after b => a = b ∧ after = states := by
  intro s
  show Tallies _ ((m s).bind fun p => .ok ((p.1, states), p.2)) (m s)
  cases m s with
  | error e => rfl
  | ok p => exact ⟨rfl, rfl, rfl⟩

theorem tracks_attempt (x : Except Error α) (states : States) :
    Tracks (liftM x) states (liftM x) fun a after b => a = b ∧ after = states ∧ x = .ok a := by
  intro s
  cases x with
  | error e => rfl
  | ok a => exact ⟨rfl, rfl, rfl, rfl⟩

/-- A step that only concerns the table. -/
theorem Gives.then {w : Work α} {a : α} {f : α → Work γ} {m : Emit δ}
    {outcome : γ → States → δ → Prop} (h : Gives w states a after)
    (hf : Tracks (f a) after m outcome) : Tracks (w >>= f) states m outcome := by
  intro s
  show Tallies _ ((w states s).bind fun p => f p.1.1 p.1.2 p.2) (m s)
  rw [h s]
  exact hf s

theorem Gives.last {w : Work α} {a : α} {b : β} {outcome : α → States → β → Prop}
    (h : Gives w states a after) (ho : outcome a after b) : Tracks w states (pure b) outcome := by
  intro s
  rw [h s]
  exact ⟨rfl, ho⟩

theorem gives_state {id : NodeId} {st : NodeState} (h : states id = some st) :
    Gives (Work.state id) states st states := by
  intro s
  show (match states id with
    | some st => (pure st : Work NodeState)
    | none => throw (TableFault.missing id).error) states s = _
  rw [h]
  rfl

theorem gives_put (id : NodeId) (st : NodeState) (states : States) :
    Gives (Work.put id st) states () (Function.update states id (some st)) :=
  fun _ => rfl

theorem gives_take {id : NodeId} {st : NodeState} (h : states id = some st) :
    Gives (Work.take id) states st (Function.update states id none) := by
  intro s
  show ((Work.state id states s).bind fun p => _) = _
  rw [gives_state h s]
  rfl

theorem gives_entry {job : Job} {id : NodeId} {e : Entry} (h : job.tree.entries[id]? = some e)
    (states : States) : Gives (job.entry id) states e states := by
  intro s
  show ((liftM (job.tree.entry id) : Work Entry) states s) = _
  rw [QueryTree.entry_ok.mpr h]
  rfl

end

end GraphPlan.Sql
