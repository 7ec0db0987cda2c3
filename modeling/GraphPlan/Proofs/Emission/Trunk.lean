import GraphPlan.Proofs.Except
import GraphPlan.Proofs.Names

namespace GraphPlan

namespace Branch

mutual

/-- How many nodes there are from a node down. -/
def size : Branch → Nat
  | mk _ _ children => sizes children + 1

def sizes : List Branch → Nat
  | [] => 0
  | b :: bs => b.size + sizes bs

end

mutual

/-- How many recursions hang on a node and on those below it. -/
def linkCount : Branch → Nat
  | mk _ hanging children => linkCounts children + hanging.length

def linkCounts : List Branch → Nat
  | [] => 0
  | b :: bs => b.linkCount + linkCounts bs

end

end Branch

namespace Sql

def linkLabel (n : Nat) : String := "__link_" ++ Nat.repr n

/-- Recursions with the labels of their links, of which the given number are already in use. -/
def labelLinks (used : Nat) : List Node → List (Node × String)
  | [] => []
  | recursion :: rest => (recursion, linkLabel (used + 1)) :: labelLinks (used + 1) rest

/-- A node of a group with its table, the recursions that hang on it with the labels of their links, and
its ordinary children. -/
inductive BoundBranch where
  | mk (node : Node) (table : BoundTable) (hanging : List (Node × String))
      (children : List BoundBranch)

namespace BoundBranch

def node : BoundBranch → Node
  | mk node _ _ _ => node

def table : BoundBranch → BoundTable
  | mk _ table _ _ => table

mutual

/-- The aliases of the nodes. -/
def aliases : BoundBranch → List String
  | mk _ table _ children => table.qualifier :: aliasesEach children

def aliasesEach : List BoundBranch → List String
  | [] => []
  | b :: bs => aliases b ++ aliasesEach bs

end

end BoundBranch

end Sql

namespace Branch

open Sql

mutual

/-- Name the nodes of a group, given how many aliases and links are already in use. -/
def bind (catalog : Catalog) (aliases links : Nat) : Branch → BoundBranch
  | mk node hanging children =>
    let table := catalog.table node.relation
    .mk node (table.bind (numbered table.name (aliases + sizes children + 1)))
      (labelLinks (links + linkCounts children) hanging) (bindAll catalog aliases links children)

def bindAll (catalog : Catalog) (aliases links : Nat) : List Branch → List BoundBranch
  | [] => []
  | b :: bs =>
    b.bind catalog aliases links ::
      bindAll catalog (aliases + b.size) (links + b.linkCount) bs

end

theorem bind_table (catalog : Catalog) (aliases links : Nat) (b : Branch) :
    (b.bind catalog aliases links).table = (catalog.table b.node.relation).bind
      (numbered (catalog.table b.node.relation).name (aliases + b.size)) := by
  cases b
  rfl

@[simp] theorem bind_node (catalog : Catalog) (aliases links : Nat) (b : Branch) :
    (b.bind catalog aliases links).node = b.node := by
  cases b
  rfl

mutual

/-- The aliases of a group are numbered on from those in use. -/
theorem mem_aliases_bind (catalog : Catalog) (b : Branch) (aliases links : Nat) {q : String}
    (h : q ∈ (b.bind catalog aliases links).aliases) :
    ∃ relation n, q = numbered (catalog.table relation).name n ∧ aliases < n ∧
      n ≤ aliases + b.size := by
  cases b with
  | mk node hanging children =>
    simp only [bind, BoundBranch.aliases, size] at h ⊢
    rcases List.mem_cons.mp h with rfl | h
    · exact ⟨node.relation, _, rfl, by omega, by omega⟩
    · obtain ⟨relation, n, hq, hlt, hle⟩ := mem_aliases_bindAll catalog children aliases links h
      exact ⟨relation, n, hq, hlt, by omega⟩

theorem mem_aliases_bindAll (catalog : Catalog) (bs : List Branch) (aliases links : Nat) {q : String}
    (h : q ∈ BoundBranch.aliasesEach (bindAll catalog aliases links bs)) :
    ∃ relation n, q = numbered (catalog.table relation).name n ∧ aliases < n ∧
      n ≤ aliases + sizes bs := by
  cases bs with
  | nil => cases h
  | cons b bs =>
    simp only [bindAll, BoundBranch.aliasesEach, sizes] at h ⊢
    rcases List.mem_append.mp h with h | h
    · obtain ⟨relation, n, hq, hlt, hle⟩ := mem_aliases_bind catalog b aliases links h
      exact ⟨relation, n, hq, hlt, by omega⟩
    · obtain ⟨relation, n, hq, hlt, hle⟩ := mem_aliases_bindAll catalog bs _ _ h
      exact ⟨relation, n, hq, by omega, by omega⟩

end

mutual

/-- No two nodes of a group have one alias. -/
theorem nodup_aliases_bind (catalog : Catalog) (b : Branch) (aliases links : Nat) :
    (b.bind catalog aliases links).aliases.Nodup := by
  cases b with
  | mk node hanging children =>
    simp only [bind, BoundBranch.aliases]
    refine List.nodup_cons.mpr ⟨?_, nodup_aliases_bindAll catalog children aliases links⟩
    intro h
    obtain ⟨relation, n, hq, hlt, hle⟩ := mem_aliases_bindAll catalog children aliases links h
    have hn := (numbered_inj hq).2
    omega

theorem nodup_aliases_bindAll (catalog : Catalog) (bs : List Branch) (aliases links : Nat) :
    (BoundBranch.aliasesEach (bindAll catalog aliases links bs)).Nodup := by
  cases bs with
  | nil => exact List.nodup_nil
  | cons b bs =>
    simp only [bindAll, BoundBranch.aliasesEach]
    refine List.nodup_append.mpr ⟨nodup_aliases_bind catalog b aliases links,
      nodup_aliases_bindAll catalog bs _ _, ?_⟩
    intro p hp q hq he
    obtain ⟨_, m, rfl, hm, hm'⟩ := mem_aliases_bind catalog b aliases links hp
    obtain ⟨_, n, rfl, hn, hn'⟩ := mem_aliases_bindAll catalog bs _ _ hq
    have hmn := (numbered_inj he).2
    omega

end

end Branch

namespace Group

open Sql

mutual

/-- The named nodes of a recursion and of those that follow it, and the aliases and links in use after
them. The recursion itself takes two aliases and a link. -/
def bind (catalog : Catalog) (aliases links : Nat) : Group → List BoundBranch × Nat × Nat
  | mk trunk recursions =>
    let inner :=
      bindEach catalog (aliases + trunk.size + 2) (links + trunk.linkCount + 1) recursions
    (trunk.bind catalog aliases links :: inner.1, inner.2)

def bindEach (catalog : Catalog) (aliases links : Nat) :
    List (Recurse × Group) → List BoundBranch × Nat × Nat
  | [] => ([], aliases, links)
  | (_, g) :: rest =>
    let first := g.bind catalog aliases links
    let others := bindEach catalog first.2.1 first.2.2 rest
    (first.1 ++ others.1, others.2)

end

/-- The named nodes of all groups of a tree, given the group of its root. -/
def trunks (catalog : Catalog) (g : Group) : List BoundBranch :=
  g.trunk.bind catalog 0 0 ::
    (bindEach catalog g.trunk.size g.trunk.linkCount g.recursions).1

end Group

namespace Sql

def Relation.linkTo (setup : Setup) (r : Relation) : List (Node × String) → Except Error Relation
  | [] => .ok r
  | (recursion, label) :: rest => do
    let edge ← Edge.checked recursion (setup.catalog.edge recursion)
    linkTo setup { r with links := r.links ++ [⟨r.table.column edge.linkColumn, label⟩] } rest

namespace BoundBranch

mutual

/-- The relation that a group collapses to. -/
def relation (setup : Setup) : BoundBranch → Except Error Relation
  | mk node table hanging children => do
    let below ← relations setup children
    let own ← Relation.ofNode setup node table
    let linked ← own.linkTo setup hanging
    absorbAll setup node linked below

def relations (setup : Setup) : List BoundBranch → Except Error (List (Node × Relation))
  | [] => .ok []
  | b :: bs => do
    let r ← b.relation setup
    return (b.node, r) :: (← relations setup bs)

end

end BoundBranch

namespace Emit

theorem bind_run {α β : Type} (x : Emit α) (f : α → Emit β) (s : Supply) :
    (x >>= f) s = (x s).bind fun p => f p.1 p.2 := rfl

theorem pure_run {α : Type} (a : α) (s : Supply) : (pure a : Emit α) s = .ok (a, s) := rfl

theorem lift_run {α : Type} (x : Except Error α) (s : Supply) :
    (liftM x : Emit α) s = x.map fun a => (a, s) := by
  cases x <;> rfl

end Emit

/-- A supply from which more aliases and links have been taken. -/
def Supply.advance (s : Supply) (aliases links : Nat) : Supply :=
  { s with aliases := s.aliases + aliases, links := s.links + links }

@[simp] theorem Supply.advance_aliases (s : Supply) (a l : Nat) :
    (s.advance a l).aliases = s.aliases + a := rfl

@[simp] theorem Supply.advance_links (s : Supply) (a l : Nat) :
    (s.advance a l).links = s.links + l := rfl

theorem Supply.advance_advance (s : Supply) (a b l m : Nat) :
    (s.advance a l).advance b m = s.advance (a + b) (l + m) := by
  simp only [advance, Nat.add_assoc]

theorem linkAll_run (setup : Setup) (r : Relation) (hanging : List Node) (s : Supply) :
    linkAll setup r hanging s =
      (r.linkTo setup (labelLinks s.links hanging)).map fun linked =>
        (linked, s.advance 0 hanging.length) := by
  induction hanging generalizing r s with
  | nil => rfl
  | cons recursion rest ih =>
    simp only [linkAll, labelLinks, Relation.linkTo, Emit.bind_run, Emit.lift_run]
    cases Edge.checked recursion (setup.catalog.edge recursion) with
    | error e => rfl
    | ok edge =>
      refine (ih _ (s.advance 0 1)).trans ?_
      rw [Supply.advance_advance, List.length_cons, Nat.add_comm rest.length]
      rfl

theorem plant_run (setup : Setup) (node : Node) (hanging : List Node) (s : Supply) :
    plant setup node hanging s =
      ((Relation.ofNode setup node ((setup.catalog.table node.relation).bind
          (numbered (setup.catalog.table node.relation).name (s.aliases + 1)))).bind fun own =>
        own.linkTo setup (labelLinks s.links hanging)).map fun linked =>
          (linked, s.advance 1 hanging.length) := by
  have ha := Supply.advance_advance s 1 0 0 hanging.length
  simp only [plant, Emit.bind_run, Emit.lift_run, Emit.freshAlias, Except.bind]
  rw [numbered]
  cases Relation.ofNode setup node ((setup.catalog.table node.relation).bind _) with
  | error e => rfl
  | ok own =>
    refine (linkAll_run setup own hanging (s.advance 1 0)).trans ?_
    rw [ha, Nat.zero_add]
    rfl

mutual

/-- A group collapses to the relation of its named nodes. -/
theorem collapse_run (setup : Setup) (b : Branch) (s : Supply) :
    collapse setup b s =
      ((b.bind setup.catalog s.aliases s.links).relation setup).map fun r =>
        (r, s.advance b.size b.linkCount) := by
  cases b with
  | mk node hanging children =>
    have hc := collapseAll_run setup children s
    simp only [collapse, Emit.bind_run, hc, Branch.bind, BoundBranch.relation]
    cases BoundBranch.relations setup (Branch.bindAll setup.catalog s.aliases s.links children) with
    | error e => rfl
    | ok below =>
      have hp := plant_run setup node hanging
        (s.advance (Branch.sizes children) (Branch.linkCounts children))
      have ha := Supply.advance_advance s (Branch.sizes children) 1 (Branch.linkCounts children)
        hanging.length
      simp only [Except.map, Except.bind, hp, Emit.lift_run, bind, ha, Supply.advance_aliases,
        Supply.advance_links]
      cases Relation.ofNode setup node _ with
      | error e => rfl
      | ok own =>
        dsimp only
        cases own.linkTo setup _ with
        | error e => rfl
        | ok linked =>
          dsimp only
          cases absorbAll setup node linked below <;> rfl

theorem collapseAll_run (setup : Setup) (bs : List Branch) (s : Supply) :
    collapseAll setup bs s =
      (BoundBranch.relations setup (Branch.bindAll setup.catalog s.aliases s.links bs)).map fun rs =>
        (rs, s.advance (Branch.sizes bs) (Branch.linkCounts bs)) := by
  cases bs with
  | nil => rfl
  | cons b bs =>
    have hb := collapse_run setup b s
    have hbs := collapseAll_run setup bs (s.advance b.size b.linkCount)
    simp only [collapseAll, Emit.bind_run, hb, Branch.bindAll, BoundBranch.relations]
    cases (b.bind setup.catalog s.aliases s.links).relation setup with
    | error e => rfl
    | ok r =>
      simp only [Except.map, Except.bind, hbs, Emit.pure_run, bind, Supply.advance_advance,
        Supply.advance_aliases, Supply.advance_links, Branch.bind_node]
      cases BoundBranch.relations setup _ with
      | error e => rfl
      | ok rs => rfl

end

theorem linkTo_ok {setup : Setup} {r linked : Relation} {hanging : List (Node × String)}
    (h : r.linkTo setup hanging = .ok linked) :
    ∃ links, linked = { r with links := r.links ++ links } ∧
      ∀ c ∈ links, ∃ name, c.term = r.table.column name := by
  induction hanging generalizing r with
  | nil =>
    cases h
    exact ⟨[], by simp⟩
  | cons recursion rest ih =>
    obtain ⟨edge, _, hrest⟩ := bind_ok h
    obtain ⟨links, rfl, hl⟩ := ih hrest
    refine ⟨⟨r.table.column edge.linkColumn, recursion.2⟩ :: links, by simp, ?_⟩
    intro c hc
    rcases List.mem_cons.mp hc with rfl | hc
    · exact ⟨_, rfl⟩
    · exact hl c hc

theorem absorb_ok {setup : Setup} {parent child : Node} {r below joined : Relation}
    (h : absorb setup parent r child below = .ok joined) :
    ∃ source, joinClauses (joinKind child) parent child below
        (setup.catalog.joins parent child r.table below.table) (some below.source) r.source =
        .ok source ∧
      joined = ⟨r.table, source, r.outputs ++ below.outputs,
        r.conditions ++ guarded setup child below, r.links ++ below.links⟩ := by
  unfold absorb at h
  split at h
  · cases h
  · obtain ⟨source, hs, hj⟩ := bind_ok h
    cases hj
    exact ⟨source, hs, rfl⟩

theorem absorbAll_table {setup : Setup} {parent : Node} {r joined : Relation}
    {below : List (Node × Relation)} (h : absorbAll setup parent r below = .ok joined) :
    joined.table = r.table := by
  induction below generalizing r with
  | nil =>
    cases h
    rfl
  | cons p below ih =>
    obtain ⟨next, ha, h⟩ := bind_ok h
    obtain ⟨source, _, rfl⟩ := absorb_ok ha
    have hj := ih h
    exact hj

/-- A group keeps the table of its topmost node. -/
theorem BoundBranch.relation_table {setup : Setup} {b : BoundBranch} {r : Relation}
    (h : b.relation setup = .ok r) : r.table = b.table := by
  cases b with
  | mk node table hanging children =>
    obtain ⟨below, _, h⟩ := bind_ok h
    obtain ⟨own, ho, h⟩ := bind_ok h
    obtain ⟨linked, hl, h⟩ := bind_ok h
    obtain ⟨_, _, ho⟩ := bind_ok ho
    cases ho
    obtain ⟨_, rfl, _⟩ := linkTo_ok hl
    exact absorbAll_table h

end Sql

end GraphPlan
