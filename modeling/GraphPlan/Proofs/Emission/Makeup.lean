import GraphPlan.Proofs.Emission.Collapse

namespace GraphPlan.Sql

/-- A join of a source: its kind, the tables that its two sides start with, and its condition. -/
structure Joint where
  kind : JoinKind
  left : Option BoundTable
  right : Option BoundTable
  on : Term

namespace Source

/-- The table that a source starts with. -/
def first : Source → Option BoundTable
  | table t => some t
  | query .. => none
  | join _ left _ _ => left.first

/-- The tables of a source, those inside queries not counted. -/
def tables : Source → List BoundTable
  | table t => [t]
  | query .. => []
  | join _ left right _ => left.tables ++ right.tables

/-- The joins of a source, those inside queries not counted. A join stands between those of its sides. -/
def joints : Source → List Joint
  | table _ => []
  | query .. => []
  | join kind left right on => left.joints ++ ⟨kind, left.first, right.first, on⟩ :: right.joints

theorem countJoins_eq (wanted : JoinKind) (s : Source) :
    s.countJoins wanted = s.joints.countP (·.kind = wanted) := by
  induction s with
  | table _ => rfl
  | query => rfl
  | join kind left right on ihl ihr =>
    simp only [countJoins, joints, ihl, ihr, List.countP_append, List.countP_cons, decide_eq_true_eq]
    omega

end Source

/-- The joins along the way from a parent to a child. -/
def clauseJoints (catalog : Catalog) (j : NamedNode × NamedNode) : List Joint :=
  (clauses catalog j.1 j.2).map fun c => ⟨joinKind j.2.node, some j.1.table, some c.table, c.on⟩

/-- Clauses are joined one by one to what the left side starts with. The pending source, which starts with
the table of the child, is taken in where the clauses come to that table. -/
theorem joinClauses_joints {kind : JoinKind} {parent child : Node} {below : Relation}
    {clauses : List JoinClause} {pending : Option Source} {left source : Source}
    (h : joinClauses kind parent child below clauses pending left = .ok source)
    (hp : ∀ p ∈ pending, p.first = some below.table) :
    source.first = left.first ∧ source.joints.Perm (left.joints ++
      clauses.map (fun c => ⟨kind, left.first, some c.table, c.on⟩) ++ pending.toList.flatMap Source.joints) := by
  classical
  induction clauses generalizing pending left with
  | nil =>
    cases pending with
    | none =>
      cases h
      simp
    | some _ => cases h
  | cons clause clauses ih =>
    unfold joinClauses at h
    split at h
    · next htable =>
      cases pending with
      | none => cases h
      | some below' =>
        have hfirst := hp below' rfl
        obtain ⟨hsame, hperm⟩ := ih h (by simp)
        refine ⟨hsame, hperm.trans (List.perm_iff_count.mpr fun x => ?_)⟩
        simp only [Source.joints, Source.first, hfirst, htable, Option.toList, List.flatMap_cons,
          List.flatMap_nil, List.map_cons, List.count_append, List.count_cons, List.count_nil]
        omega
    · obtain ⟨hsame, hperm⟩ := ih h hp
      refine ⟨hsame, hperm.trans (List.perm_iff_count.mpr fun x => ?_)⟩
      simp only [Source.joints, Source.first, List.map_cons, List.count_append, List.count_cons,
        List.count_nil]
      omega

theorem absorb_joints {setup : Setup} {parent child : Node} {r below joined : Relation}
    (h : absorb setup parent r child below = .ok joined) (hr : r.source.first = some r.table)
    (hb : below.source.first = some below.table) :
    joined.table = r.table ∧ joined.source.first = some r.table ∧
      joined.source.joints.Perm (r.source.joints ++
        (clauseJoints setup.catalog (⟨parent, r.table⟩, ⟨child, below.table⟩) ++ below.source.joints)) := by
  obtain ⟨source, hs, rfl⟩ := absorb_ok h
  obtain ⟨hfirst, hperm⟩ := joinClauses_joints hs (by simpa using hb)
  refine ⟨rfl, hfirst.trans hr, ?_⟩
  rw [hr, List.append_assoc] at hperm
  simpa [clauseJoints, clauses] using hperm

theorem absorbAll_joints {setup : Setup} {parent : Node} {r joined : Relation}
    {below : List (Node × Relation)} (h : absorbAll setup parent r below = .ok joined)
    (hr : r.source.first = some r.table) (hb : ∀ p ∈ below, p.2.source.first = some p.2.table) :
    joined.source.first = some r.table ∧
      joined.source.joints.Perm (r.source.joints ++ below.flatMap fun p =>
        clauseJoints setup.catalog (⟨parent, r.table⟩, ⟨p.1, p.2.table⟩) ++ p.2.source.joints) := by
  induction below generalizing r with
  | nil =>
    cases h
    exact ⟨hr, by simp⟩
  | cons p below ih =>
    obtain ⟨next, ha, h⟩ := bind_ok h
    obtain ⟨htable, hfirst, hnext⟩ := absorb_joints ha hr (hb p List.mem_cons_self)
    rw [← htable] at hfirst
    obtain ⟨hjoined, hperm⟩ := ih h hfirst fun q hq => hb q (List.mem_cons_of_mem p hq)
    rw [htable] at hjoined hperm
    refine ⟨hjoined, hperm.trans ?_⟩
    rw [List.flatMap_cons, ← List.append_assoc]
    exact hnext.append_right _

mutual

/-- What hangs on the nodes of a group, with the nodes that it hangs on. -/
def BoundBranch.hung : BoundBranch → List (NamedNode × Node × String)
  | mk node table hanging children => hanging.map (fun h => (⟨node, table⟩, h)) ++ hungEach children

def BoundBranch.hungEach : List BoundBranch → List (NamedNode × Node × String)
  | [] => []
  | b :: bs => b.hung ++ hungEach bs

end

theorem BoundBranch.hungEach_eq (bs : List BoundBranch) : hungEach bs = bs.flatMap hung := by
  induction bs with
  | nil => rfl
  | cons b bs ih => rw [hungEach, ih, List.flatMap_cons]

/-- A column through which a recursion is linked to the node that it hangs on. -/
def IsLink (setup : Setup) (h : NamedNode × Node × String) (c : Column) : Prop :=
  ∃ edge, Edge.checked h.2.1 (setup.catalog.edge h.2.1) = .ok edge ∧
    c = ⟨h.1.table.column edge.linkColumn, h.2.2⟩

/-- The columns that a node puts out. -/
def NamedNode.columns (catalog : Catalog) (x : NamedNode) : List Column :=
  x.node.selections.map fun s => ⟨catalog.column s x.table, s.label⟩

structure Relation.MadeOf (setup : Setup) (b : BoundBranch) (r : Relation) : Prop where
  table : r.table = b.table
  first : r.source.first = some b.table
  joints : r.source.joints.Perm (b.joints.flatMap (clauseJoints setup.catalog))
  outputs : r.outputs = b.nodes.flatMap (NamedNode.columns setup.catalog)
  links : List.Forall₂ (IsLink setup) b.hung r.links

theorem linkTo_links {setup : Setup} {r linked : Relation} {hanging : List (Node × String)}
    (h : r.linkTo setup hanging = .ok linked) (node : Node) :
    ∃ links, linked = { r with links := r.links ++ links } ∧
      List.Forall₂ (IsLink setup) (hanging.map fun h => (⟨node, r.table⟩, h)) links := by
  induction hanging generalizing r with
  | nil =>
    cases h
    exact ⟨[], by simp, .nil⟩
  | cons recursion rest ih =>
    obtain ⟨edge, hedge, hrest⟩ := bind_ok h
    obtain ⟨links, rfl, hl⟩ := ih hrest
    exact ⟨⟨r.table.column edge.linkColumn, recursion.2⟩ :: links, by simp, .cons ⟨edge, hedge, rfl⟩ hl⟩

section

variable {setup : Setup} {bs : List BoundBranch} {rs : List (Node × Relation)}

/-- The joins of the children, with the ways to them. -/
theorem joints_perm_of_madeOf
    (h : List.Forall₂ (fun b p => p.1 = b.node ∧ p.2.MadeOf setup b) bs rs) (parent : NamedNode) :
    (rs.flatMap fun p =>
      clauseJoints setup.catalog (parent, ⟨p.1, p.2.table⟩) ++ p.2.source.joints).Perm
      ((bs.map (fun b => (parent, b.head)) ++ bs.flatMap BoundBranch.joints).flatMap
        (clauseJoints setup.catalog)) := by
  classical
  induction h with
  | nil => exact .refl _
  | @cons b p bs rs hb _ ih =>
    obtain ⟨hnode, hmade⟩ := hb
    have hhead : (⟨p.1, p.2.table⟩ : NamedNode) = b.head := by
      rw [hnode, hmade.table]
      rfl
    refine List.perm_iff_count.mpr fun x => ?_
    have hown := hmade.joints.count_eq x
    have hrest := ih.count_eq x
    simp only [hhead, List.map_cons, List.flatMap_cons, List.flatMap_append, List.cons_append,
      List.count_append] at hown hrest ⊢
    omega

theorem columns_of_madeOf
    (h : List.Forall₂ (fun b p => p.1 = b.node ∧ p.2.MadeOf setup b) bs rs) :
    rs.flatMap (·.2.outputs) = (bs.flatMap BoundBranch.nodes).flatMap (NamedNode.columns setup.catalog) ∧
      List.Forall₂ (IsLink setup) (bs.flatMap BoundBranch.hung) (rs.flatMap (·.2.links)) := by
  induction h with
  | nil => exact ⟨rfl, .nil⟩
  | @cons b p bs rs hb _ ih =>
    refine ⟨?_, ?_⟩
    · rw [List.flatMap_cons, List.flatMap_cons, List.flatMap_append, hb.2.outputs, ih.1]
    · rw [List.flatMap_cons, List.flatMap_cons]
      exact List.rel_append hb.2.links ih.2

end

mutual

theorem relation_madeOf {setup : Setup} {b : BoundBranch} {r : Relation}
    (h : b.relation setup = .ok r) : r.MadeOf setup b := by
  cases b with
  | mk node table hanging children =>
    have htable := BoundBranch.relation_table h
    obtain ⟨below, hbelow, h⟩ := bind_ok h
    obtain ⟨own, ho, h⟩ := bind_ok h
    obtain ⟨linked, hl, h⟩ := bind_ok h
    obtain ⟨conditions, -, ho⟩ := bind_ok ho
    cases ho
    obtain ⟨links, rfl, hlinks⟩ := linkTo_links hl node
    have hmade := relations_madeOf hbelow
    obtain ⟨houtputs, hhung⟩ := columns_of_madeOf hmade
    have hjoints := joints_perm_of_madeOf hmade ⟨node, table⟩
    have hfirst : ∀ p ∈ below, p.2.source.first = some p.2.table := by
      intro p hp
      obtain ⟨b, -, -, hb⟩ := forall₂_mem_left hmade.flip hp
      rw [hb.first, hb.table]
    obtain ⟨hstart, hperm⟩ := absorbAll_joints h rfl hfirst
    obtain ⟨-, -, hout, hlink⟩ := (absorbAll_ends setup node _ below).ok r h
    refine ⟨htable, hstart, ?_, ?_, ?_⟩
    · rw [BoundBranch.joints, BoundBranch.jointsEach_eq]
      exact hperm.trans (by simpa [Source.joints] using hjoints)
    · rw [hout, houtputs, BoundBranch.nodes, BoundBranch.nodesEach_eq, List.flatMap_cons]
      rfl
    · rw [hlink, BoundBranch.hung, BoundBranch.hungEach_eq]
      exact List.rel_append hlinks hhung

theorem relations_madeOf {setup : Setup} {bs : List BoundBranch} {rs : List (Node × Relation)}
    (h : BoundBranch.relations setup bs = .ok rs) :
    List.Forall₂ (fun b p => p.1 = b.node ∧ p.2.MadeOf setup b) bs rs := by
  cases bs with
  | nil =>
    cases h
    exact .nil
  | cons b bs =>
    obtain ⟨r, hr, h⟩ := bind_ok h
    obtain ⟨rs', hrs, h⟩ := bind_ok h
    cases h
    exact .cons ⟨rfl, relation_madeOf hr⟩ (relations_madeOf hrs)

end

end GraphPlan.Sql
