import GraphPlan.Proofs.Emission.Collapse
import GraphPlan.Proofs.QueryTree.Coverage

namespace GraphPlan

namespace Sql

/-- A group whose nodes have their names, and the label of its link back if it is headed by a
recursion. -/
structure NamedGroup where
  trunk : BoundBranch
  back : Option String

namespace NamedGroup

/-- The names of the columns that the table of a group has: its outputs and its links. -/
def labels (g : NamedGroup) : List String :=
  g.trunk.selected ++ (g.trunk.hangings.map Prod.snd ++ g.back.toList)

end NamedGroup

end Sql

namespace Branch

open Sql

theorem map_fst_labelLinks (used : Nat) (hanging : List Node) :
    (labelLinks used hanging).map Prod.fst = hanging := by
  induction hanging generalizing used with
  | nil => rfl
  | cons n hanging ih => rw [labelLinks, List.map_cons, ih]

mutual

/-- Names change nothing about which nodes there are and what hangs on them. -/
theorem nodes_bind (catalog : Catalog) (b : Branch) (aliases links : Nat) :
    (b.bind catalog aliases links).nodes.map NamedNode.node = b.nodes ∧
      (b.bind catalog aliases links).hangings.map Prod.fst = b.hangings := by
  cases b with
  | mk node hanging children =>
    obtain ⟨hn, hh⟩ := nodes_bindAll catalog children aliases links
    simp only [bind, BoundBranch.nodes, BoundBranch.hangings, List.map_cons, List.map_append, hn, hh,
      map_fst_labelLinks, nodes, hangings, and_self]

theorem nodes_bindAll (catalog : Catalog) (bs : List Branch) (aliases links : Nat) :
    (BoundBranch.nodesEach (bindAll catalog aliases links bs)).map NamedNode.node = nodesEach bs ∧
      (BoundBranch.hangingsEach (bindAll catalog aliases links bs)).map Prod.fst =
        hangingsEach bs := by
  cases bs with
  | nil => exact ⟨rfl, rfl⟩
  | cons b bs =>
    obtain ⟨hn, hh⟩ := nodes_bind catalog b aliases links
    obtain ⟨hns, hhs⟩ := nodes_bindAll catalog bs (aliases + b.size) (links + b.linkCount)
    simp only [bindAll, BoundBranch.nodesEach, BoundBranch.hangingsEach, List.map_append, hn, hh, hns,
      hhs, nodesEach, hangingsEach, and_self]

end

theorem hangings_length (catalog : Catalog) (aliases links : Nat) {b : Branch}
    {recursions : List (Recurse × Group)}
    (h : b.hangings = recursions.map (·.2.trunk.node)) :
    (b.bind catalog aliases links).hangings.length = recursions.length := by
  have hfst := (b.nodes_bind catalog aliases links).2
  rw [h] at hfst
  simpa using congrArg List.length hfst

section

variable {joined : Node → Node → Prop}

mutual

theorem Joined.bind {b : Branch} (h : b.Joined joined) (catalog : Catalog) (aliases links : Nat) :
    ∀ j ∈ (b.bind catalog aliases links).joints, joined j.1.node j.2.node := by
  cases b with
  | mk node hanging children =>
    obtain ⟨hheads, heach⟩ := JoinedEach.bindAll h catalog aliases links
    intro j hj
    rcases mem_joints_mk.mp hj with ⟨c, hc, rfl⟩ | ⟨c, hc, hj⟩
    · exact hheads c hc
    · exact heach c hc j hj

theorem JoinedEach.bindAll {parent : Node} {bs : List Branch} (h : JoinedEach joined parent bs)
    (catalog : Catalog) (aliases links : Nat) :
    (∀ c ∈ Branch.bindAll catalog aliases links bs, joined parent c.node) ∧
      ∀ c ∈ Branch.bindAll catalog aliases links bs, ∀ j ∈ c.joints, joined j.1.node j.2.node := by
  cases bs with
  | nil => constructor <;> simp [Branch.bindAll]
  | cons b bs =>
    obtain ⟨hparent, hb, hbs⟩ := h
    obtain ⟨hheads, heach⟩ := hbs.bindAll catalog (aliases + b.size) (links + b.linkCount)
    rw [Branch.bindAll]
    refine ⟨fun c hc => ?_, fun c hc => ?_⟩
    · rcases List.mem_cons.mp hc with rfl | hc
      · rw [bind_node]
        exact hparent
      · exact hheads c hc
    · rcases List.mem_cons.mp hc with rfl | hc
      · exact hb.bind catalog aliases links
      · exact heach c hc

end

end

end Branch

namespace Group

open Sql

mutual

/-- A recursion and those that follow it, given how many aliases and links are in use. -/
def named (catalog : Catalog) (aliases links : Nat) : Group → List NamedGroup
  | mk trunk recursions =>
    ⟨trunk.bind catalog aliases links, some (linkLabel (links + trunk.linkCount + 1))⟩ ::
      namedEach catalog (aliases + trunk.size + 2) (links + trunk.linkCount + 1) recursions

def namedEach (catalog : Catalog) (aliases links : Nat) : List (Recurse × Group) → List NamedGroup
  | [] => []
  | (_, g) :: rest =>
    let used := (g.bind catalog aliases links).2
    named catalog aliases links g ++ namedEach catalog used.1 used.2 rest

end

/-- All groups of a tree under their names, given the group of its root. -/
def parts (catalog : Catalog) (g : Group) : List NamedGroup :=
  ⟨g.trunk.bind catalog 0 0, none⟩ ::
    namedEach catalog g.trunk.size g.trunk.linkCount g.recursions

end Group

namespace Sql

section

variable {joined : Node → Node → Prop}

/-- The groups have these nodes between them. A group has a link back where it is headed by a recursion.
Each of its other nodes is joined once, to its parent, and what hangs on it heads another group. -/
structure Divided (joined : Node → Node → Prop) (groups : List NamedGroup) (nodes : List Node) :
    Prop where
  covered : (groups.flatMap fun g => g.trunk.nodes.map NamedNode.node).Perm nodes
  head : ∀ g ∈ groups, g.trunk.node.isRecursive = g.back.isSome
  others : ∀ g ∈ groups, (g.trunk.joints.map Prod.snd).Perm g.trunk.nodes.tail
  joints : ∀ g ∈ groups, ∀ j ∈ g.trunk.joints, joined j.1.node j.2.node
  hangings : ∀ g ∈ groups, ∀ h ∈ g.trunk.hangings, h.1 ∈ nodes ∧ h.1.isRecursive = true

theorem Divided.append {gs hs : List NamedGroup} {ns ms : List Node} (hg : Divided joined gs ns)
    (hh : Divided joined hs ms) : Divided joined (gs ++ hs) (ns ++ ms) where
  covered := by
    rw [List.flatMap_append]
    exact hg.covered.append hh.covered
  head := by
    intro g hm
    exact (List.mem_append.mp hm).elim (hg.head g) (hh.head g)
  others := by
    intro g hm
    exact (List.mem_append.mp hm).elim (hg.others g) (hh.others g)
  joints := by
    intro g hm
    exact (List.mem_append.mp hm).elim (hg.joints g) (hh.joints g)
  hangings := by
    intro g hm h hh'
    rcases List.mem_append.mp hm with hm | hm
    · obtain ⟨hn, hr⟩ := hg.hangings g hm h hh'
      exact ⟨List.mem_append_left _ hn, hr⟩
    · obtain ⟨hn, hr⟩ := hh.hangings g hm h hh'
      exact ⟨List.mem_append_right _ hn, hr⟩

theorem Divided.perm {groups : List NamedGroup} {ns ms : List Node} (h : Divided joined groups ns)
    (hp : ns.Perm ms) : Divided joined groups ms where
  covered := h.covered.trans hp
  head := h.head
  others := h.others
  joints := h.joints
  hangings g hm x hx := ⟨hp.mem_iff.mp (h.hangings g hm x hx).1, (h.hangings g hm x hx).2⟩

theorem heads_of_properEach {gs : List (Recurse × Group)} (h : Group.ProperEach joined gs) :
    ∀ n ∈ gs.map (·.2.trunk.node), n ∈ Group.nodesEach gs ∧ n.isRecursive = true := by
  induction gs with
  | nil => simp
  | cons p gs ih =>
    obtain ⟨recurse, g⟩ := p
    obtain ⟨hr, -, hrest⟩ := h
    intro n hm
    rcases List.mem_cons.mp hm with rfl | hm
    · refine ⟨List.mem_append_left _ ?_, hr⟩
      cases g with
      | mk trunk recursions =>
        rw [Group.nodes, trunk.nodes_eq]
        exact List.mem_cons_self
    · obtain ⟨hn, hr⟩ := ih hrest n hm
      exact ⟨List.mem_append_right _ hn, hr⟩

/-- A group before those that hang on it. -/
theorem Divided.cons {trunk : Branch} {recursions : List (Recurse × Group)}
    (hg : (Group.mk trunk recursions).Proper joined) {rest : List NamedGroup}
    (hrest : Divided joined rest (Group.nodesEach recursions)) {back : Option String}
    (hb : trunk.node.isRecursive = back.isSome) (catalog : Catalog) (aliases links : Nat) :
    Divided joined (⟨trunk.bind catalog aliases links, back⟩ :: rest)
      (Group.mk trunk recursions).nodes := by
  obtain ⟨hhang, hjoined, hrec⟩ := hg
  obtain ⟨hnodes, hfst⟩ := trunk.nodes_bind catalog aliases links
  have hheads := heads_of_properEach hrec
  constructor
  · rw [List.flatMap_cons, hnodes, Group.nodes]
    exact hrest.covered.append_left _
  · intro g hm
    rcases List.mem_cons.mp hm with rfl | hm
    · rw [Branch.bind_node]
      exact hb
    · exact hrest.head g hm
  · intro g hm
    rcases List.mem_cons.mp hm with rfl | hm
    · exact BoundBranch.joints_perm _
    · exact hrest.others g hm
  · intro g hm
    rcases List.mem_cons.mp hm with rfl | hm
    · exact hjoined.bind catalog aliases links
    · exact hrest.joints g hm
  · intro g hm h hx
    rw [Group.nodes]
    rcases List.mem_cons.mp hm with rfl | hm
    · have hmem : h.1 ∈ recursions.map (·.2.trunk.node) := by
        rw [← hhang, ← hfst]
        exact List.mem_map_of_mem hx
      exact ⟨List.mem_append_right _ (hheads h.1 hmem).1, (hheads h.1 hmem).2⟩
    · obtain ⟨hn, hr⟩ := hrest.hangings g hm h hx
      exact ⟨List.mem_append_right _ hn, hr⟩

mutual

theorem divided_named (catalog : Catalog) (g : Group) (hg : g.Proper joined)
    (hr : g.trunk.node.isRecursive = true) (aliases links : Nat) :
    Divided joined (g.named catalog aliases links) g.nodes := by
  cases g with
  | mk trunk recursions =>
    have hrec : Group.ProperEach joined recursions := hg.2.2
    have hback : trunk.node.isRecursive =
        (some (linkLabel (links + trunk.linkCount + 1))).isSome := hr
    exact Divided.cons hg (divided_namedEach catalog recursions hrec _ _) hback catalog aliases links

theorem divided_namedEach (catalog : Catalog) (gs : List (Recurse × Group))
    (hg : Group.ProperEach joined gs) (aliases links : Nat) :
    Divided joined (Group.namedEach catalog aliases links gs) (Group.nodesEach gs) := by
  cases gs with
  | nil => constructor <;> simp [Group.namedEach, Group.nodesEach]
  | cons p gs =>
    obtain ⟨recurse, g⟩ := p
    obtain ⟨hr, hproper, hrest⟩ := hg
    rw [Group.namedEach, Group.nodesEach]
    exact (divided_named catalog g hproper hr aliases links).append
      (divided_namedEach catalog gs hrest _ _)

end

theorem divided_parts (catalog : Catalog) {g : Group} (hg : g.Proper joined)
    (hr : g.trunk.node.isRecursive = false) : Divided joined (g.parts catalog) g.nodes := by
  cases g with
  | mk trunk recursions =>
    have hrec : Group.ProperEach joined recursions := hg.2.2
    have hback : trunk.node.isRecursive = (none : Option String).isSome := hr
    exact Divided.cons hg (divided_namedEach catalog recursions hrec _ _) hback catalog 0 0

end

/-- The groups of a built tree have all of its nodes between them. -/
theorem divided_of_built (catalog : Catalog) {tree : QueryTree} (hb : tree.Built) :
    ∃ ordered, tree.ordered = .ok ordered ∧ ordered.group.Proper tree.HasChild ∧
      Divided tree.HasChild (ordered.group.parts catalog) (tree.entries.map Entry.node) := by
  have hw := hb.wellFormed
  obtain ⟨ordered, ho⟩ := hw.exists_ordered
  have hproper := (QueryTree.below_proper ho).group
  have hroot : ordered.group.trunk.node.isRecursive = false := by
    obtain ⟨e, he, hrole, -⟩ := hw.root
    obtain ⟨_, root, _, _, _, hroot, _, _, rfl⟩ := QueryTree.below_ok ho
    cases he.symm.trans hroot
    rw [OrderedTree.group_trunk_node]
    simp [OrderedTree.node, Node.isRecursive, hrole]
  exact ⟨ordered, ho, hproper, (divided_parts catalog hproper hroot).perm
    (ordered.nodes_group.trans (hw.nodes_perm ho))⟩

end Sql

end GraphPlan
