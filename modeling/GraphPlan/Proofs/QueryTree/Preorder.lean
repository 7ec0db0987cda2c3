import GraphPlan.Proofs.QueryTree.Numbered
import Mathlib.Data.List.Infix
import Mathlib.Logic.Relation

/-!
Subtrees, id by id.

The tree that is placed below an id has its ids in pre-order: the id itself, then the trees of its children, then
those of its recursions. A loop with a stack comes by them in this order and ends (`Loop`). No id comes twice, a
tree has the trees of all its nodes in one piece, and trees that share a node are one inside the other, since
whoever has a node below itself has the node's parent, or is the node.
-/

namespace GraphPlan

namespace QueryTree

/-- Where the loop stands: what it has visited, and its stack, with the id at the end on top. -/
structure Loop where
  visited : List NodeId
  stack : List NodeId

/-- One turn of the loop visits the id on top of the stack. What hangs on it comes onto the stack from the last to
the first, recursions before children, so that its first child is next. Without a stack there is no turn. -/
def Loop.turn (t : QueryTree) (l : Loop) : Option (Except Error Loop) :=
  l.stack.getLast?.map fun id => (t.entry id).map fun e =>
    ⟨l.visited ++ [id], l.stack.dropLast ++ e.recursions.reverse ++ e.children.reverse⟩

/-- The loop gets from one place to another. -/
def LoopsTo (t : QueryTree) : Loop → Loop → Prop :=
  Relation.ReflTransGen fun l next => l.turn t = some (.ok next)

theorem loopsTo_visit {t : QueryTree} {id : NodeId} {e : Entry} (he : t.entries[id]? = some e)
    (visited stack : List NodeId) :
    t.LoopsTo ⟨visited, stack ++ [id]⟩
      ⟨visited ++ [id], stack ++ e.recursions.reverse ++ e.children.reverse⟩ := by
  apply Relation.ReflTransGen.single
  simp [Loop.turn, entry_ok.mpr he, Except.map]

end QueryTree

namespace Numbered

variable {t : QueryTree}

mutual

/-- A tree on top of the stack is visited in its order and leaves the rest of the stack. -/
theorem Placed.loopsTo {n : Numbered} (h : n.Placed t) (visited stack : List NodeId) :
    t.LoopsTo ⟨visited, stack ++ [n.id]⟩ ⟨visited ++ n.ids, stack⟩ := by
  cases n with
  | mk id node children recursions =>
    obtain ⟨⟨e, he, -, hchildren, hrecursions⟩, hplaced, hthrough⟩ := h
    have hvisit := QueryTree.loopsTo_visit he visited stack
    have hbelow := PlacedEach.loopsTo hplaced (visited ++ [id]) (stack ++ e.recursions.reverse)
    have hlast := PlacedThrough.loopsTo hthrough (visited ++ [id] ++ idsEach children) stack
    rw [← hchildren] at hbelow
    rw [← hrecursions] at hlast
    have hall := (hvisit.trans hbelow).trans hlast
    rw [List.append_assoc, List.append_assoc, List.singleton_append] at hall
    exact hall

theorem PlacedEach.loopsTo {ns : List Numbered} (h : PlacedEach t ns) (visited stack : List NodeId) :
    t.LoopsTo ⟨visited, stack ++ (ns.map Numbered.id).reverse⟩ ⟨visited ++ idsEach ns, stack⟩ := by
  cases ns with
  | nil =>
    rw [List.map_nil, List.reverse_nil, List.append_nil, idsEach, List.append_nil]
    exact .refl
  | cons n ns =>
    have hfirst := Placed.loopsTo h.1 visited (stack ++ (ns.map Numbered.id).reverse)
    have hrest := PlacedEach.loopsTo h.2 (visited ++ n.ids) stack
    rw [List.map_cons, List.reverse_cons, ← List.append_assoc, idsEach, ← List.append_assoc]
    exact hfirst.trans hrest

theorem PlacedThrough.loopsTo {ns : List (Recurse × Numbered)} (h : PlacedThrough t ns)
    (visited stack : List NodeId) :
    t.LoopsTo ⟨visited, stack ++ (ns.map (·.2.id)).reverse⟩ ⟨visited ++ idsThrough ns, stack⟩ := by
  cases ns with
  | nil =>
    rw [List.map_nil, List.reverse_nil, List.append_nil, idsThrough, List.append_nil]
    exact .refl
  | cons p ns =>
    have hfirst := Placed.loopsTo h.2.1 visited (stack ++ (ns.map (·.2.id)).reverse)
    have hrest := PlacedThrough.loopsTo h.2.2 (visited ++ p.2.ids) stack
    rw [List.map_cons, List.reverse_cons, ← List.append_assoc, idsThrough, ← List.append_assoc]
    exact hfirst.trans hrest

end

/-- What a tree has directly below itself. -/
def branches : Numbered → List Numbered
  | mk _ _ children recursions => children ++ recursions.map Prod.snd

theorem ids_eq_branches (n : Numbered) : n.ids = n.id :: n.branches.flatMap ids := by
  cases n with
  | mk id node children recursions =>
    rw [ids, idsEach_eq, idsThrough_eq, branches, List.flatMap_append, List.flatMap_map]
    rfl

theorem Placed.of_branches {n m : Numbered} (h : n.Placed t) (hm : m ∈ n.branches) :
    m.Placed t ∧ ∃ e, t.entries[n.id]? = some e ∧ m.id ∈ e.children ++ e.recursions := by
  cases n with
  | mk id node children recursions =>
    obtain ⟨⟨e, he, -, hchildren, hrecursions⟩, hplaced, hthrough⟩ := h
    rw [branches] at hm
    rcases List.mem_append.mp hm with hm | hm
    · refine ⟨placedEach_iff.mp hplaced m hm, e, he, List.mem_append_left _ ?_⟩
      rw [hchildren]
      exact List.mem_map_of_mem hm
    · obtain ⟨p, hp, rfl⟩ := List.mem_map.mp hm
      refine ⟨(placedThrough_iff.mp hthrough p hp).2, e, he, List.mem_append_right _ ?_⟩
      rw [hrecursions]
      exact List.mem_map_of_mem hp

theorem piece_of_branches {n m : Numbered} (hm : m ∈ n.branches) : m.ids <:+: n.ids := by
  obtain ⟨before, after, hbelow⟩ := List.append_of_mem hm
  refine ⟨n.id :: before.flatMap ids, after.flatMap ids, ?_⟩
  rw [ids_eq_branches n, hbelow, List.flatMap_append, List.flatMap_cons]
  simp

/-- What holds of a tree if it holds of its branches, holds of all trees. -/
@[elab_as_elim]
theorem branches_induction {motive : Numbered → Prop}
    (step : ∀ n, (∀ m ∈ n.branches, motive m) → motive n) (n : Numbered) : motive n := by
  induction hlen : n.ids.length using Nat.strongRecOn generalizing n with
  | _ length ih =>
    refine step n fun m hm => ih m.ids.length ?_ m rfl
    have hsub : m.ids.Sublist (n.branches.flatMap ids) :=
      List.sublist_flatten_of_mem (List.mem_map_of_mem hm)
    rw [← hlen, ids_eq_branches n, List.length_cons]
    exact Nat.lt_succ_of_le hsub.length_le

/-- Below an id lies one tree. -/
theorem Placed.ids_unique {n m : Numbered} (hn : n.Placed t) (hm : m.Placed t) (hid : n.id = m.id) :
    n.ids = m.ids := by
  have hwalk := hn.visits m.ids.length []
  have hwalk' := hm.visits n.ids.length []
  rw [Nat.add_comm, ← hid, hwalk] at hwalk'
  simpa [QueryTree.walk, Except.map] using hwalk'

/-- A tree has the tree of each of its nodes in one piece. -/
theorem Placed.exists_piece {n : Numbered} (h : n.Placed t) {x : NodeId} (hx : x ∈ n.ids) :
    ∃ m : Numbered, m.id = x ∧ m.Placed t ∧ m.ids <:+: n.ids := by
  induction n using branches_induction with
  | step n ih =>
    rw [ids_eq_branches] at hx
    rcases List.mem_cons.mp hx with rfl | hx
    · exact ⟨n, rfl, h, List.infix_refl _⟩
    · obtain ⟨m, hm, hx⟩ := List.mem_flatMap.mp hx
      obtain ⟨k, hid, hk, hpiece⟩ := ih m hm (h.of_branches hm).1 hx
      exact ⟨k, hid, hk, hpiece.trans (piece_of_branches hm)⟩

theorem Placed.piece_of_mem {n m : Numbered} (hn : n.Placed t) (hm : m.Placed t) (hx : m.id ∈ n.ids) :
    m.ids <:+: n.ids := by
  obtain ⟨k, hid, hk, hpiece⟩ := hn.exists_piece hx
  rw [hm.ids_unique hk hid.symm]
  exact hpiece

/-- Every node of a tree but its first has its parent in the tree. -/
theorem Placed.exists_parent {n : Numbered} (h : n.Placed t) (hw : t.WellFormed) {x : NodeId}
    (hx : x ∈ n.ids) (hne : x ≠ n.id) :
    ∃ e p, t.entries[x]? = some e ∧ e.parent = some p ∧ p ∈ n.ids := by
  induction n using branches_induction with
  | step n ih =>
    rw [ids_eq_branches] at hx
    rcases List.mem_cons.mp hx with hx | hx
    · exact absurd hx hne
    · obtain ⟨m, hm, hx⟩ := List.mem_flatMap.mp hx
      obtain ⟨hplaced, f, hf, hlisted⟩ := h.of_branches hm
      by_cases hmx : x = m.id
      · obtain ⟨recursive, hlisted⟩ := QueryTree.mem_listed_iff.mp hlisted
        obtain ⟨e, he, hparent, -⟩ := hw.of_listed hf hlisted
        rw [← hmx] at he
        exact ⟨e, n.id, he, hparent, n.id_mem_ids⟩
      · obtain ⟨e, p, he, hparent, hp⟩ := ih m hm hplaced hx hmx
        exact ⟨e, p, he, hparent, (piece_of_branches hm).subset hp⟩

/-- Trees that share a node are one inside the other. -/
theorem Placed.disjoint_or_piece {n m : Numbered} (hn : n.Placed t) (hm : m.Placed t)
    (hw : t.WellFormed) : n.ids.Disjoint m.ids ∨ n.ids <:+: m.ids ∨ m.ids <:+: n.ids := by
  by_cases hnm : n.id ∈ m.ids
  · exact .inr (.inl (hm.piece_of_mem hn hnm))
  by_cases hmn : m.id ∈ n.ids
  · exact .inr (.inr (hn.piece_of_mem hm hmn))
  -- A shared node is neither of the two, so its parent, which came before it, is shared too.
  refine .inl fun x hxn hxm => ?_
  induction x using Nat.strongRecOn with
  | _ x ih =>
    obtain ⟨e, p, he, hparent, hp⟩ := hn.exists_parent hw hxn fun heq => hnm (heq ▸ hxm)
    obtain ⟨e', p', he', hparent', hp'⟩ := hm.exists_parent hw hxm fun heq => hmn (heq ▸ hxn)
    cases he.symm.trans he'
    cases hparent.symm.trans hparent'
    exact ih p (hw.parent_lt he hparent).2 hp hp'

/-- No id comes twice in a tree, for it is part of the tree of the root. -/
theorem Placed.nodup_ids {n : Numbered} (h : n.Placed t) (hw : t.WellFormed) :
    n.ids.Nodup ∧ n.ids.length ≤ t.size := by
  obtain ⟨root, hroot⟩ := exists_lays hw
  have hperm := hroot.ids_perm hw
  obtain ⟨e, he, -⟩ := h.lookup
  have hlt : n.id < t.size := (List.getElem?_eq_some_iff.mp he).1
  have hpiece := hroot.placed.piece_of_mem h (hperm.mem_iff.mpr (List.mem_range.mpr hlt))
  refine ⟨(hperm.nodup_iff.mpr List.nodup_range).sublist hpiece.sublist, ?_⟩
  have hle := hpiece.length_le
  rwa [hperm.length_eq, List.length_range] at hle

theorem Placed.subtree_eq {n : Numbered} (h : n.Placed t) (hw : t.WellFormed) :
    t.subtree n.id = .ok n.ids := by
  have hle := (h.nodup_ids hw).2
  have hwalk := h.visits (t.size + 1 - n.ids.length) []
  rw [Nat.add_sub_cancel' (Nat.le_succ_of_le hle), List.append_nil] at hwalk
  rw [QueryTree.subtree, hwalk]
  simp [QueryTree.walk, Except.map]

end Numbered

namespace QueryTree

/-- Only the nodes of a tree have subtrees. -/
theorem lt_of_subtree {t : QueryTree} {id : NodeId} {ids : List NodeId} (h : t.subtree id = .ok ids) :
    id < t.size := by
  by_contra hlt
  have hnone : t.entries[id]? = none := List.getElem?_eq_none_iff.mpr (Nat.le_of_not_lt hlt)
  simp [subtree, walk, entry, hnone] at h

theorem WellFormed.exists_placed {t : QueryTree} (hw : t.WellFormed) {id : NodeId} (hid : id < t.size) :
    ∃ n : Numbered, n.id = id ∧ n.Placed t := by
  have he : t.entries[id]? = some (t.entries.get ⟨id, hid⟩) := List.getElem?_eq_getElem hid
  obtain ⟨n, hn, -, hplaced⟩ := Numbered.exists_placed hw he (Nat.le_add_left t.size id)
  exact ⟨n, hn, hplaced⟩

/-- From every id of a built row the loop comes to its end, with an empty stack and the ids below it in pre-order,
none of them twice. Two subtrees have no node in common, or one of them is a piece of the other. -/
theorem subtree_preorder {t : QueryTree} (hb : t.Built) :
    (∀ id < t.size, (∃ n : Numbered, n.id = id ∧ n.Placed t) ∧
      ∀ n : Numbered, n.id = id → n.Placed t →
        t.subtree id = .ok n.ids ∧ t.LoopsTo ⟨[], [id]⟩ ⟨n.ids, []⟩ ∧ n.ids.Nodup) ∧
    ∀ a b as bs, t.subtree a = .ok as → t.subtree b = .ok bs →
      as.Disjoint bs ∨ as <:+: bs ∨ bs <:+: as := by
  have hw := hb.wellFormed
  constructor
  · intro id hid
    refine ⟨hw.exists_placed hid, ?_⟩
    rintro n rfl hn
    exact ⟨hn.subtree_eq hw, hn.loopsTo [] [], (hn.nodup_ids hw).1⟩
  · intro a b as bs ha hb
    obtain ⟨n, rfl, hn⟩ := hw.exists_placed (lt_of_subtree ha)
    obtain ⟨m, rfl, hm⟩ := hw.exists_placed (lt_of_subtree hb)
    cases ha.symm.trans (hn.subtree_eq hw)
    cases hb.symm.trans (hm.subtree_eq hw)
    exact hn.disjoint_or_piece hm hw

/-- An animal with a cub that has a friend, with kin that have a friend, and with a mate that was added last. -/
def pride : QueryTree :=
  (start (.root "Animal") "animal").after
    [.child 0 ((Location.root "Animal").descend "out_Cub") "animal" ⟨.outward, "cub", true, false⟩,
      .recursion 0 ((Location.root "Animal").descend "out_Kin") "animal" ⟨.outward, "kin", 2, false⟩,
      .child 1 ((Location.root "Animal").descend "out_Friend") "animal" ⟨.outward, "friend", false, true⟩,
      .child 2 ((Location.root "Animal").descend "out_Friend") "animal" ⟨.outward, "friend", false, false⟩,
      .child 0 ((Location.root "Animal").descend "out_Mate") "animal" ⟨.outward, "mate", false, false⟩]

/-- The mate comes before the kin, and the subtrees of the cub and of the kin are pieces of that of the root. -/
theorem subtree_preorder_pride :
    pride.Built ∧ pride.subtree 0 = .ok [0, 1, 3, 5, 2, 4] ∧
      pride.LoopsTo ⟨[], [0]⟩ ⟨[0, 1, 3, 5, 2, 4], []⟩ ∧ [0, 1, 3, 5, 2, 4].Nodup ∧
      pride.subtree 1 = .ok [1, 3] ∧ pride.subtree 2 = .ok [2, 4] ∧
      ([1, 3].Disjoint [2, 4] ∨ [1, 3] <:+: [2, 4] ∨ [2, 4] <:+: [1, 3]) := by
  have hbuilt : pride.Built := (Built.start ..).after _
  have hroot : pride.subtree 0 = .ok [0, 1, 3, 5, 2, 4] := rfl
  have hcub : pride.subtree 1 = .ok [1, 3] := rfl
  have hkin : pride.subtree 2 = .ok [2, 4] := rfl
  obtain ⟨hall, hpairs⟩ := subtree_preorder hbuilt
  obtain ⟨⟨n, hid, hn⟩, hpre⟩ := hall 0 (by decide)
  obtain ⟨hsubtree, hloops, hnodup⟩ := hpre n hid hn
  have hids : [0, 1, 3, 5, 2, 4] = n.ids := Except.ok.inj (hroot.symm.trans hsubtree)
  rw [← hids] at hloops hnodup
  exact ⟨hbuilt, hroot, hloops, hnodup, hcub, hkin, hpairs 1 2 _ _ hcub hkin⟩

end QueryTree

end GraphPlan
