import GraphPlan.Proofs.Except
import GraphPlan.QueryTree.Ordered

namespace GraphPlan

/-- One of the two lists of an entry: its recursions or its children. -/
def Entry.listed (e : Entry) (recursive : Bool) : List NodeId :=
  if recursive then e.recursions else e.children

namespace QueryTree

theorem entry_ok {t : QueryTree} {id : NodeId} {e : Entry} :
    t.entry id = .ok e ↔ t.entries[id]? = some e := by
  unfold entry
  split
  · next e' he => rw [he]; simp
  · next he => rw [he]; simp

theorem entry_of_lt {t : QueryTree} {id : NodeId} (h : id < t.size) :
    t.entry id = .ok (t.entries.get ⟨id, h⟩) := entry_ok.mpr (List.getElem?_eq_getElem h)

theorem entry_of_le {t : QueryTree} {id : NodeId} (h : t.size ≤ id) :
    t.entry id = .error (t.outside id) := by
  rw [entry, List.getElem?_eq_none_iff.mpr h]

section Run

variable {α β : Type} {b : Build α} {f : α → Build β} {t u : QueryTree}

theorem bind_run_ok {a : α} (h : b t = (.ok a, u)) : (b >>= f) t = f a u := by
  simp only [bind, ExceptT.bind, ExceptT.mk, StateT.bind, h]
  rfl

theorem bind_run_error {e : Error} (h : b t = (.error e, u)) : (b >>= f) t = (.error e, u) := by
  simp only [bind, ExceptT.bind, ExceptT.mk, StateT.bind, h]
  rfl

theorem map_run (g : α → β) (b : Build α) (t : QueryTree) : (g <$> b) t = ((b t).1.map g, (b t).2) := by
  show (bind b fun a => pure (g a)) t = _
  cases h : b t with
  | mk answer u =>
    cases answer with
    | ok a => exact bind_run_ok h
    | error e => exact bind_run_error h

end Run

theorem update_run (t : QueryTree) (id : NodeId) (change : Entry → Entry) :
    update id change t = if id < t.size then (.ok (), ⟨t.entries.modify id change⟩)
      else (.error (t.outside id), t) := by
  have hget : (get : Build QueryTree) t = (.ok t, t) := rfl
  rw [update, bind_run_ok hget]
  by_cases hlt : id < t.size
  · have he : t.entries[id]? = some (t.entries.get ⟨id, hlt⟩) := List.getElem?_eq_getElem hlt
    rw [if_pos hlt, he]
    rfl
  · have he : t.entries[id]? = none := List.getElem?_eq_none_iff.mpr (Nat.le_of_not_lt hlt)
    rw [if_neg hlt, he]
    rfl

theorem modify_append_of_lt {α : Type} {xs : List α} {i : Nat} (h : i < xs.length) (f : α → α)
    (ys : List α) : (xs ++ ys).modify i f = xs.modify i f ++ ys := by
  have hi : i < (xs ++ ys).length := by
    rw [List.length_append]
    exact Nat.lt_add_right _ h
  rw [List.modify_eq_take_cons_drop hi, List.modify_eq_take_cons_drop h,
    List.take_append_of_le_length (Nat.le_of_lt h), List.drop_append_of_le_length h,
    List.getElem_append_left h, List.append_assoc, List.cons_append]

/-- The parent is there when it is looked up again, for the row has only become longer; and it does not matter
that it is changed after the new entry has come. -/
theorem attach_run (t : QueryTree) (parent : NodeId) (node : Node) (refer : NodeId → Entry → Entry) :
    attach parent node refer t =
      if parent < t.size then
        (.ok t.size, ⟨t.entries.modify parent (refer t.size) ++ [⟨node, some parent, [], []⟩]⟩)
      else (.error (t.outside parent), t) := by
  have hcheck : (do let t ← get; liftM (t.entry parent) : Build Entry) t = (t.entry parent, t) := rfl
  have hpush : push ⟨node, some parent, [], []⟩ t =
      (.ok t.size, ⟨t.entries ++ [⟨node, some parent, [], []⟩]⟩) := by
    show (Except.ok (List.length _ - 1), _) = _
    rw [List.length_append]
    rfl
  by_cases hlt : parent < t.size
  · rw [entry_of_lt hlt] at hcheck
    have hlater : parent < (⟨t.entries ++ [⟨node, some parent, [], []⟩]⟩ : QueryTree).size := by
      rw [size, List.length_append]
      exact Nat.lt_add_right _ hlt
    have hrefer := update_run ⟨t.entries ++ [⟨node, some parent, [], []⟩]⟩ parent (refer t.size)
    rw [if_pos hlater, modify_append_of_lt hlt] at hrefer
    rw [if_pos hlt, attach, ← bind_assoc, bind_run_ok hcheck, bind_run_ok hpush, bind_run_ok hrefer]
    rfl
  · rw [entry_of_le (Nat.le_of_not_lt hlt)] at hcheck
    rw [if_neg hlt, attach, ← bind_assoc, bind_run_error hcheck]

/-- A call to one of the builders. -/
inductive Call where
  | child (parent : NodeId) (location : Location) (relation : String) (traverse : Traverse)
  | recursion (parent : NodeId) (location : Location) (relation : String) (recurse : Recurse)
  | select (id : NodeId) (selection : Selection)
  | filter (id : NodeId) (predicate : Expr)

namespace Call

/-- The call as an action, which answers with the id of the new node if there is one. -/
def run : Call → Build (Option NodeId)
  | child parent location relation traverse => some <$> addChild parent location relation traverse
  | recursion parent location relation recurse => some <$> addRecursion parent location relation recurse
  | select id selection => (fun _ => none) <$> addSelection id selection
  | filter id predicate => (fun _ => none) <$> addPredicate id predicate

/-- The one node that was there before whose entry the call changes. -/
def place : Call → NodeId
  | child parent _ _ _ => parent
  | recursion parent _ _ _ => parent
  | select id _ => id
  | filter id _ => id

/-- How it changes that entry, if a new node gets the given id. -/
def change (fresh : NodeId) (e : Entry) : Call → Entry
  | child .. => { e with children := e.children ++ [fresh] }
  | recursion .. => { e with recursions := e.recursions ++ [fresh] }
  | select _ selection => { e with node.selections := e.node.selections ++ [selection] }
  | filter _ predicate => { e with node.predicates := e.node.predicates ++ [predicate] }

/-- The entry of the new node. -/
def added : Call → List Entry
  | child parent location relation traverse =>
    [⟨.new location relation (.traverse traverse), some parent, [], []⟩]
  | recursion parent location relation recurse =>
    [⟨.new location relation (.recurse recurse), some parent, [], []⟩]
  | select .. => []
  | filter .. => []

/-- What it answers, if a new node gets the given id. -/
def answer (fresh : NodeId) : Call → Option NodeId
  | child .. => some fresh
  | recursion .. => some fresh
  | select .. => none
  | filter .. => none

end Call

/-- The tree after calls, whatever they answered. -/
def after (t : QueryTree) : List Call → QueryTree
  | [] => t
  | call :: calls => (call.run t).2.after calls

/-- A tree that was started and then left behind by calls. -/
inductive Built : QueryTree → Prop where
  | start (location : Location) (relation : String) : Built (start location relation)
  | call {t : QueryTree} (before : Built t) (call : Call) : Built (call.run t).2

theorem Built.after {t : QueryTree} (h : t.Built) (calls : List Call) : (t.after calls).Built := by
  induction calls generalizing t with
  | nil => exact h
  | cons call calls ih => exact ih (h.call call)

/-- A call fails when it names a node that is not there, and leaves the tree as it was. Otherwise it changes the
entry of that node and adds the new one. -/
theorem Call.run_eq (call : Call) (t : QueryTree) :
    call.run t =
      if call.place < t.size then (.ok (call.answer t.size),
        ⟨t.entries.modify call.place (fun e => call.change t.size e) ++ call.added⟩)
      else (.error (t.outside call.place), t) := by
  cases call with
  | child parent location relation traverse =>
    rw [run, map_run, addChild, attach_run, place]
    split <;> rfl
  | recursion parent location relation recurse =>
    rw [run, map_run, addRecursion, attach_run, place]
    split <;> rfl
  | select id selection =>
    rw [run, map_run, addSelection, update_run, place, added, List.append_nil]
    split <;> rfl
  | filter id predicate =>
    rw [run, map_run, addPredicate, update_run, place, added, List.append_nil]
    split <;> rfl

theorem Call.snd_run (call : Call) (t : QueryTree) :
    (call.run t).2 = if call.place < t.size then
      ⟨t.entries.modify call.place (fun e => call.change t.size e) ++ call.added⟩ else t := by
  rw [call.run_eq]
  split <;> rfl

/-- The first node is the root and has no parent. Every other node is reached by a traversal or a
recursion from a parent that came before it. A node is listed once, by its parent and in the list that its
role says, and only nodes of the tree are listed. Whether a node may be missing is what its role says. -/
structure WellFormed (t : QueryTree) : Prop where
  root : ∃ e, t.entries[rootId]? = some e ∧ e.node.role = .root ∧ e.parent = none
  other : ∀ (id : NodeId) (e : Entry), t.entries[id]? = some e → id ≠ rootId →
    e.node.role ≠ .root ∧ ∃ p < id, e.parent = some p
  listed : ∀ (id : NodeId) (e : Entry) (p : NodeId) (f : Entry) (recursive : Bool),
    t.entries[id]? = some e → t.entries[p]? = some f → (f.listed recursive).count id =
      if e.parent = some p ∧ e.node.isRecursive = recursive then 1 else 0
  inRange : ∀ (p : NodeId) (f : Entry) (recursive : Bool), t.entries[p]? = some f →
    ∀ id ∈ f.listed recursive, id < t.size
  optional : ∀ (id : NodeId) (e : Entry), t.entries[id]? = some e →
    e.node.isOptional = e.node.role.isOptional

/-- The second tree is the first with one entry changed and others added at the end. -/
structure Differs (t u : QueryTree) (place : NodeId) (change : Entry → Entry) (added : List Entry) :
    Prop where
  size : u.size = t.size + added.length
  changed : ∃ e, t.entries[place]? = some e ∧ u.entries[place]? = some (change e)
  kept : ∀ id, id ≠ place → id < t.size → u.entries[id]? = t.entries[id]?
  added : u.entries.drop t.size = added

theorem differs_of_modify {t u : QueryTree} {place : NodeId} {change : Entry → Entry}
    {added : List Entry} (hp : place < t.size)
    (hu : u.entries = t.entries.modify place change ++ added) : Differs t u place change added where
  size := by simp [size, hu]
  changed := by
    have he : t.entries[place]? = some (t.entries.get ⟨place, hp⟩) := List.getElem?_eq_getElem hp
    refine ⟨_, he, ?_⟩
    rw [hu, List.getElem?_append_left (by rw [List.length_modify]; exact hp), List.getElem?_modify, he]
    simp
  kept := by
    intro id hne hlt
    have hne' : place ≠ id := fun h => hne h.symm
    rw [hu, List.getElem?_append_left (by rw [List.length_modify]; exact hlt), List.getElem?_modify]
    simp [hne']
  added := by
    have hl : (t.entries.modify place change).length = t.size := by simp [size]
    rw [hu, ← hl, List.drop_left]

section Lookup

variable {t u : QueryTree} {place id : NodeId} {change : Entry → Entry} {added : List Entry}

/-- An entry of the second tree is one of the first, perhaps changed, or one of those added. -/
theorem Differs.lookup (h : Differs t u place change added) {e' : Entry}
    (he : u.entries[id]? = some e') :
    (∃ e, t.entries[id]? = some e ∧ e' = if id = place then change e else e) ∨
      ∃ i, id = t.size + i ∧ added[i]? = some e' := by
  by_cases hlt : id < t.size
  · left
    by_cases hp : id = place
    · obtain ⟨e, ht, hu⟩ := h.changed
      rw [hp] at he ⊢
      refine ⟨e, ht, ?_⟩
      rw [if_pos rfl]
      exact Option.some.inj (he.symm.trans hu)
    · rw [h.kept id hp hlt] at he
      exact ⟨e', he, by rw [if_neg hp]⟩
  · right
    have hsum : t.size + (id - t.size) = id := Nat.add_sub_cancel' (Nat.le_of_not_lt hlt)
    refine ⟨id - t.size, hsum.symm, ?_⟩
    rw [← h.added, List.getElem?_drop, hsum]
    exact he

/-- An entry stays where it is, perhaps changed. -/
theorem Differs.lookup_old (h : Differs t u place change added) {e : Entry}
    (he : t.entries[id]? = some e) :
    u.entries[id]? = some (if id = place then change e else e) := by
  by_cases hp : id = place
  · obtain ⟨f, ht, hu⟩ := h.changed
    rw [hp] at he
    rw [if_pos hp, hp, hu, Option.some.inj (ht.symm.trans he)]
  · have hlt : id < t.size := (List.getElem?_eq_some_iff.mp he).1
    rw [if_neg hp, h.kept id hp hlt, he]

end Lookup

section Listed

variable {t : QueryTree} {p id : NodeId} {e f : Entry}

theorem WellFormed.parent_lt (hw : t.WellFormed) (he : t.entries[id]? = some e)
    (hp : e.parent = some p) : id ≠ rootId ∧ p < id := by
  have hne : id ≠ rootId := by
    rintro rfl
    obtain ⟨r, hr, -, hnone⟩ := hw.root
    cases hr.symm.trans he
    rw [hnone] at hp
    cases hp
  obtain ⟨-, q, hq, heq⟩ := hw.other id e he hne
  cases heq.symm.trans hp
  exact ⟨hne, hq⟩

/-- What a node lists comes after it and has the role that the list is for. -/
theorem WellFormed.of_listed (hw : t.WellFormed) (hf : t.entries[p]? = some f) {recursive : Bool}
    (hm : id ∈ f.listed recursive) :
    ∃ e, t.entries[id]? = some e ∧ e.parent = some p ∧ e.node.isRecursive = recursive ∧
      e.node.role ≠ .root ∧ p < id := by
  have hlt : id < t.size := hw.inRange p f recursive hf id hm
  have he : t.entries[id]? = some (t.entries.get ⟨id, hlt⟩) := List.getElem?_eq_getElem hlt
  have hpos : 0 < (f.listed recursive).count id := List.count_pos_iff.mpr hm
  rw [hw.listed id _ p f recursive he hf] at hpos
  split at hpos
  · next hc =>
    obtain ⟨hne, hplt⟩ := hw.parent_lt he hc.1
    exact ⟨_, he, hc.1, hc.2, (hw.other id _ he hne).1, hplt⟩
  · omega

/-- Both lists of a node together hold each of its children and recursions once, and nothing else. -/
theorem WellFormed.count_listed (hw : t.WellFormed) (he : t.entries[id]? = some e)
    (hf : t.entries[p]? = some f) :
    (f.children ++ f.recursions).count id = if e.parent = some p then 1 else 0 := by
  have hc : f.children.count id = _ := hw.listed id e p f false he hf
  have hr : f.recursions.count id = _ := hw.listed id e p f true he hf
  rw [List.count_append, hc, hr]
  by_cases hp : e.parent = some p
  · cases e.node.isRecursive <;> simp [hp]
  · simp [hp]

/-- Every node but the root hangs on one that came before it. -/
theorem WellFormed.exists_hanging (hw : t.WellFormed) (hlt : id < t.size) (hne : id ≠ rootId) :
    ∃ p f, p < id ∧ t.entries[p]? = some f ∧ id ∈ f.children ++ f.recursions := by
  have he : t.entries[id]? = some (t.entries.get ⟨id, hlt⟩) := List.getElem?_eq_getElem hlt
  obtain ⟨-, p, hp, hparent⟩ := hw.other id _ he hne
  have hplt : p < t.size := Nat.lt_trans hp hlt
  have hf : t.entries[p]? = some (t.entries.get ⟨p, hplt⟩) := List.getElem?_eq_getElem hplt
  have hcount := hw.count_listed he hf
  rw [if_pos hparent] at hcount
  exact ⟨p, _, hp, hf, List.count_pos_iff.mp (by omega)⟩

/-- No entry lists a node that is not there. -/
theorem WellFormed.count_size (hw : t.WellFormed) (hf : t.entries[p]? = some f) (recursive : Bool) :
    (f.listed recursive).count t.size = 0 := by
  refine List.count_eq_zero.mpr fun hm => ?_
  exact Nat.lt_irrefl _ (hw.inRange p f recursive hf t.size hm)

/-- No node has one as its parent that is not there. -/
theorem WellFormed.parent_ne_size (hw : t.WellFormed) (he : t.entries[id]? = some e) :
    e.parent ≠ some t.size := by
  intro hp
  have hlt : id < t.size := (List.getElem?_eq_some_iff.mp he).1
  exact Nat.lt_asymm hlt (hw.parent_lt he hp).2

end Listed

theorem wellFormed_start (location : Location) (relation : String) :
    (start location relation).WellFormed := by
  have hroot : ∀ (id : NodeId) (e : Entry), (start location relation).entries[id]? = some e →
      id = rootId ∧ e = ⟨.new location relation .root, none, [], []⟩ := by
    intro id e he
    obtain ⟨hlt, hget⟩ := List.getElem?_eq_some_iff.mp he
    have h0 : id = 0 := Nat.lt_one_iff.mp hlt
    subst h0
    exact ⟨rfl, hget.symm⟩
  constructor
  · exact ⟨_, rfl, rfl, rfl⟩
  · intro id e he hne
    exact absurd (hroot id e he).1 hne
  · intro id e p f recursive he hf
    obtain ⟨-, rfl⟩ := hroot id e he
    obtain ⟨-, rfl⟩ := hroot p f hf
    cases recursive <;> rfl
  · intro p f recursive hf id hm
    obtain ⟨-, rfl⟩ := hroot p f hf
    cases recursive <;> cases hm
  · intro id e he
    obtain ⟨-, rfl⟩ := hroot id e he
    rfl

/-- A change that leaves the place of a node in the tree alone. -/
structure InPlace (change : Entry → Entry) : Prop where
  role : ∀ e, (change e).node.role = e.node.role
  optional : ∀ e, (change e).node.isOptional = e.node.isOptional
  parent : ∀ e, (change e).parent = e.parent
  listed : ∀ e recursive, (change e).listed recursive = e.listed recursive

theorem WellFormed.keep {t u : QueryTree} {place : NodeId} {change : Entry → Entry}
    (hw : t.WellFormed) (hd : Differs t u place change []) (hc : InPlace change) : u.WellFormed := by
  -- every entry comes from one with the same place in the tree
  have hback : ∀ {id : NodeId} {e' : Entry}, u.entries[id]? = some e' → ∃ e, t.entries[id]? = some e ∧
      e'.node.role = e.node.role ∧ e'.node.isOptional = e.node.isOptional ∧ e'.parent = e.parent ∧
      ∀ recursive, e'.listed recursive = e.listed recursive := by
    intro id e' he
    rcases hd.lookup he with ⟨e, ht, rfl⟩ | ⟨i, -, hi⟩
    · by_cases hp : id = place
      · rw [if_pos hp]
        exact ⟨e, ht, hc.role e, hc.optional e, hc.parent e, hc.listed e⟩
      · rw [if_neg hp]
        exact ⟨e, ht, rfl, rfl, rfl, fun _ => rfl⟩
    · cases hi
  constructor
  · obtain ⟨e, he, hr, hn⟩ := hw.root
    refine ⟨_, hd.lookup_old he, ?_, ?_⟩
    · by_cases hp : rootId = place
      · rw [if_pos hp, hc.role, hr]
      · rw [if_neg hp, hr]
    · by_cases hp : rootId = place
      · rw [if_pos hp, hc.parent, hn]
      · rw [if_neg hp, hn]
  · intro id e' he hne
    obtain ⟨e, ht, hr, -, hp, -⟩ := hback he
    rw [hr, hp]
    exact hw.other id e ht hne
  · intro id e' p f' recursive he hf
    obtain ⟨e, ht, hr, -, hp, -⟩ := hback he
    obtain ⟨f, hft, -, -, -, hl⟩ := hback hf
    have hrole : e'.node.isRecursive = e.node.isRecursive := by simp only [Node.isRecursive, hr]
    rw [hl, hp, hrole, hw.listed id e p f recursive ht hft]
  · intro p f' recursive hf id hm
    obtain ⟨f, hft, -, -, -, hl⟩ := hback hf
    have hsize : u.size = t.size := hd.size
    rw [hl] at hm
    rw [hsize]
    exact hw.inRange p f recursive hft id hm
  · intro id e' he
    obtain ⟨e, ht, hr, ho, -⟩ := hback he
    rw [ho, hr]
    exact hw.optional id e ht

/-- List a node in the entry of its parent, as its role says. -/
def enlist (node : Node) (id : NodeId) (e : Entry) : Entry :=
  if node.isRecursive then { e with recursions := e.recursions ++ [id] }
  else { e with children := e.children ++ [id] }

theorem enlist_frame (node : Node) (id : NodeId) (e : Entry) :
    (enlist node id e).node = e.node ∧ (enlist node id e).parent = e.parent := by
  unfold enlist
  split <;> exact ⟨rfl, rfl⟩

theorem listed_enlist (node : Node) (id : NodeId) (e : Entry) (recursive : Bool) :
    (enlist node id e).listed recursive =
      e.listed recursive ++ if node.isRecursive = recursive then [id] else [] := by
  unfold enlist Entry.listed
  cases node.isRecursive <;> cases recursive <;> simp

section Grow

variable {t u : QueryTree} {place : NodeId} {node : Node}

/-- An entry is the new one, or stands where it stood and may list the new one. -/
theorem Differs.grown (hd : Differs t u place (enlist node t.size) [⟨node, some place, [], []⟩])
    {id : NodeId} {e' : Entry} (he : u.entries[id]? = some e') :
    (∃ e, t.entries[id]? = some e ∧ id < t.size ∧ e'.node = e.node ∧ e'.parent = e.parent ∧
      ∀ recursive, e'.listed recursive = e.listed recursive ++
        if id = place ∧ node.isRecursive = recursive then [t.size] else []) ∨
      id = t.size ∧ e' = ⟨node, some place, [], []⟩ := by
  rcases hd.lookup he with ⟨e, ht, rfl⟩ | ⟨i, rfl, hi⟩
  · have hlt : id < t.size := (List.getElem?_eq_some_iff.mp ht).1
    refine .inl ⟨e, ht, hlt, ?_⟩
    by_cases hp : id = place
    · simp only [hp, if_true, true_and]
      obtain ⟨hnode, hparent⟩ := enlist_frame node t.size e
      exact ⟨hnode, hparent, listed_enlist node t.size e⟩
    · simp only [hp, if_false, false_and, List.append_nil, implies_true, and_self]
  · cases i with
    | zero =>
      cases hi
      exact .inr ⟨rfl, rfl⟩
    | succ i => cases hi

theorem WellFormed.grow_listed (hw : t.WellFormed)
    (hd : Differs t u place (enlist node t.size) [⟨node, some place, [], []⟩]) (hp : place < t.size)
    {id p : NodeId} {e' f' : Entry} (he : u.entries[id]? = some e') (hf : u.entries[p]? = some f')
    (recursive : Bool) : (f'.listed recursive).count id =
      if e'.parent = some p ∧ e'.node.isRecursive = recursive then 1 else 0 := by
  rcases hd.grown hf with ⟨f, hft, hplt, -, -, hl⟩ | ⟨rfl, rfl⟩
  · rw [hl, List.count_append]
    rcases hd.grown he with ⟨e, ht, hlt, hnode, hparent, -⟩ | ⟨rfl, rfl⟩
    · -- an old node is not the one that is added to the list
      have hnone : (if p = place ∧ node.isRecursive = recursive then [t.size] else []).count id = 0 := by
        have hne : t.size ≠ id := Nat.ne_of_gt hlt
        split <;> simp [hne]
      rw [hnone, hw.listed id e p f recursive ht hft, hnode, hparent]
      rfl
    · rw [hw.count_size hft]
      by_cases hpp : p = place
      · subst hpp
        by_cases hr : node.isRecursive = recursive <;> simp [hr]
      · have hpp' : place ≠ p := fun h => hpp h.symm
        simp [hpp, hpp']
  · have hnil : (Entry.listed ⟨node, some place, [], []⟩ recursive).count id = 0 := by
      cases recursive <;> rfl
    rw [hnil]
    rcases hd.grown he with ⟨e, ht, -, -, hparent, -⟩ | ⟨rfl, rfl⟩
    · simp [hparent, hw.parent_ne_size ht]
    · simp [Nat.ne_of_lt hp]

theorem WellFormed.grow (hw : t.WellFormed) (hrole : node.role ≠ .root)
    (hoptional : node.isOptional = node.role.isOptional)
    (hd : Differs t u place (enlist node t.size) [⟨node, some place, [], []⟩]) : u.WellFormed := by
  have hplace : place < t.size := by
    obtain ⟨e, he, -⟩ := hd.changed
    exact (List.getElem?_eq_some_iff.mp he).1
  constructor
  · obtain ⟨e, he, hr, hn⟩ := hw.root
    refine ⟨_, hd.lookup_old he, ?_⟩
    obtain ⟨hnode, hparent⟩ := enlist_frame node t.size e
    split
    · exact ⟨by rw [hnode, hr], by rw [hparent, hn]⟩
    · exact ⟨hr, hn⟩
  · intro id e' he hne
    rcases hd.grown he with ⟨e, ht, -, hnode, hparent, -⟩ | ⟨rfl, rfl⟩
    · rw [hnode, hparent]
      exact hw.other id e ht hne
    · exact ⟨hrole, place, hplace, rfl⟩
  · intro id e' p f' recursive he hf
    exact hw.grow_listed hd hplace he hf recursive
  · intro p f' recursive hf x hx
    have hsize : u.size = t.size + 1 := hd.size
    rw [hsize]
    rcases hd.grown hf with ⟨f, hft, -, -, -, hl⟩ | ⟨rfl, rfl⟩
    · rw [hl] at hx
      rcases List.mem_append.mp hx with hx | hx
      · exact Nat.lt_succ_of_lt (hw.inRange p f recursive hft x hx)
      · have hx : x = t.size := by
          split at hx
          · exact List.mem_singleton.mp hx
          · cases hx
        rw [hx]
        exact Nat.lt_succ_self _
    · cases recursive <;> cases hx
  · intro id e' he
    rcases hd.grown he with ⟨e, ht, -, hnode, -⟩ | ⟨rfl, rfl⟩
    · rw [hnode]
      exact hw.optional id e ht
    · exact hoptional

end Grow

theorem Call.differs {call : Call} {t : QueryTree} (h : call.place < t.size) :
    Differs t (call.run t).2 call.place (fun e => call.change t.size e) call.added := by
  rw [call.snd_run, if_pos h]
  exact differs_of_modify h rfl

theorem WellFormed.call {t : QueryTree} (hw : t.WellFormed) (call : Call) :
    (call.run t).2.WellFormed := by
  by_cases hlt : call.place < t.size
  · have hd := Call.differs hlt
    cases call with
    | child parent location relation traverse =>
      let node := Node.new location relation (.traverse traverse)
      have hgrown : Differs t _ parent (enlist node t.size) [⟨node, some parent, [], []⟩] := hd
      exact hw.grow (by simp [node, Node.new]) rfl hgrown
    | recursion parent location relation recurse =>
      let node := Node.new location relation (.recurse recurse)
      have hgrown : Differs t _ parent (enlist node t.size) [⟨node, some parent, [], []⟩] := hd
      exact hw.grow (by simp [node, Node.new]) rfl hgrown
    | select => exact hw.keep hd ⟨fun _ => rfl, fun _ => rfl, fun _ => rfl, fun _ _ => rfl⟩
    | filter => exact hw.keep hd ⟨fun _ => rfl, fun _ => rfl, fun _ => rfl, fun _ _ => rfl⟩
  · rw [call.snd_run, if_neg hlt]
    exact hw

theorem Built.wellFormed {t : QueryTree} (h : t.Built) : t.WellFormed := by
  induction h with
  | start location relation => exact wellFormed_start location relation
  | call before call ih => exact ih.call call

end QueryTree

end GraphPlan
