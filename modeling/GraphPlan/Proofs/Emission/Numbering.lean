import GraphPlan.Proofs.Emission.Scope
import GraphPlan.Proofs.Emission.TableCollapse

namespace GraphPlan.Sql

variable {job : Job} {entryOf : Node → Entry} {states : States}

theorem GrownTo.become {st : NodeState} {r : Relation} {recursions linked : List NodeId}
    {labels : List String} (h : GrownTo st r recursions linked labels) (r' : Relation) :
    GrownTo (st.become r') r' recursions linked labels :=
  ⟨rfl, h.recursions, h.linked, h.labels⟩

/-- The link of each recursion is found under its id. -/
theorem GrownTo.lookup {st : NodeState} {r : Relation} {recursions : List NodeId}
    {ps : List (Recurse × Numbered)} {labels : List String}
    (h : GrownTo st r recursions (ps.map (·.2.id)) labels) :
    List.Forall₂ (fun p label => st.recursionLinks.get? p.2.id = some label) ps labels := by
  have hget : ∀ e ∈ st.recursionLinks.entries, st.recursionLinks.get? e.1 = some e.2 :=
    fun e he => OrderedMap.get?_of_mem he
  have hids := h.linked
  rw [← h.labels]
  clear h
  generalize st.recursionLinks.entries = entries at hget hids
  induction entries generalizing ps with
  | nil =>
    rw [List.map_eq_nil_iff.mp hids.symm]
    exact .nil
  | cons e entries ih =>
    obtain ⟨p, ps, rfl, hp, hps⟩ := List.map_eq_cons_iff.mp hids.symm
    refine .cons ?_ (ih (fun e he => hget e (List.mem_cons_of_mem _ he)) hps.symm)
    rw [hp]
    exact hget e List.mem_cons_self

theorem tracks_enterRecursion (hp : job.provider.AgreesBy entryOf job.tree) {id : NodeId} {e : Entry}
    (he : job.tree.entries[id]? = some e) {recurse : Recurse} (hrole : e.node.role = .recurse recurse)
    (link : Link) {st : NodeState} (hst : states id = some st) :
    Tracks (job.enterRecursion id link) states
      (recursiveClause (job.plain entryOf) recurse link e.node st.toRelation) fun back after q =>
        back = q.2 ∧ after = Function.update states id (some (st.become q.1)) := by
  rw [Job.enterRecursion, ← bind_pure (recursiveClause (job.plain entryOf) recurse link e.node st.toRelation)]
  apply (gives_entry he states).then
  rw [hrole]
  apply (gives_state hst).then
  rw [recursiveClause_eq hp (List.mem_of_getElem? he)]
  apply (tracks_lift _ _).bind
  rintro q _ _ ⟨rfl, rfl⟩
  apply (gives_put id _ _).then
  exact tracks_pure ⟨rfl, rfl⟩

theorem tracks_enter (hp : job.provider.AgreesBy entryOf job.tree) {id : NodeId} {e : Entry}
    (he : job.tree.entries[id]? = some e) {recurse : Recurse} (hrole : e.node.role = .recurse recurse)
    (link : Link) {st : NodeState} (hst : states id = some st) :
    Tracks (job.enter id e (some link)) states
      (recursiveClause (job.plain entryOf) recurse link e.node st.toRelation) fun back after q =>
        back = some q.2 ∧ after = Function.update states id (some (st.become q.1)) := by
  have hrec : e.node.isRecursive = true := by simp [Node.isRecursive, hrole]
  rw [Job.enter, if_pos hrec,
    ← bind_pure (recursiveClause (job.plain entryOf) recurse link e.node st.toRelation)]
  apply (tracks_enterRecursion hp he hrole link hst).bind
  rintro back after q ⟨rfl, rfl⟩
  exact tracks_pure ⟨rfl, rfl⟩

theorem tracks_wrap {id : NodeId} {e : Entry} (he : job.tree.entries[id]? = some e)
    {st : NodeState} (hst : states id = some st) :
    Tracks (job.wrap id) states (materialize (job.plain entryOf) e.node st.toRelation) fun _ after r =>
      after = Function.update states id (some (st.become r)) := by
  rw [Job.wrap, ← bind_pure (materialize (job.plain entryOf) e.node st.toRelation)]
  apply (gives_entry he states).then
  apply (gives_state hst).then
  apply (tracks_lift (materialize (job.plain entryOf) e.node st.toRelation) states).bind
  rintro r _ _ ⟨rfl, rfl⟩
  exact (gives_put id _ _).last rfl

/-- From a table that has nothing of a tree, a recursion leaves one state, which has the relation that it is
emitted as, and gives the name of its link back. -/
def Lowers (job : Job) (entryOf : Node → Entry) (depth : Nat) (p : Recurse × Numbered) : Prop :=
  ∀ (link : Link) (states : States), (∀ i ∈ p.2.ids, states i = none) →
    Tracks (job.lower depth p.2.id (some link)) states
      (emitRecursion (job.plain entryOf) link p.1 p.2.erase.group) fun back after q =>
        back = some q.2 ∧ Leaves states p.2.id (·.toRelation = q.1) after

/-- A recursion comes and goes, and nothing changes in the table but the relation of the node that it hangs
on. -/
theorem tracks_joinIn {depth : Nat} {id : NodeId} {p : Recurse × Numbered} (h : Lowers job entryOf depth p)
    (hplaced : p.2.Placed job.tree) (hfree : ∀ i ∈ p.2.ids, states i = none)
    {st : NodeState} (hst : states id = some st) {label : String}
    (hlabel : st.recursionLinks.get? p.2.id = some label) {r : Relation} {kept : List Column}
    (hr : st.toRelation = { r with outputs := kept }) :
    Tracks (job.joinIn (job.lower depth) id p.2.id) states
      (emitRecursion (job.plain entryOf) ⟨r.table, label⟩ p.1 p.2.erase.group) fun more after q =>
        more = q.1.outputs ∧ after = Function.update states id (some (st.become
          { r.joinRecursion label p.2.erase.group.trunk.node q.1 q.2 with outputs := kept })) := by
  have htable : st.table = r.table := by rw [hr]
  obtain ⟨e, he, hnode⟩ := hplaced.lookup
  have htrunk : p.2.erase.group.trunk.node = e.node := by
    rw [OrderedTree.group_trunk_node, Numbered.erase_node, hnode]
  rw [Job.joinIn, ← bind_pure (emitRecursion (job.plain entryOf) ⟨r.table, label⟩ p.1 p.2.erase.group)]
  apply (gives_state hst).then
  rw [hlabel, htable]
  apply (h ⟨r.table, label⟩ states hfree).bind
  rintro _ _ ⟨below, back⟩ ⟨rfl, stBelow, rfl, rfl⟩
  apply (gives_take (Function.update_self ..)).then
  rw [Function.update_idem, ← hfree p.2.id p.2.id_mem_ids, Function.update_eq_self]
  apply (gives_entry he states).then
  apply (gives_state hst).then
  apply (gives_put id _ _).then
  apply tracks_pure
  refine ⟨rfl, ?_⟩
  rw [htrunk, htable, hr]
  rfl

theorem tracks_traverse {depth : Nat} {id : NodeId} {ps : List (Recurse × Numbered)}
    (h : ∀ p ∈ ps, Lowers job entryOf depth p) (hplaced : Numbered.PlacedThrough job.tree ps)
    (hnew : ∀ p ∈ ps, id ∉ p.2.ids) (hfree : ∀ p ∈ ps, ∀ i ∈ p.2.ids, states i = none)
    {st : NodeState} (hst : states id = some st) {labels : List String}
    (hlabels : List.Forall₂ (fun p label => st.recursionLinks.get? p.2.id = some label) ps labels)
    {r : Relation} {kept collected : List Column} (hr : st.toRelation = { r with outputs := kept })
    (hout : r.outputs = kept ++ collected) :
    Tracks (job.traverse (job.lower depth) id (ps.map (·.2.id)) collected) states
      (emitRecursions (job.plain entryOf) labels r (ps.map fun p => (p.1, p.2.erase.group)))
      fun _ after r' => Leaves states id (·.toRelation = r') after := by
  induction ps generalizing states st labels r collected with
  | nil =>
    apply (gives_state hst).then
    apply (gives_put id _ _).last
    refine ⟨_, rfl, ?_⟩
    show ({ st.toRelation with outputs := st.toRelation.outputs ++ collected } : Relation) = r
    rw [hr, ← hout]
  | cons p ps ih =>
    cases hlabels with
    | @cons _ label _ labels hlabel hlabels =>
      have hmem : p ∈ p :: ps := List.mem_cons_self
      have hrest : ∀ q ∈ ps, q ∈ p :: ps := fun q hq => List.mem_cons_of_mem p hq
      apply (tracks_joinIn (h p hmem) hplaced.2.1 (hfree p hmem) hst hlabel hr).bind
      rintro _ _ ⟨below, back⟩ ⟨rfl, rfl⟩
      have hfree' : ∀ q ∈ ps, ∀ i ∈ q.2.ids, Function.update states id (some (st.become
          { r.joinRecursion label p.2.erase.group.trunk.node below back with outputs := kept })) i =
            none := by
        intro q hq i hi
        have hne : i ≠ id := fun he => hnew q (hrest q hq) (he ▸ hi)
        rw [Function.update_of_ne hne, hfree q (hrest q hq) i hi]
      have hout' : (r.joinRecursion label p.2.erase.group.trunk.node below back).outputs =
          kept ++ (collected ++ below.outputs) := by
        rw [← List.append_assoc, ← hout]
        rfl
      exact (ih (fun q hq => h q (hrest q hq)) hplaced.2.2 (fun q hq => hnew q (hrest q hq)) hfree'
        (Function.update_self ..) hlabels rfl hout').mono fun _ _ _ h => h.of_update

/-- The steps that follow once the relation of a group is complete. -/
def settleGroup (setup : Setup) (g : Group) (labels : List String) (r : Relation) : Emit Relation := do
  let wrapped ← materialize setup g.trunk.node r
  emitRecursions setup labels wrapped g.recursions

theorem tracks_settle {depth : Nat} {n : Numbered} (h : ∀ p ∈ n.hanging, Lowers job entryOf depth p)
    (hplaced : n.Placed job.tree) (hnodup : n.ids.Nodup)
    (hfree : ∀ i ∈ n.ids, i ≠ n.id → states i = none) {st : NodeState}
    (hst : states n.id = some st) {r : Relation} {labels : List String}
    (hh : GrownTo st r n.hangingIds n.hangingIds labels) :
    Tracks (job.settle (job.lower depth) n.id) states (settleGroup (job.plain entryOf) n.erase.group labels r)
      fun _ after r' => Leaves states n.id (·.toRelation = r') after := by
  obtain ⟨e, he, hnode⟩ := hplaced.lookup
  rw [Job.settle, settleGroup, OrderedTree.group_trunk_node, Numbered.erase_node, ← hnode,
    ← hh.relation, Numbered.recursions_erase]
  apply (tracks_wrap he hst).bind
  rintro _ _ wrapped rfl
  apply (gives_state (Function.update_self ..)).then
  have hh' := hh.become wrapped
  rw [hh'.recursions]
  have hnew : ∀ p ∈ n.hanging, n.id ∉ p.2.ids := fun p hp =>
    (Numbered.of_mem_hanging hnodup hp).2.1
  have hfree' : ∀ p ∈ n.hanging, ∀ i ∈ p.2.ids,
      Function.update states n.id (some (st.become wrapped)) i = none := by
    intro p hp i hi
    have hne : i ≠ n.id := fun he => hnew p hp (he ▸ hi)
    rw [Function.update_of_ne hne, hfree i ((Numbered.of_mem_hanging hnodup hp).2.2.1 hi) hne]
  have hr : (st.become wrapped).toRelation = { wrapped with outputs := wrapped.outputs } := rfl
  exact (tracks_traverse h hplaced.hanging hnew hfree' (Function.update_self ..) hh'.lookup hr
    (List.append_nil _).symm).mono fun _ _ _ h => h.of_update

theorem emitRecursion_eq (setup : Setup) (link : Link) (recurse : Recurse) (g : Group) :
    emitRecursion setup link recurse g = (do
      let collapsed ← collapse setup g.trunk
      let entered ← recursiveClause setup recurse link g.trunk.node collapsed
      let joined ← settleGroup setup g (collapsed.links.map Column.name) entered.1
      return (joined, entered.2)) := by
  cases g
  simp only [emitRecursion, settleGroup, bind_assoc]
  rfl

theorem emitRoot_eq (setup : Setup) (g : Group) :
    emitRoot setup g = (do
      let collapsed ← collapse setup g.trunk
      settleGroup setup g (collapsed.links.map Column.name) collapsed) := by
  cases g
  rfl

theorem lowers (hp : job.provider.AgreesBy entryOf job.tree) {depth : Nat} {p : Recurse × Numbered}
    (hrole : p.2.node.role = .recurse p.1) (hplaced : p.2.Placed job.tree) (hnodup : p.2.ids.Nodup)
    (hsize : p.2.ids.length ≤ job.tree.size) (hd : p.2.ids.length ≤ depth) : Lowers job entryOf depth p := by
  induction depth generalizing p with
  | zero =>
    rw [p.2.ids_eq] at hd
    cases hd
  | succ depth ih =>
    intro link states hfree
    obtain ⟨e, he, hnode⟩ := hplaced.lookup
    have hhanging : ∀ q ∈ p.2.hanging, Lowers job entryOf depth q := by
      intro q hq
      obtain ⟨hrole, hplaced⟩ := Numbered.placedThrough_iff.mp hplaced.hanging q hq
      obtain ⟨hnodup, -, -, hlt⟩ := Numbered.of_mem_hanging hnodup hq
      exact ih hrole hplaced hnodup (by omega) (by omega)
    rw [Job.lower, emitRecursion_eq, OrderedTree.group_trunk_node, Numbered.erase_node, ← hnode]
    apply (gives_entry he states).then
    apply (collapses hp hplaced hnodup hsize states hfree).bind
    rintro _ _ r ⟨st, rfl, hh⟩
    have henter := tracks_enter hp he (hnode ▸ hrole) link (Function.update_self p.2.id (some st) states)
    rw [hh.relation] at henter
    apply henter.bind
    rintro _ _ ⟨entered, back⟩ ⟨rfl, rfl⟩
    rw [Function.update_idem]
    have hfree' : ∀ i ∈ p.2.ids, i ≠ p.2.id →
        Function.update states p.2.id (some (st.become entered)) i = none := by
      intro i hi hne
      rw [Function.update_of_ne hne, hfree i hi]
    apply (tracks_settle hhanging hplaced hnodup hfree' (Function.update_self ..)
      (hh.become entered)).bind
    intro _ after joined hleaves
    exact tracks_pure ⟨rfl, hleaves.of_update⟩

theorem tracks_root (hp : job.provider.AgreesBy entryOf job.tree) {n : Numbered} (hl : n.Lays job.tree)
    (hw : job.tree.WellFormed) :
    Tracks (job.lower job.tree.size QueryTree.rootId none) (fun _ => none)
      (emitRoot (job.plain entryOf) n.erase.group) fun _ after r =>
        ∃ st, after QueryTree.rootId = some st ∧ st.toRelation = r := by
  have hperm := hl.ids_perm hw
  have hnodup : n.ids.Nodup := hperm.nodup_iff.mpr List.nodup_range
  have hlength : n.ids.length = job.tree.size := hperm.length_eq.trans List.length_range
  obtain ⟨e, he, hrole, -⟩ := hw.root
  have hordinary : e.node.isRecursive = false := by simp [Node.isRecursive, hrole]
  obtain ⟨depth, hdepth⟩ : ∃ depth, job.tree.size = depth + 1 := by
    rw [n.ids_eq, List.length_cons] at hlength
    exact ⟨_, hlength.symm⟩
  have hhanging : ∀ p ∈ n.hanging, Lowers job entryOf depth p := by
    intro p hm
    obtain ⟨hrole, hplaced⟩ := Numbered.placedThrough_iff.mp hl.placed.hanging p hm
    obtain ⟨hnodup, -, -, hlt⟩ := Numbered.of_mem_hanging hnodup hm
    exact lowers hp hrole hplaced hnodup (by omega) (by omega)
  rw [hdepth, Job.lower, emitRoot_eq]
  apply (gives_entry he _).then
  rw [← hl.root]
  apply (collapses hp hl.placed hnodup (Nat.le_of_eq hlength) (fun _ => none) fun _ _ => rfl).bind
  rintro _ _ r ⟨st, rfl, hh⟩
  rw [Job.enter, if_neg (by simp [hordinary]), pure_bind,
    ← bind_pure (settleGroup (job.plain entryOf) n.erase.group (r.links.map Column.name) r)]
  have hfree : ∀ i ∈ n.ids, i ≠ n.id →
      Function.update (fun _ => none : States) n.id (some st) i = none := by
    intro i _ hne
    rw [Function.update_of_ne hne]
  apply (tracks_settle hhanging hl.placed hnodup hfree (Function.update_self ..) hh).bind
  rintro _ _ joined ⟨st', rfl, hst'⟩
  exact tracks_pure ⟨st', Function.update_self .., hst'⟩

theorem tracks_run (hp : job.provider.AgreesBy entryOf job.tree) {n : Numbered} (hl : n.Lays job.tree)
    (hw : job.tree.WellFormed) :
    Tracks job.run (fun _ => none)
      (emitRoot (job.plain entryOf) n.erase.group >>= fun r => liftM r.finalQuery) fun a _ b => a = b := by
  apply (tracks_root hp hl hw).bind
  rintro _ after r ⟨st, hst, rfl⟩
  apply (gives_take hst).then
  apply (tracks_attempt _ _).mono
  rintro a _ b ⟨rfl, -, -⟩
  rfl

theorem emitTree_eq (setup : Setup) (tree : OrderedTree) :
    emitTree setup tree =
      ((emitRoot setup tree.group >>= fun r => liftM r.finalQuery : Emit Select) .init).bind fun q =>
        .ok ⟨q.2.ctes, q.1⟩ := by
  rw [emitTree, Emit.bind_run]
  show (emitRoot setup tree.group .init).bind _ = _
  cases emitRoot setup tree.group .init with
  | error e => rfl
  | ok p =>
    show p.1.finalQuery.bind _ = _
    cases h : p.1.finalQuery with
    | error e => simp only [Except.bind, Emit.lift_run, h, Except.map]
    | ok select => simp only [Except.bind, Emit.lift_run, h, Except.map]; rfl

/-- The recursion over an ordered tree, for given settings and with a catalog. -/
def emitOrdered (settings : Settings) (catalog : Catalog) (tree : OrderedTree) :
    Except Error Statement := do
  settings.check
  let combinator ← Combinator.ofName (settings.combinator.getD catalog.combinator)
  emitTree ⟨catalog, settings, combinator⟩ tree

theorem emit_eq (settings : Settings) (catalog : Catalog) {t : QueryTree} (hw : t.WellFormed)
    {tree : OrderedTree} (h : t.ordered = .ok tree) :
    emit settings catalog t = emitOrdered settings catalog tree := by
  rw [emit, emitOrdered, hw.checkShape_ok, h]
  rfl

theorem emitByTable_eq (settings : Settings) {p : Provider} {entryOf : Node → Entry} {t : QueryTree}
    (hp : p.AgreesBy entryOf t) (hw : t.WellFormed) {n : Numbered} (hl : n.Lays t) :
    emitByTable settings p t = emitOrdered settings (p.catalogBy entryOf) n.erase := by
  have hrun : ∀ combinator : Combinator, (((⟨p, settings, combinator, t⟩ : Job).run
      (fun _ => none) .init).bind fun q => Except.ok (⟨q.2.ctes, q.1.1⟩ : Statement)) =
      emitTree ⟨p.catalogBy entryOf, settings, combinator⟩ n.erase := by
    intro combinator
    rw [emitTree_eq]
    apply Tallies.eq
    have htracks := @tracks_run ⟨p, settings, combinator, t⟩ entryOf hp n hl hw
    apply (htracks .init).bind
    rintro q q' ⟨hs, hselect⟩
    show Statement.mk q.2.ctes q.1.1 = ⟨q'.2.ctes, q'.1⟩
    rw [hs, hselect]
  rw [emitByTable, emitOrdered, hw.checkShape_ok]
  cases settings.check with
  | error e => rfl
  | ok _ =>
    show (Combinator.ofName _).bind _ = (Combinator.ofName _).bind _
    congr 1
    funext combinator
    exact hrun combinator

/-- The two ways of emission agree on a tree, with a catalog that answers for the entries of the tree. -/
theorem emitByTable_eq_emit (settings : Settings) {p : Provider} {entryOf : Node → Entry}
    {t : QueryTree} (hp : p.AgreesBy entryOf t) (ht : t.Built) :
    emitByTable settings p t = emit settings (p.catalogBy entryOf) t := by
  obtain ⟨n, hn⟩ := Numbered.exists_lays ht.wellFormed
  rw [emitByTable_eq settings hp ht.wellFormed hn,
    emit_eq settings _ ht.wellFormed (hn.ordered_eq ht.wellFormed)]

/-- Different keys can be given any values. -/
theorem exists_values {α β κ : Type} (default : β) (key : α → κ) (value : α → β) {xs : List α}
    (h : (xs.map key).Nodup) : ∃ f : κ → β, ∀ x ∈ xs, f (key x) = value x := by
  classical
  induction xs with
  | nil => exact ⟨fun _ => default, by simp⟩
  | cons x xs ih =>
    rw [List.map_cons, List.nodup_cons] at h
    obtain ⟨f, hf⟩ := ih h.2
    refine ⟨Function.update f (key x) (value x), fun y hy => ?_⟩
    rcases List.mem_cons.mp hy with rfl | hy
    · exact Function.update_self ..
    · have hne : key y ≠ key x := fun heq => h.1 (heq ▸ List.mem_map_of_mem hy)
      rw [Function.update_of_ne hne, hf y hy]

/-- Any provider, whatever of an entry it looks at, is a catalog on a tree whose nodes differ. -/
theorem Provider.exists_agreesBy (p : Provider) {t : QueryTree}
    (hd : (t.entries.map Entry.node).Nodup) : ∃ entryOf : Node → Entry, p.AgreesBy entryOf t ∧
      (t.Built → ∀ settings, emitByTable settings p t = emit settings (p.catalogBy entryOf) t) := by
  obtain ⟨entryOf, hentry⟩ := exists_values (bare (.new (.root "") "" .root)) Entry.node id hd
  have hagrees := p.agreesBy_of_entry hentry
  exact ⟨entryOf, hagrees, fun ht settings => emitByTable_eq_emit settings hagrees ht⟩

/-- Emission does not depend on ids. Every built row lays out a tree, which is its ordered form once the ids are
left out, and emission over the row by way of the table agrees with the recursion over that form. So two rows
whose trees are the same up to ids have the same statement or the same error, however the ids came about. -/
theorem emit_numbering (settings : Settings) {p : Provider} (hp : p.IgnoresIds) {t u : QueryTree}
    (ht : t.Built) (hu : u.Built) :
    (∃ n : Numbered, n.Lays t) ∧
      (∀ n : Numbered, n.Lays t → t.ordered = .ok n.erase ∧
        emitByTable settings p t = emitOrdered settings p.catalog n.erase ∧
        emit settings p.catalog t = emitOrdered settings p.catalog n.erase) ∧
      ∀ n m : Numbered, n.Lays t → m.Lays u → n.erase = m.erase →
        emitByTable settings p t = emitByTable settings p u ∧
        emit settings p.catalog t = emit settings p.catalog u := by
  have htw := ht.wellFormed
  have huw := hu.wellFormed
  refine ⟨Numbered.exists_lays htw, ?_, ?_⟩
  · intro n hn
    have ho := hn.ordered_eq htw
    exact ⟨ho, emitByTable_eq settings (hp.agreesBy t) htw hn, emit_eq settings p.catalog htw ho⟩
  · intro n m hn hm he
    have htable := emitByTable_eq settings (hp.agreesBy t) htw hn
    have htable' := emitByTable_eq settings (hp.agreesBy u) huw hm
    have hplain := emit_eq settings p.catalog htw (hn.ordered_eq htw)
    have hplain' := emit_eq settings p.catalog huw (hm.ordered_eq huw)
    rw [htable, htable', hplain, hplain', he]
    exact ⟨rfl, rfl⟩

/-- The provider that asks a catalog. -/
def Catalog.provider (c : Catalog) : Provider where
  table := c.table
  tableNamed := c.tableNamed
  edge e := c.edge e.node
  joins e f := c.joins e.node f.node
  column := c.column
  condition e := c.condition e.node
  presence e := c.presence e.node
  combinator := c.combinator

theorem Catalog.provider_ignoresIds (c : Catalog) : c.provider.IgnoresIds where
  edge _ _ h := congrArg c.edge h
  joins _ _ _ _ h h' := congrArg₂ c.joins h h'
  condition _ _ h := congrArg c.condition h
  presence _ _ h := congrArg c.presence h

theorem Catalog.catalogBy_provider (c : Catalog) : c.provider.catalogBy Provider.bare = c := rfl

theorem emitByTable_provider (settings : Settings) (c : Catalog) {t : QueryTree} (ht : t.Built) :
    emitByTable settings c.provider t = emit settings c t := by
  have hsame := emitByTable_eq_emit settings (c.provider_ignoresIds.agreesBy t) ht
  rwa [c.catalogBy_provider] at hsame

/-- An animal with a friend that it may have and with its kin at up to two hops, each with a friend. -/
def friendFirst : QueryTree :=
  (QueryTree.start (.root "Animal") "animal").after
    [.child 0 ((Location.root "Animal").descend "out_Friend") "animal" ⟨.outward, "friend", true, false⟩,
      .recursion 0 ((Location.root "Animal").descend "out_Kin") "animal" ⟨.outward, "kin", 2, false⟩,
      .child 2 ((Location.root "Animal").descend "out_Last") "animal" ⟨.outward, "friend", false, false⟩,
      .select 1 ⟨"name", "friend_name"⟩, .select 3 ⟨"name", "last_name"⟩]

/-- The same with its kin added before its friend. -/
def kinFirst : QueryTree :=
  (QueryTree.start (.root "Animal") "animal").after
    [.recursion 0 ((Location.root "Animal").descend "out_Kin") "animal" ⟨.outward, "kin", 2, false⟩,
      .child 1 ((Location.root "Animal").descend "out_Last") "animal" ⟨.outward, "friend", false, false⟩,
      .select 2 ⟨"name", "last_name"⟩,
      .child 0 ((Location.root "Animal").descend "out_Friend") "animal" ⟨.outward, "friend", true, false⟩,
      .select 3 ⟨"name", "friend_name"⟩]

theorem emit_numbering_kin :
    friendFirst.entries.map Entry.children ≠ kinFirst.entries.map Entry.children ∧
    ∃ statement, emitByTable .standard sampleCatalog.provider friendFirst = .ok statement ∧
      emitByTable .standard sampleCatalog.provider kinFirst = .ok statement ∧
      statement.ctes.length = 3 := by
  have hf : friendFirst.Built := (QueryTree.Built.start ..).after _
  have hk : kinFirst.Built := (QueryTree.Built.start ..).after _
  have hp := sampleCatalog.provider_ignoresIds
  have hordered : friendFirst.ordered = kinFirst.ordered := by
    simp only [friendFirst, kinFirst, QueryTree.after, QueryTree.Call.snd_run]
    cbv
  have hemitted : ((emit .standard sampleCatalog friendFirst).toOption.map
      fun statement => statement.ctes.length) = some 3 := by decide +kernel
  obtain ⟨⟨n, hn⟩, hagree, hsame⟩ := emit_numbering .standard hp hf hk
  obtain ⟨⟨m, hm⟩, hagree', -⟩ := emit_numbering .standard hp hk hf
  obtain ⟨ho, htable, hplain⟩ := hagree n hn
  have he : n.erase = m.erase := by
    rw [hordered, (hagree' m hm).1] at ho
    exact (Except.ok.inj ho).symm
  obtain ⟨statement, hs, hlength⟩ := exists_statement hemitted
  have hfirst := htable.trans (hplain.symm.trans hs)
  exact ⟨by decide, statement, hfirst, (hsame n m hn hm he).1.symm.trans hfirst, hlength⟩

end GraphPlan.Sql
