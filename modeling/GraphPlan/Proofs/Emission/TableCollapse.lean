import GraphPlan.Proofs.Emission.SideTable

namespace GraphPlan.Sql

namespace Job

/-- The same emission without entries. -/
def plain (job : Job) (entryOf : Node → Entry) : Setup :=
  ⟨job.provider.catalogBy entryOf, job.settings, job.combinator⟩

end Job

section

variable {job : Job} {entryOf : Node → Entry} (hp : job.provider.AgreesBy entryOf job.tree) {e f : Entry}

include hp

theorem ofNode_eq (he : e ∈ job.tree.entries) (table : BoundTable) :
    Relation.ofNode (job.setup e e) e.node table = Relation.ofNode (job.plain entryOf) e.node table := by
  simp only [Relation.ofNode, Job.setup, Job.plain, Provider.about, Provider.catalogBy, hp.condition e he]

theorem absorb_eq (he : e ∈ job.tree.entries) (hf : f ∈ job.tree.entries) (r below : Relation) :
    absorb (job.setup e f) e.node r f.node below = absorb (job.plain entryOf) e.node r f.node below := by
  simp only [absorb, guarded, Job.setup, Job.plain, Provider.about, Provider.catalogBy,
    hp.joins e he f hf, hp.presence f hf]

theorem recursiveClause_eq (he : e ∈ job.tree.entries) (recurse : Recurse) (link : Link) (r : Relation) :
    recursiveClause (job.setup e e) recurse link e.node r =
      recursiveClause (job.plain entryOf) recurse link e.node r := by
  have hedge : (job.plain entryOf).catalog.edge e.node = job.provider.edge e := (hp.edge e he).symm
  funext s
  rw [recursiveClause_run, recursiveClause_run, hedge]
  rfl

end

/-- The state of a node that has grown to a relation, with the recursions that follow it and the names of
the links of those of them that have one so far. -/
structure GrownTo (st : NodeState) (r : Relation) (recursions linked : List NodeId)
    (labels : List String) : Prop where
  relation : st.toRelation = r
  recursions : st.recursions = recursions
  linked : st.recursionLinks.entries.map Prod.fst = linked
  labels : st.recursionLinks.entries.map Prod.snd = labels

/-- The table holds under an id what the group of a node collapses to. -/
def Collapsed (states : States) (n : Numbered) (r : Relation) : Prop :=
  ∃ st, states n.id = some st ∧ GrownTo st r n.hangingIds n.hangingIds (r.links.map Column.name)

/-- It holds that for each of these nodes. -/
def AllCollapsed (states : States) (ns : List Numbered) (rs : List (Node × Relation)) : Prop :=
  List.Forall₂ (fun n p => p.1 = n.node ∧ Collapsed states n p.2) ns rs

theorem AllCollapsed.congr {states after : States} {ns : List Numbered} {rs : List (Node × Relation)}
    (h : AllCollapsed states ns rs) (hsame : ∀ n ∈ ns, after n.id = states n.id) :
    AllCollapsed after ns rs := by
  apply ((List.forall₂_and_left ns rs).mpr ⟨hsame, h⟩).imp
  rintro n p ⟨hn, hnode, st, hst, hh⟩
  exact ⟨hnode, st, hn.trans hst, hh⟩

theorem GrownTo.link {st : NodeState} {r : Relation} {recursions linked : List NodeId}
    (h : GrownTo st r recursions linked (r.links.map Column.name)) {recursion : NodeId}
    (hnew : recursion ∉ linked) (column label : String) :
    GrownTo (st.link recursion column label) (r.link column label) recursions (linked ++ [recursion])
      ((r.link column label).links.map Column.name) := by
  have hkey : recursion ∉ st.recursionLinks.entries.map Prod.fst := by
    rw [h.linked]
    exact hnew
  have hentries := OrderedMap.entries_insert_of_notMem hkey label
  refine ⟨congrArg (Relation.link · column label) h.relation, h.recursions, ?_, ?_⟩
  · show List.map _ (st.recursionLinks.insert recursion label).entries = _
    rw [hentries, List.map_append, h.linked]
    rfl
  · show List.map _ (st.recursionLinks.insert recursion label).entries = _
    rw [hentries, List.map_append, h.labels, Relation.link, List.map_append]
    rfl

theorem GrownTo.takeOver {st below : NodeState} {r r' joined : Relation} {ids ids' : List NodeId}
    (h : GrownTo st r ids ids (r.links.map Column.name))
    (h' : GrownTo below r' ids' ids' (r'.links.map Column.name)) (hnodup : (ids ++ ids').Nodup)
    (hj : joined.links = r.links ++ r'.links) :
    GrownTo (st.takeOver joined below) joined (ids ++ ids') (ids ++ ids')
      (joined.links.map Column.name) := by
  have hentries : (st.recursionLinks.extend below.recursionLinks).entries =
      st.recursionLinks.entries ++ below.recursionLinks.entries := by
    apply OrderedMap.entries_foldl_insert
    rw [h.linked, h'.linked]
    exact hnodup
  refine ⟨rfl, ?_, ?_, ?_⟩
  · show st.recursions ++ below.recursions = _
    rw [h.recursions, h'.recursions]
  · show List.map _ (st.recursionLinks.extend below.recursionLinks).entries = _
    rw [hentries, List.map_append, h.linked, h'.linked]
  · show List.map _ (st.recursionLinks.extend below.recursionLinks).entries = _
    rw [hentries, List.map_append, h.labels, h'.labels, hj, List.map_append]

section

variable {job : Job} {entryOf : Node → Entry} {states : States}

theorem tracks_createLinks (hp : job.provider.AgreesBy entryOf job.tree) {id : NodeId}
    {ns : List (Recurse × Numbered)} (hplaced : Numbered.PlacedThrough job.tree ns) {st : NodeState}
    {r : Relation} {recursions linked : List NodeId} (hst : states id = some st)
    (hh : GrownTo st r recursions linked (r.links.map Column.name))
    (hnodup : (linked ++ ns.map (·.2.id)).Nodup) :
    Tracks ((ns.map (·.2.id)).forM (job.createLink id)) states
      (linkAll (job.plain entryOf) r (ns.map (·.2.node))) fun _ after r' => Leaves states id (GrownTo · r'
        recursions (linked ++ ns.map (·.2.id)) (r'.links.map Column.name)) after := by
  induction ns generalizing states st r linked with
  | nil =>
    apply tracks_pure
    refine ⟨st, ?_, ?_⟩
    · rw [← hst, Function.update_eq_self]
    · simpa using hh
  | cons p ns ih =>
    obtain ⟨e, he, hnode⟩ := hplaced.2.1.lookup
    rw [List.map_cons] at hnodup
    have hnew : p.2.id ∉ linked := fun hm =>
      (List.nodup_append.mp hnodup).2.2 _ hm _ List.mem_cons_self rfl
    rw [List.map_cons, List.map_cons, List.forM, Job.createLink]
    simp only [bind_assoc]
    apply (gives_entry he states).then
    show Tracks _ states (liftM (Edge.checked p.2.node _) >>= _) _
    rw [hnode, hp.edge e (List.mem_of_getElem? he), hnode]
    apply (tracks_lift _ states).bind
    rintro edge _ _ ⟨rfl, rfl⟩
    apply (tracks_lift Emit.freshLink _).bind
    rintro label _ _ ⟨rfl, rfl⟩
    apply (gives_state hst).then
    apply (gives_put id _ _).then
    have hlink := hh.link hnew edge.linkColumn label
    have hcons := List.append_cons linked p.2.id (ns.map (·.2.id))
    rw [hcons] at hnodup ⊢
    exact (ih hplaced.2.2 (Function.update_self ..) hlink hnodup).mono fun _ _ _ h => h.of_update

theorem tracks_plant (hp : job.provider.AgreesBy entryOf job.tree) {id : NodeId} {e : Entry}
    (he : job.tree.entries[id]? = some e) {ns : List (Recurse × Numbered)}
    (hplaced : Numbered.PlacedThrough job.tree ns) (hrec : e.recursions = ns.map (·.2.id))
    (hnodup : (ns.map (·.2.id)).Nodup) :
    Tracks (job.plant id e.recursions) states (plant (job.plain entryOf) e.node (ns.map (·.2.node)))
      fun _ after r => Leaves states id
        (GrownTo · r (ns.map (·.2.id)) (ns.map (·.2.id)) (r.links.map Column.name)) after := by
  rw [Job.plant, Job.bindTable, plant]
  simp only [bind_assoc]
  apply (gives_entry he states).then
  apply (tracks_lift (Emit.freshAlias _) _).bind
  rintro name _ _ ⟨rfl, rfl⟩
  rw [ofNode_eq hp (List.mem_of_getElem? he)]
  apply (tracks_attempt _ _).bind
  rintro own _ _ ⟨rfl, rfl, hown⟩
  apply (gives_put id _ _).then
  have hlinks : own.links = [] := by
    obtain ⟨_, _, hown⟩ := bind_ok hown
    cases hown
    rfl
  have hh : GrownTo ⟨own, e.recursions, .empty⟩ own (ns.map (·.2.id)) [] (own.links.map Column.name) := by
    refine ⟨rfl, hrec, rfl, ?_⟩
    rw [hlinks]
    rfl
  rw [hrec] at hh ⊢
  exact (tracks_createLinks hp hplaced (Function.update_self ..) hh hnodup).mono fun _ _ _ h =>
    h.of_update

theorem lift_bind {α β : Type} (x : Except Error α) (f : α → Except Error β) :
    (liftM (x >>= f) : Emit β) = liftM x >>= fun a => liftM (f a) := by
  funext s
  cases x <;> rfl

theorem tracks_pullUp (hp : job.provider.AgreesBy entryOf job.tree) {id : NodeId} {e : Entry}
    (he : job.tree.entries[id]? = some e) {n : Numbered} (hplaced : n.Placed job.tree)
    (hne : id ≠ n.id) {st : NodeState} {r below : Relation} {recursions : List NodeId}
    (hst : states id = some st) (hh : GrownTo st r recursions recursions (r.links.map Column.name))
    (hc : Collapsed states n below) (hnodup : (recursions ++ n.hangingIds).Nodup) :
    Tracks (job.pullUp id n.id) states (liftM (absorb (job.plain entryOf) e.node r n.node below))
      fun _ after r' => Leaves (Function.update states n.id none) id (GrownTo · r'
        (recursions ++ n.hangingIds) (recursions ++ n.hangingIds) (r'.links.map Column.name)) after := by
  obtain ⟨f, hf, hnode⟩ := hplaced.lookup
  obtain ⟨stBelow, hbelow, hhbelow⟩ := hc
  have hparent : Function.update states n.id none id = some st := by
    rw [Function.update_of_ne hne]
    exact hst
  rw [Job.pullUp, ← bind_pure (liftM (absorb (job.plain entryOf) e.node r n.node below))]
  apply (gives_entry he states).then
  apply (gives_entry hf states).then
  apply (gives_take hbelow).then
  apply (gives_state hparent).then
  rw [absorb_eq hp (List.mem_of_getElem? he) (List.mem_of_getElem? hf), hnode, hh.relation, hhbelow.relation]
  apply (tracks_attempt _ _).bind
  rintro joined _ _ ⟨rfl, rfl, hjoined⟩
  obtain ⟨_, _, hj⟩ := absorb_ok hjoined
  apply (gives_put id _ _).last
  refine ⟨_, rfl, ?_⟩
  apply hh.takeOver hhbelow hnodup
  rw [hj]

theorem tracks_pullUps (hp : job.provider.AgreesBy entryOf job.tree) {id : NodeId} {e : Entry}
    (he : job.tree.entries[id]? = some e) {ns : List Numbered}
    (hplaced : Numbered.PlacedEach job.tree ns) {rs : List (Node × Relation)}
    (hcollapsed : AllCollapsed states ns rs)
    (hids : (id :: ns.map Numbered.id).Nodup) {st : NodeState} {r : Relation} {recursions : List NodeId}
    (hst : states id = some st) (hh : GrownTo st r recursions recursions (r.links.map Column.name))
    (hnodup : (recursions ++ ns.flatMap Numbered.hangingIds).Nodup) :
    Tracks ((ns.map Numbered.id).forM (job.pullUp id)) states
      (liftM (absorbAll (job.plain entryOf) e.node r rs)) fun _ after r' =>
        (∃ st', after id = some st' ∧ GrownTo st' r' (recursions ++ ns.flatMap Numbered.hangingIds)
          (recursions ++ ns.flatMap Numbered.hangingIds) (r'.links.map Column.name)) ∧
        (∀ n ∈ ns, after n.id = none) ∧
        ∀ i, i ≠ id → i ∉ ns.map Numbered.id → after i = states i := by
  induction ns generalizing states rs st r recursions with
  | nil =>
    cases hcollapsed
    apply tracks_pure
    refine ⟨⟨st, hst, ?_⟩, by simp, fun _ _ _ => rfl⟩
    simpa using hh
  | cons n ns ih =>
    cases hcollapsed with
    | @cons _ p _ rs hn hns =>
      obtain ⟨child, below⟩ := p
      obtain ⟨rfl, hbelow⟩ := hn
      rw [List.map_cons] at hids ⊢
      obtain ⟨hid, hrest⟩ := List.nodup_cons.mp hids
      have hne : id ≠ n.id := List.ne_of_not_mem_cons hid
      rw [List.flatMap_cons, ← List.append_assoc] at hnodup ⊢
      rw [List.forM, absorbAll, lift_bind]
      apply (tracks_pullUp hp he hplaced.1 hne hst hh hbelow
        (hnodup.sublist (List.sublist_append_left _ _))).bind
      rintro _ _ joined ⟨st', rfl, hh'⟩
      -- The other children are left alone, and this one is gone from the table.
      have hother : ∀ i, i ≠ id → i ≠ n.id →
          Function.update (Function.update states n.id none) id (some st') i = states i := by
        intro i hi hin
        rw [Function.update_of_ne hi, Function.update_of_ne hin]
      have hns' : AllCollapsed (Function.update (Function.update states n.id none) id (some st')) ns
          rs := by
        apply AllCollapsed.congr hns
        intro m hm
        have hmem := List.mem_map_of_mem (f := Numbered.id) hm
        apply hother
        · intro he
          exact hid (he ▸ List.mem_cons_of_mem _ hmem)
        · intro he
          exact (List.nodup_cons.mp hrest).1 (he ▸ hmem)
      apply (ih hplaced.2 hns' (hids.sublist ((List.sublist_cons_self ..).cons_cons _))
        (Function.update_self ..) hh' hnodup).mono
      rintro _ after r' ⟨hheld, hnone, hsame⟩
      refine ⟨hheld, ?_, ?_⟩
      · intro m hm
        rcases List.mem_cons.mp hm with rfl | hm
        · rw [hsame m.id hne.symm (List.nodup_cons.mp hrest).1, Function.update_of_ne hne.symm,
            Function.update_self]
        · exact hnone m hm
      · intro i hi hmem
        rw [List.mem_cons, not_or] at hmem
        rw [hsame i hi hmem.2, hother i hi hmem.1]

/-- From a table that has nothing of a tree, collapse leaves the one state of its first group. -/
def CollapsesInTable (job : Job) (entryOf : Node → Entry) (depth : Nat) (n : Numbered) : Prop :=
  ∀ states : States, (∀ i ∈ n.ids, states i = none) →
    Tracks (job.collapse depth n.id) states (collapse (job.plain entryOf) n.erase.group.trunk)
      fun _ after r => Leaves states n.id
        (GrownTo · r n.hangingIds n.hangingIds (r.links.map Column.name)) after

theorem tracks_collapseAll {depth : Nat} {ns : List Numbered}
    (h : ∀ n ∈ ns, CollapsesInTable job entryOf depth n)
    (hnodup : (Numbered.idsEach ns).Nodup) (hfree : ∀ i ∈ Numbered.idsEach ns, states i = none) :
    Tracks ((ns.map Numbered.id).forM (job.collapse depth)) states
      (collapseAll (job.plain entryOf) (ns.map (·.erase.group.trunk))) fun _ after rs =>
        AllCollapsed after ns rs ∧ ∀ i, i ∉ ns.map Numbered.id → after i = states i := by
  induction ns generalizing states with
  | nil => exact tracks_pure ⟨.nil, fun _ _ => rfl⟩
  | cons n ns ih =>
    rw [Numbered.idsEach] at hnodup hfree
    have hnew : n.id ∉ Numbered.idsEach ns := fun hm =>
      (List.nodup_append.mp hnodup).2.2 _ n.id_mem_ids _ hm rfl
    rw [List.map_cons, List.map_cons, List.forM, collapseAll]
    apply (h n List.mem_cons_self states fun i hi => hfree i (List.mem_append_left _ hi)).bind
    rintro _ _ r ⟨st, rfl, hh⟩
    have hfree' : ∀ i ∈ Numbered.idsEach ns, Function.update states n.id (some st) i = none := by
      intro i hi
      have hne : i ≠ n.id := fun he => hnew (he ▸ hi)
      rw [Function.update_of_ne hne]
      exact hfree i (List.mem_append_right _ hi)
    apply (ih (fun m hm => h m (List.mem_cons_of_mem _ hm)) (List.nodup_append.mp hnodup).2.1
      hfree').result
    rintro _ after rs ⟨hall, hsame⟩
    refine ⟨.cons ⟨?_, st, ?_, hh⟩ hall, ?_⟩
    · rw [OrderedTree.group_trunk_node, Numbered.erase_node]
    · rw [hsame n.id fun hm => hnew ((Numbered.map_id_sublist ns).subset hm), Function.update_self]
    · intro i hi
      rw [List.mem_cons, not_or] at hi
      rw [hsame i hi.2, Function.update_of_ne hi.1]

/-- The number of nodes in a tree bounds its depth. -/
theorem collapses (hp : job.provider.AgreesBy entryOf job.tree) {depth : Nat} {n : Numbered}
    (hplaced : n.Placed job.tree) (hnodup : n.ids.Nodup) (hd : n.ids.length ≤ depth) :
    CollapsesInTable job entryOf depth n := by
  induction depth generalizing n with
  | zero =>
    rw [n.ids_eq] at hd
    cases hd
  | succ depth ih =>
    cases n with
    | mk id node children recursions =>
      intro states hfree
      have hhanging := Numbered.nodup_hangingIds hnodup
      rw [Numbered.hangingIds_mk] at hhanging ⊢
      rw [Numbered.ids] at hnodup hd hfree
      obtain ⟨hid, hbelow⟩ := List.nodup_cons.mp hnodup
      have hsub := Numbered.map_id_sublist children
      have hchildren : (Numbered.idsEach children).Nodup := (List.nodup_append.mp hbelow).1
      have hnew : id ∉ children.map Numbered.id := fun hm =>
        hid (List.mem_append_left _ (hsub.subset hm))
      obtain ⟨⟨e, he, rfl, hc, hr⟩, heach, hthrough⟩ := hplaced
      have hcollapses : ∀ c ∈ children, CollapsesInTable job entryOf depth c := by
        intro c hm
        have hcs := Numbered.ids_sublist_of_mem hm
        apply ih (Numbered.placedEach_iff.mp heach c hm) (hchildren.sublist hcs)
        have hlen := hcs.length_le
        rw [List.length_cons, List.length_append] at hd
        omega
      rw [Numbered.trunk_erase, collapse, Numbered.id, Job.collapse]
      apply (gives_entry he states).then
      rw [hc]
      apply (tracks_collapseAll hcollapses hchildren fun i hi =>
        hfree i (List.mem_cons_of_mem _ (List.mem_append_left _ hi))).bind
      rintro _ after rs ⟨hall, hsame⟩
      apply (tracks_plant hp he hthrough hr (List.nodup_append.mp hhanging).1).bind
      rintro _ _ own ⟨st, rfl, hh⟩
      have hall' : AllCollapsed (Function.update after id (some st)) children rs := by
        apply hall.congr
        intro m hm
        have hne : m.id ≠ id := fun he => hnew (he ▸ List.mem_map_of_mem hm)
        exact Function.update_of_ne hne ..
      apply (tracks_pullUps hp he heach hall' (List.nodup_cons.mpr ⟨hnew, hchildren.sublist hsub⟩)
        (Function.update_self ..) hh hhanging).mono
      rintro _ last r ⟨⟨st', hst', hh'⟩, hnone, hother⟩
      refine ⟨st', ?_, hh'⟩
      funext i
      by_cases hi : i = id
      · rw [hi, hst', Function.update_self]
      · rw [Function.update_of_ne hi]
        by_cases hm : i ∈ children.map Numbered.id
        · obtain ⟨c, hc, rfl⟩ := List.mem_map.mp hm
          rw [hnone c hc, hfree]
          exact List.mem_cons_of_mem _ (List.mem_append_left _ (hsub.subset hm))
        · rw [hother i hi hm, Function.update_of_ne hi, hsame i hm]

end

end GraphPlan.Sql
