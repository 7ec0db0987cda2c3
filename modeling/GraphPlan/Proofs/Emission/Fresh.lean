import GraphPlan.Proofs.Emission.History
import Mathlib.Data.List.Perm.Basic

namespace GraphPlan.Sql

/-- Different names that end in numbers from a range. -/
structure Numbers (low high : Nat) (names : List String) : Prop where
  le : low ≤ high
  nodup : names.Nodup
  range : ∀ name ∈ names, ∃ part n, name = numbered part n ∧ low < n ∧ n ≤ high

namespace Numbers

theorem nil (n : Nat) : Numbers n n [] where
  le := Nat.le_refl n
  nodup := List.nodup_nil
  range := by simp

theorem single (part : String) (n : Nat) : Numbers n (n + 1) [numbered part (n + 1)] where
  le := Nat.le_succ n
  nodup := List.nodup_singleton _
  range := by
    intro name hname
    rw [List.mem_singleton] at hname
    exact ⟨part, n + 1, hname, Nat.lt_succ_self n, Nat.le_refl _⟩

theorem append {low mid high : Nat} {xs ys : List String} (hx : Numbers low mid xs)
    (hy : Numbers mid high ys) : Numbers low high (xs ++ ys) where
  le := Nat.le_trans hx.le hy.le
  nodup := by
    refine List.nodup_append.mpr ⟨hx.nodup, hy.nodup, ?_⟩
    intro x hxs y hys heq
    obtain ⟨_, m, rfl, -, hm⟩ := hx.range x hxs
    obtain ⟨_, n, rfl, hn, -⟩ := hy.range y hys
    have hmn := (numbered_inj heq).2
    omega
  range := by
    have hle := hx.le
    have hle' := hy.le
    intro name hname
    rcases List.mem_append.mp hname with hname | hname
    · obtain ⟨part, n, rfl, hlow, hhigh⟩ := hx.range name hname
      exact ⟨part, n, rfl, hlow, by omega⟩
    · obtain ⟨part, n, rfl, hlow, hhigh⟩ := hy.range name hname
      exact ⟨part, n, rfl, by omega, hhigh⟩

theorem perm {low high : Nat} {xs ys : List String} (h : Numbers low high xs) (hp : xs.Perm ys) :
    Numbers low high ys where
  le := h.le
  nodup := hp.nodup_iff.mp h.nodup
  range := fun name hname => h.range name (hp.mem_iff.mpr hname)

end Numbers

/-- Along a run, the ranges of the recursions follow one another. -/
theorem Run.numbers {t : QueryTree} {setup : Setup} (count : Supply → Nat) {names : Made → List String}
    (hn : ∀ m : Made, m.Sound setup t → Numbers (count m.start) (count (m.after setup)) (names m))
    {s last : Supply} {ms : List Made} (h : Run t setup s ms last) :
    Numbers (count s) (count last) (ms.flatMap names) := by
  induction h with
  | done s => exact .nil (count s)
  | step hm _ ih => exact (hn _ hm).append ih

mutual

theorem qualifiers_nodes (b : BoundBranch) : b.nodes.map (·.table.qualifier) = b.aliases := by
  cases b with
  | mk node table hanging children =>
    have hchildren := qualifiers_nodesEach children
    rw [BoundBranch.nodes, BoundBranch.aliases, List.map_cons, hchildren]

theorem qualifiers_nodesEach (bs : List BoundBranch) :
    (BoundBranch.nodesEach bs).map (·.table.qualifier) = BoundBranch.aliasesEach bs := by
  cases bs with
  | nil => rfl
  | cons b bs =>
    have hb := qualifiers_nodes b
    have hbs := qualifiers_nodesEach bs
    rw [BoundBranch.nodesEach, BoundBranch.aliasesEach, List.map_append, hb, hbs]

end

theorem numbers_aliases (catalog : Catalog) (b : Branch) (aliases links : Nat) :
    Numbers aliases (aliases + b.size) ((b.bind catalog aliases links).nodes.map (·.table.qualifier)) := by
  rw [qualifiers_nodes]
  refine ⟨Nat.le_add_right .., b.nodup_aliases_bind catalog aliases links, ?_⟩
  intro name hname
  obtain ⟨relation, n, hn, hlow, hhigh⟩ := b.mem_aliases_bind catalog aliases links hname
  exact ⟨_, n, hn, hlow, hhigh⟩

theorem linkLabel_eq (n : Nat) : linkLabel n = numbered "__link" n := by
  rw [linkLabel, numbered]
  rfl

theorem numbers_labelLinks (used : Nat) (hanging : List Node) :
    Numbers used (used + hanging.length) ((labelLinks used hanging).map Prod.snd) := by
  induction hanging generalizing used with
  | nil => exact .nil used
  | cons recursion rest ih =>
    have hfirst := Numbers.single "__link" used
    have hrest := ih (used + 1)
    rw [labelLinks, List.map_cons, List.length_cons, linkLabel_eq, ← Nat.add_assoc,
      Nat.add_right_comm]
    exact hfirst.append hrest

mutual

/-- The links of a group are numbered on from those in use, below a node before those of the node. -/
theorem numbers_hung (catalog : Catalog) (b : Branch) (aliases links : Nat) :
    Numbers links (links + b.linkCount) ((b.bind catalog aliases links).hung.map (·.2.2)) := by
  cases b with
  | mk node hanging children =>
    have hchildren := numbers_hungEach catalog children aliases links
    have hown := numbers_labelLinks (links + Branch.linkCounts children) hanging
    rw [Branch.linkCount, ← Nat.add_assoc, Branch.bind, BoundBranch.hung, List.map_append,
      List.map_map]
    exact (hchildren.append hown).perm List.perm_append_comm

theorem numbers_hungEach (catalog : Catalog) (bs : List Branch) (aliases links : Nat) :
    Numbers links (links + Branch.linkCounts bs)
      ((BoundBranch.hungEach (Branch.bindAll catalog aliases links bs)).map (·.2.2)) := by
  cases bs with
  | nil => exact .nil links
  | cons b bs =>
    have hb := numbers_hung catalog b aliases links
    have hbs := numbers_hungEach catalog bs (aliases + b.size) (links + b.linkCount)
    rw [Branch.linkCounts, ← Nat.add_assoc, Branch.bindAll, BoundBranch.hungEach, List.map_append]
    exact hb.append hbs

end

/-- The aliases of the nodes of a group. -/
def Host.aliases (catalog : Catalog) (h : Host) : List String :=
  (h.bound catalog).nodes.map (·.table.qualifier)

/-- The labels of the links from a group to the recursions that hang on it. -/
def Host.labels (h : Host) : List String := h.collapsed.links.map Column.name

/-- The aliases of a recursion: those of its group, then that of the distinct links that it starts from and
that of its edges. -/
def Made.given (setup : Setup) (m : Made) : List String :=
  m.aliases setup.catalog ++ [(m.recursion setup).linkLabel, (m.recursion setup).edges.qualifier]

section

variable {t : QueryTree} {setup : Setup}

theorem Host.numbers_aliases (catalog : Catalog) (h : Host) :
    Numbers h.start.aliases (h.start.aliases + h.trunk.size) (h.aliases catalog) :=
  GraphPlan.Sql.numbers_aliases catalog h.trunk h.start.aliases h.start.links

theorem Host.Sound.numbers_labels {h : Host} (hs : h.Sound t setup) :
    Numbers h.start.links (h.start.links + h.trunk.linkCount) h.labels := by
  have hlinks := (relation_madeOf hs.collapsed).links
  have hnames : (h.bound setup.catalog).hung.map (·.2.2) = h.labels := by
    rw [Host.labels, ← List.forall₂_eq_eq_eq, List.forall₂_map_left_iff, List.forall₂_map_right_iff]
    refine hlinks.imp ?_
    rintro x c ⟨edge, -, rfl⟩
    rfl
  rw [← hnames]
  exact numbers_hung setup.catalog h.trunk h.start.aliases h.start.links

theorem Made.numbers_given (setup : Setup) (m : Made) :
    Numbers m.start.aliases (m.after setup).aliases (m.given setup) := by
  have hgroup := m.numbers_aliases setup.catalog
  have hlink := Numbers.single Recursion.linkName (m.start.aliases + m.trunk.size)
  have hedges := Numbers.single (m.recursion setup).track.edges.name (m.start.aliases + m.trunk.size + 1)
  exact hgroup.append (hlink.append hedges)

theorem Made.Sound.numbers_links {m : Made} (hm : m.Sound setup t) :
    Numbers m.start.links (m.after setup).links (m.labels ++ [m.back]) := by
  have hlabels := hm.toSound.numbers_labels
  have hback := Numbers.single "__link" (m.start.links + m.trunk.linkCount)
  rw [← linkLabel_eq] at hback
  exact hlabels.append hback

theorem Made.Sound.numbers_tables {m : Made} (hm : m.Sound setup t) :
    Numbers m.start.tables (m.after setup).tables [(m.recursion setup).cte.name, m.name] := by
  have hloop := Numbers.single (setup.settings.cteStem ++ "_" ++ "recursive") m.start.tables
  have hgroup := Numbers.single (setup.settings.cteStem ++ "_" ++ m.tree.node.relation)
    (m.start.tables + 1)
  rw [hm.name]
  exact hloop.append hgroup

/-- Where names are different, a table is found under its name. -/
theorem find?_name {ctes : List Cte} (hn : (ctes.map Cte.name).Nodup) {c : Cte} (hc : c ∈ ctes) :
    ctes.find? (·.name == c.name) = some c := by
  induction ctes with
  | nil => cases hc
  | cons d ctes ih =>
    rw [List.map_cons, List.nodup_cons] at hn
    rcases List.mem_cons.mp hc with rfl | hc
    · simp
    · have hne : d.name ≠ c.name := fun heq => hn.1 (heq ▸ List.mem_map_of_mem hc)
      rw [List.find?_cons_of_neg (by simpa using hne)]
      exact ih hn.2 hc

namespace Emission

variable {statement : Statement} {root : Host} {ms : List Made}

/-- No two aliases of a statement are the same. -/
theorem aliases_nodup (h : Emission t setup statement root ms) :
    (root.aliases setup.catalog ++ ms.flatMap (Made.given setup)).Nodup := by
  obtain ⟨last, hrun⟩ := h.run
  have hroot := root.numbers_aliases setup.catalog
  have hms := hrun.numbers Supply.aliases fun m _ => m.numbers_given setup
  exact (hroot.append hms).nodup

/-- No two columns through which groups are linked have one label. -/
theorem labels_nodup (h : Emission t setup statement root ms) :
    (ms.map (·.tie.column.name) ++ ms.map Made.back).Nodup := by
  obtain ⟨last, hrun⟩ := h.run
  have hroot := h.sound.numbers_labels
  have hms := hrun.numbers Supply.links fun m hm => hm.numbers_links
  have hall : (root.labels ++ ms.flatMap fun m => m.labels ++ [m.back]).Nodup := (hroot.append hms).nodup
  -- Every recursion is tied once, so the labels of the ties are those of the links of all groups.
  have hties : ∀ h : Host, h.Sound t setup → h.ties.map (·.column.name) = h.labels := by
    intro h hs
    rw [Host.labels, ← hs.map_ties.2, List.map_map]
    rfl
  have hlabels : (ms.map (·.tie.column.name)).Perm (root.labels ++ ms.flatMap fun m => m.labels) := by
    have hperm := h.tied.map (·.column.name)
    rw [List.map_map, List.map_append, List.map_flatMap, hties root h.sound,
      List.flatMap_congr fun m hm => hties m.toHost (hrun.sound m hm).toSound] at hperm
    exact hperm
  have hsplit := List.flatMap_append_perm ms (fun m => m.labels) fun m => [m.back]
  rw [← List.map_eq_flatMap] at hsplit
  refine (List.Perm.nodup_iff ?_).mpr hall
  refine (hlabels.append_right _).trans ?_
  rw [List.append_assoc]
  exact hsplit.append_left _

/-- No two tables of a statement have one name. -/
theorem names_nodup (h : Emission t setup statement root ms) :
    (statement.ctes.map Cte.name).Nodup := by
  obtain ⟨last, hrun⟩ := h.run
  have hroot := Numbers.single (setup.settings.cteStem ++ "_" ++ root.tree.node.relation) 0
  have hms := hrun.numbers Supply.tables fun m hm => hm.numbers_tables
  have hone : root.settled.tables = 1 := by
    simp [Host.settled, Supply.add, Supply.advance, h.start, Supply.init]
  rw [hone] at hms
  rw [h.ctes, List.map_cons, List.map_flatMap, show root.cte.name = root.name from rfl, h.name]
  exact (hroot.append hms).nodup

theorem cte?_eq (h : Emission t setup statement root ms) {c : Cte} (hc : c ∈ statement.ctes) :
    statement.cte? c.name = some c := find?_name h.names_nodup hc

/-- The names of the tables of groups, then those of the recursive ones. -/
theorem tables_nodup (h : Emission t setup statement root ms) :
    ((root.name :: ms.map (·.name)) ++ ms.map (fun m => (m.recursion setup).cte.name)).Nodup := by
  have hnodup := h.names_nodup
  have hsplit := List.flatMap_append_perm ms (fun m => [m.name]) fun m => [(m.recursion setup).cte.name]
  have hswap : ∀ m ∈ ms, ([m.name] ++ [(m.recursion setup).cte.name]).Perm
      ((m.ctes setup).map Cte.name) := fun m _ => .swap ..
  rw [← List.map_eq_flatMap, ← List.map_eq_flatMap] at hsplit
  rw [h.ctes, List.map_cons, List.map_flatMap] at hnodup
  exact (List.Perm.cons root.name (hsplit.trans (.flatMap_left ms hswap))).nodup_iff.mpr hnodup

end Emission

end

end GraphPlan.Sql
