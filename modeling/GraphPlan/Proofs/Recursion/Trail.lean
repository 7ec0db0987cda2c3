import Mathlib.Data.List.Basic

namespace GraphPlan

variable {α : Type}

/-- A vertex is reached from another by at most so many hops. -/
inductive ReachedWithin (hop : α → α → Prop) (u : α) : Nat → α → Prop where
  | here (n : Nat) : ReachedWithin hop u n u
  | further {n : Nat} {v w : α} (reached : ReachedWithin hop u n v) (next : hop v w) :
      ReachedWithin hop u (n + 1) w

/-- The vertices on a way that comes to none of them twice, the newest first. -/
inductive Trail (hop : α → α → Prop) (u : α) : List α → Prop where
  | start : Trail hop u [u]
  | further {v w : α} {older : List α} (trail : Trail hop u (v :: older)) (next : hop v w)
      (unvisited : w ∉ v :: older) : Trail hop u (w :: v :: older)

variable {hop : α → α → Prop} {u : α}

theorem ReachedWithin.mono {m n : Nat} {v : α} (h : ReachedWithin hop u m v) (hm : m ≤ n) :
    ReachedWithin hop u n v := by
  induction h generalizing n with
  | here m => exact .here n
  | further reached next ih =>
    obtain ⟨k, rfl⟩ := Nat.exists_eq_add_of_le hm
    rw [Nat.add_right_comm]
    exact .further (ih (Nat.le_add_right _ k)) next

namespace Trail

theorem reached {v : α} {older : List α} (h : Trail hop u (v :: older)) :
    ReachedWithin hop u older.length v := by
  generalize htrail : v :: older = trail at h
  induction h generalizing v older with
  | start =>
    cases htrail
    exact .here 0
  | further trail next unvisited ih =>
    cases htrail
    exact .further (ih rfl) next

/-- A trail up to one of its vertices is a trail. -/
theorem cut {trail : List α} (h : Trail hop u trail) {v : α} (hv : v ∈ trail) :
    ∃ older, Trail hop u (v :: older) ∧ older.length < trail.length := by
  induction h with
  | start =>
    rw [List.mem_singleton.mp hv]
    exact ⟨[], .start, Nat.zero_lt_one⟩
  | @further x w before trail next unvisited ih =>
    rcases List.mem_cons.mp hv with rfl | hv
    · exact ⟨x :: before, .further trail next unvisited, Nat.lt_succ_self _⟩
    · obtain ⟨older, ht, hl⟩ := ih hv
      exact ⟨older, ht, Nat.lt_succ_of_lt hl⟩

/-- A trail has the trails of all smaller lengths in it. -/
theorem shorten {trail : List α} (h : Trail hop u trail) {n : Nat} (hn : n < trail.length) :
    ∃ v older, Trail hop u (v :: older) ∧ older.length = n := by
  induction h with
  | start =>
    have hz : n = 0 := Nat.lt_one_iff.mp hn
    exact ⟨u, [], .start, hz.symm⟩
  | @further x w before trail next unvisited ih =>
    rcases Nat.lt_succ_iff_lt_or_eq.mp hn with hn | rfl
    · exact ih hn
    · exact ⟨w, x :: before, .further trail next unvisited, rfl⟩

end Trail

/-- Nothing is lost by going along trails only: where a way comes to a vertex again, what lies between is
left out. -/
theorem ReachedWithin.trail {n : Nat} {v : α} (h : ReachedWithin hop u n v) :
    ∃ older, Trail hop u (v :: older) ∧ older.length ≤ n := by
  induction h with
  | here n => exact ⟨[], .start, Nat.zero_le n⟩
  | @further n v w reached next ih =>
    obtain ⟨older, ht, hl⟩ := ih
    by_cases hw : w ∈ v :: older
    · obtain ⟨before, ht', hl'⟩ := ht.cut hw
      have hlength : (v :: older).length = older.length + 1 := rfl
      exact ⟨before, ht', by omega⟩
    · exact ⟨v :: older, .further ht next hw, Nat.succ_le_succ hl⟩

end GraphPlan
