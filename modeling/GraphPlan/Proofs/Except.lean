import GraphPlan.Error
import Mathlib.Data.List.Forall2

namespace GraphPlan

theorem bind_ok {α β : Type} {x : Except Error α} {f : α → Except Error β} {b : β}
    (h : x.bind f = .ok b) : ∃ a, x = .ok a ∧ f a = .ok b := by
  cases x with
  | error e => cases h
  | ok a => exact ⟨a, rfl, h⟩

theorem bind_error {α β : Type} {x : Except Error α} {f : α → Except Error β} {e : Error}
    (h : x.bind f = .error e) : x = .error e ∨ ∃ a, x = .ok a ∧ f a = .error e := by
  cases x with
  | error e' =>
    cases h
    exact .inl rfl
  | ok a => exact .inr ⟨a, rfl, h⟩

theorem map_ok {α β : Type} {x : Except Error α} {f : α → β} {b : β}
    (h : x.map f = .ok b) : ∃ a, x = .ok a ∧ f a = b := by
  cases x with
  | error e => cases h
  | ok a => exact ⟨a, rfl, Except.ok.inj h⟩

theorem mapM_ok {α β : Type} {f : α → Except Error β} {xs : List α} {ys : List β}
    (h : xs.mapM f = .ok ys) : List.Forall₂ (fun x y => f x = .ok y) xs ys := by
  induction xs generalizing ys with
  | nil =>
    cases h
    exact .nil
  | cons x xs ih =>
    rw [List.mapM_cons] at h
    obtain ⟨y, hy, h⟩ := bind_ok h
    obtain ⟨ys, hys, h⟩ := bind_ok h
    cases h
    exact .cons hy (ih hys)

theorem forall₂_mem_left {α β : Type} {R : α → β → Prop} {xs : List α} {ys : List β}
    (h : List.Forall₂ R xs ys) {x : α} (hx : x ∈ xs) : ∃ y ∈ ys, R x y := by
  induction h with
  | nil => cases hx
  | cons hr _ ih =>
    rcases List.mem_cons.mp hx with rfl | hx
    · exact ⟨_, List.mem_cons_self, hr⟩
    · obtain ⟨y, hy, hr⟩ := ih hx
      exact ⟨y, List.mem_cons_of_mem _ hy, hr⟩

theorem exists_of_mem_mapM {α β : Type} {f : α → Except Error β} {xs : List α} {ys : List β}
    (h : xs.mapM f = .ok ys) {y : β} (hy : y ∈ ys) : ∃ x ∈ xs, f x = .ok y :=
  forall₂_mem_left (mapM_ok h).flip hy

theorem exists_mapM_of_mem {α β : Type} {f : α → Except Error β} {xs : List α} {ys : List β}
    (h : xs.mapM f = .ok ys) {x : α} (hx : x ∈ xs) : ∃ y ∈ ys, f x = .ok y :=
  forall₂_mem_left (mapM_ok h) hx

/-- The error of a row of computations is that of one of them. -/
theorem mapM_error {α β : Type} {f : α → Except Error β} {xs : List α} {e : Error}
    (h : xs.mapM f = .error e) : ∃ x ∈ xs, f x = .error e := by
  induction xs with
  | nil => cases h
  | cons x xs ih =>
    rw [List.mapM_cons] at h
    rcases bind_error h with h | ⟨y, -, h⟩
    · exact ⟨x, List.mem_cons_self, h⟩
    · rcases bind_error h with h | ⟨ys, -, h⟩
      · obtain ⟨x', hm, he⟩ := ih h
        exact ⟨x', List.mem_cons_of_mem x hm, he⟩
      · cases h

theorem forM_ok {α : Type} {f : α → Except Error Unit} {xs : List α} (h : ∀ x ∈ xs, f x = .ok ()) :
    xs.forM f = .ok () := by
  induction xs with
  | nil => rfl
  | cons x xs ih =>
    rw [List.forM, h x List.mem_cons_self]
    exact ih fun y hy => h y (List.mem_cons_of_mem x hy)

/-- The computation comes to a good result, or to an error that is accounted for. -/
structure Ends {α : Type} (x : Except Error α) (good : α → Prop) (bad : Error → Prop) : Prop where
  ok : ∀ a, x = .ok a → good a
  error : ∀ e, x = .error e → bad e

theorem ends_ok {α : Type} {a : α} {good : α → Prop} {bad : Error → Prop} (h : good a) :
    Ends (.ok a) good bad := by
  refine ⟨fun b hb => ?_, fun e he => ?_⟩
  · cases hb
    exact h
  · cases he

theorem ends_error {α : Type} {e : Error} {good : α → Prop} {bad : Error → Prop} (h : bad e) :
    Ends (.error e) good bad := by
  refine ⟨fun b hb => ?_, fun e' he => ?_⟩
  · cases hb
  · cases he
    exact h

theorem Ends.bind {α β : Type} {x : Except Error α} {f : α → Except Error β} {good : α → Prop}
    {best : β → Prop} {bad : Error → Prop} (hx : Ends x good bad)
    (hf : ∀ a, good a → Ends (f a) best bad) : Ends (x.bind f) best bad := by
  cases x with
  | error e => exact ends_error (hx.error e rfl)
  | ok a => exact hf a (hx.ok a rfl)

theorem Ends.map_bind {α β γ : Type} {x : Except Error α} {f : α → β} {g : β → Except Error γ}
    {good : α → Prop} {best : γ → Prop} {bad : Error → Prop} (hx : Ends x good bad)
    (hg : ∀ a, good a → Ends (g (f a)) best bad) : Ends ((x.map f).bind g) best bad := by
  cases x with
  | error e => exact ends_error (hx.error e rfl)
  | ok a => exact hg a (hx.ok a rfl)

theorem Ends.mono {α : Type} {x : Except Error α} {good best : α → Prop} {bad worse : Error → Prop}
    (hx : Ends x good bad) (hg : ∀ a, good a → best a) (hb : ∀ e, bad e → worse e) :
    Ends x best worse :=
  ⟨fun a h => hg a (hx.ok a h), fun e h => hb e (hx.error e h)⟩

/-- Either a computation succeeds, or it fails. -/
theorem ends_self {α : Type} (x : Except Error α) : Ends x (x = .ok ·) (x = .error ·) :=
  ⟨fun _ h => h, fun _ h => h⟩

/-- Both computations come to results that are related, or both fail. -/
def Agree {α β : Type} (related : α → β → Prop) : Except Error α → Except Error β → Prop
  | .ok a, .ok b => related a b
  | .error _, .error _ => True
  | _, _ => False

theorem Agree.bind {α β γ δ : Type} {related : α → β → Prop} {outcome : γ → δ → Prop}
    {x : Except Error α} {y : Except Error β} {f : α → Except Error γ} {g : β → Except Error δ}
    (h : Agree related x y) (hf : ∀ a b, related a b → Agree outcome (f a) (g b)) :
    Agree outcome (x.bind f) (y.bind g) := by
  cases x with
  | error e =>
    cases y with
    | error e' => trivial
    | ok b => cases h
  | ok a =>
    cases y with
    | error e' => cases h
    | ok b => exact hf a b h

theorem Agree.of_ok_left {α β : Type} {related : α → β → Prop} {a : α} {y : Except Error β}
    (h : Agree related (.ok a) y) : ∃ b, y = .ok b ∧ related a b := by
  cases y with
  | error e => cases h
  | ok b => exact ⟨b, rfl, h⟩

theorem Agree.of_ok_right {α β : Type} {related : α → β → Prop} {x : Except Error α} {b : β}
    (h : Agree related x (.ok b)) : ∃ a, x = .ok a ∧ related a b := by
  cases x with
  | error e => cases h
  | ok a => exact ⟨a, rfl, h⟩

theorem agree_of_ok {α β : Type} {related : α → β → Prop} {x : Except Error α} {y : Except Error β}
    (hx : ∀ a, x = .ok a → ∃ b, y = .ok b ∧ related a b) (hy : ∀ b, y = .ok b → ∃ a, x = .ok a) :
    Agree related x y := by
  cases x with
  | error e =>
    cases y with
    | error e' => trivial
    | ok b =>
      obtain ⟨a, ha⟩ := hy b rfl
      cases ha
  | ok a =>
    obtain ⟨b, rfl, hr⟩ := hx a rfl
    exact hr

/-- Both computations come to results that are related, or to the same error. -/
def Tallies {α β : Type} (related : α → β → Prop) : Except Error α → Except Error β → Prop
  | .ok a, .ok b => related a b
  | .error e, .error e' => e = e'
  | _, _ => False

theorem Tallies.bind {α β γ δ : Type} {related : α → β → Prop} {outcome : γ → δ → Prop}
    {x : Except Error α} {y : Except Error β} {f : α → Except Error γ} {g : β → Except Error δ}
    (h : Tallies related x y) (hf : ∀ a b, related a b → Tallies outcome (f a) (g b)) :
    Tallies outcome (x.bind f) (y.bind g) := by
  cases x with
  | error e =>
    cases y with
    | error e' => exact h
    | ok b => cases h
  | ok a =>
    cases y with
    | error e' => cases h
    | ok b => exact hf a b h

theorem Tallies.mono {α β : Type} {related outcome : α → β → Prop} {x : Except Error α}
    {y : Except Error β} (h : Tallies related x y) (hr : ∀ a b, related a b → outcome a b) :
    Tallies outcome x y := by
  cases x with
  | error e =>
    cases y with
    | error e' => exact h
    | ok b => cases h
  | ok a =>
    cases y with
    | error e' => cases h
    | ok b => exact hr a b h

theorem Tallies.eq {α : Type} {x y : Except Error α} (h : Tallies Eq x y) : x = y := by
  cases x with
  | error e =>
    cases y with
    | error e' => exact congrArg Except.error h
    | ok b => cases h
  | ok a =>
    cases y with
    | error e' => cases h
    | ok b => exact congrArg Except.ok h

theorem exists_mapM_ok {α β : Type} {f : α → Except Error β} {xs : List α}
    (h : ∀ x ∈ xs, ∃ y, f x = .ok y) : ∃ ys, xs.mapM f = .ok ys := by
  cases hr : xs.mapM f with
  | ok ys => exact ⟨ys, rfl⟩
  | error e =>
    obtain ⟨x, hm, he⟩ := mapM_error hr
    obtain ⟨y, hy⟩ := h x hm
    cases he.symm.trans hy

end GraphPlan
