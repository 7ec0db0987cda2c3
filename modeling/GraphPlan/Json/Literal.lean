import GraphPlan.Json.Decoder

namespace GraphPlan

namespace Json

mutual

/-- Every object inside has strictly increasing keys. -/
def Sorted : Json → Prop
  | array items => SortedItems items
  | object members => (members.map Prod.fst).Pairwise (· < ·) ∧ SortedMembers members
  | _ => True

def SortedItems : List Json → Prop
  | [] => True
  | j :: js => Sorted j ∧ SortedItems js

def SortedMembers : List (String × Json) → Prop
  | [] => True
  | (_, j) :: members => Sorted j ∧ SortedMembers members

end

theorem sortedItems_iff {items : List Json} : SortedItems items ↔ ∀ j ∈ items, Sorted j := by
  induction items with
  | nil => simp [SortedItems]
  | cons j js ih => simp [SortedItems, ih]

theorem sortedMembers_iff {members : List (String × Json)} :
    SortedMembers members ↔ ∀ m ∈ members, Sorted m.2 := by
  induction members with
  | nil => simp [SortedMembers]
  | cons m ms ih => obtain ⟨key, j⟩ := m; simp [SortedMembers, ih]

/-- Put a member into an increasing row of members; the value of a key already there is replaced. -/
def insertMember (key : String) (j : Json) : List (String × Json) → List (String × Json)
  | [] => [(key, j)]
  | (k, v) :: ms =>
    if key < k then (key, j) :: (k, v) :: ms
    else if k < key then (k, v) :: insertMember key j ms
    else (k, j) :: ms

theorem mem_insertMember {key : String} {j : Json} {ms : List (String × Json)} {m : String × Json}
    (h : m ∈ insertMember key j ms) : m.2 = j ∨ m ∈ ms := by
  fun_induction insertMember key j ms with
  | case1 => simp_all
  | case2 k v ms _ =>
    rcases List.mem_cons.mp h with rfl | h
    · exact .inl rfl
    · exact .inr h
  | case3 k v ms _ _ ih =>
    rcases List.mem_cons.mp h with rfl | h
    · exact .inr (List.mem_cons_self ..)
    · exact (ih h).imp_right (List.mem_cons_of_mem _)
  | case4 k v ms _ _ =>
    rcases List.mem_cons.mp h with rfl | h
    · exact .inl rfl
    · exact .inr (List.mem_cons_of_mem _ h)

theorem key_insertMember {key x : String} {j : Json} {ms : List (String × Json)}
    (h : x ∈ (insertMember key j ms).map Prod.fst) : x = key ∨ x ∈ ms.map Prod.fst := by
  fun_induction insertMember key j ms with
  | case1 => simpa using h
  | case2 => simpa using h
  | case3 k v ms _ _ ih =>
    rcases List.mem_cons.mp h with rfl | h
    · exact .inr (by simp)
    · exact (ih h).imp_right fun h => by simp [h]
  | case4 => exact .inr (by simpa using h)

theorem insertMember_increasing (key : String) (j : Json) {ms : List (String × Json)}
    (h : (ms.map Prod.fst).Pairwise (· < ·)) :
    ((insertMember key j ms).map Prod.fst).Pairwise (· < ·) := by
  fun_induction insertMember key j ms with
  | case1 => simp
  | case2 k v ms hlt =>
    refine List.pairwise_cons.mpr ⟨?_, h⟩
    intro x hx
    rcases List.mem_cons.mp hx with rfl | hx
    · exact hlt
    · exact String.lt_trans hlt (List.rel_of_pairwise_cons h hx)
  | case3 k v ms _ hlt ih =>
    obtain ⟨hk, hms⟩ := List.pairwise_cons.mp h
    refine List.pairwise_cons.mpr ⟨?_, ih hms⟩
    intro x hx
    rcases key_insertMember hx with rfl | hx
    · exact hlt
    · exact hk x hx
  | case4 => exact h

/-- Members by increasing key; of several under one key the last counts. -/
def sortMembers (ms : List (String × Json)) : List (String × Json) :=
  ms.foldl (fun sorted (key, j) => insertMember key j sorted) []

theorem sortMembers_sorted {ms : List (String × Json)} (h : ∀ m ∈ ms, Sorted m.2) :
    Sorted (.object (sortMembers ms)) := by
  suffices hs : ∀ acc : List (String × Json), (acc.map Prod.fst).Pairwise (· < ·) →
      (∀ m ∈ acc, Sorted m.2) → Sorted (.object
        (ms.foldl (fun sorted (key, j) => insertMember key j sorted) acc)) from
    hs [] (by simp) (by simp)
  induction ms with
  | nil =>
    intro acc hinc hacc
    exact ⟨hinc, sortedMembers_iff.mpr hacc⟩
  | cons m ms ih =>
    intro acc hinc hacc
    have hm := h m (List.mem_cons_self ..)
    refine ih (fun m hm => h m (List.mem_cons_of_mem _ hm)) _ (insertMember_increasing _ _ hinc) ?_
    intro x hx
    rcases mem_insertMember hx with he | hx
    · rwa [he]
    · exact hacc x hx

/-- The constant that a document spells, within a number of nested brackets. -/
def ofDocument : Nat → Document → Option Json
  | _, .null => some .null
  | _, .bool b => some (.bool b)
  | _, .number n => some (.number n)
  | _, .text s => some (.text s)
  | depth + 1, .array items => (items.mapM (ofDocument depth)).map .array
  | depth + 1, .object members =>
    (members.mapM fun m => (ofDocument depth m.2).map (m.1, ·)).map
      fun ms => .object (sortMembers ms)
  | _, _ => none

theorem forall_of_mapM {α β : Type} {f : α → Option β} {p : β → Prop} {xs : List α} {ys : List β}
    (h : xs.mapM f = some ys) (hp : ∀ x y, f x = some y → p y) : ∀ y ∈ ys, p y := by
  induction xs generalizing ys with
  | nil => simp_all
  | cons x xs ih =>
    simp only [List.mapM_cons, Option.bind_eq_bind, Option.bind_eq_some_iff] at h
    obtain ⟨y, hy, ys', hys, he⟩ := h
    cases he
    intro z hz
    rcases List.mem_cons.mp hz with rfl | hz
    · exact hp x z hy
    · exact ih hys z hz

theorem ofDocument_sorted {depth : Nat} {d : Document} {j : Json}
    (h : ofDocument depth d = some j) : Sorted j := by
  induction depth generalizing d j with
  | zero => cases d <;> simp_all [ofDocument] <;> subst h <;> simp [Sorted]
  | succ depth ih =>
    cases d with
    | array items =>
      obtain ⟨js, hjs, rfl⟩ := Option.map_eq_some_iff.mp h
      exact sortedItems_iff.mpr (forall_of_mapM hjs fun _ _ => ih)
    | object members =>
      obtain ⟨ms, hms, rfl⟩ := Option.map_eq_some_iff.mp h
      refine sortMembers_sorted (forall_of_mapM hms ?_)
      intro m n hn
      obtain ⟨j, hj, rfl⟩ := Option.map_eq_some_iff.mp hn
      exact ih hj
    | _ => simp_all [ofDocument] <;> subst h <;> simp [Sorted]

end Json

structure Literal where
  json : Json
  sorted : json.Sorted

namespace Literal

def decode : Decoder Literal := fun depth d =>
  match h : Json.ofDocument depth d with
  | some j => some ⟨j, Json.ofDocument_sorted h⟩
  | none => none

def render (l : Literal) : String := l.json.render

end Literal

end GraphPlan
