namespace GraphPlan

/-- A map that keeps its entries in the order in which the keys first came in. A key that comes again keeps
its place and takes the new value. -/
@[ext] structure OrderedMap (κ α : Type) where
  entries : List (κ × α)
  distinct : (entries.map Prod.fst).Nodup

namespace OrderedMap

variable {κ α : Type} [DecidableEq κ]

def put (key : κ) (value : α) : List (κ × α) → List (κ × α)
  | [] => [(key, value)]
  | (k, v) :: rest => if k = key then (k, value) :: rest else (k, v) :: put key value rest

theorem keys_put (key : κ) (value : α) (entries : List (κ × α)) :
    (put key value entries).map Prod.fst =
      if key ∈ entries.map Prod.fst then entries.map Prod.fst else entries.map Prod.fst ++ [key] := by
  fun_induction put key value entries with
  | case1 => simp
  | case2 => simp
  | case3 k v rest hne ih =>
    have hk : key ≠ k := fun h => hne h.symm
    simp only [List.map_cons, ih, List.mem_cons, hk, false_or]
    split <;> simp

theorem put_distinct (key : κ) (value : α) {entries : List (κ × α)}
    (h : (entries.map Prod.fst).Nodup) : ((put key value entries).map Prod.fst).Nodup := by
  rw [keys_put]
  split
  · exact h
  · next hm => exact List.nodup_append.mpr ⟨h, by simp, by grind⟩

theorem put_of_notMem {key : κ} {entries : List (κ × α)} (h : key ∉ entries.map Prod.fst)
    (value : α) : put key value entries = entries ++ [(key, value)] := by
  induction entries with
  | nil => rfl
  | cons e rest ih =>
    have he : e.1 ≠ key := fun he => h (by simp [he])
    have hr : key ∉ rest.map Prod.fst := fun hm => h (List.mem_cons_of_mem _ hm)
    rw [put, if_neg he, ih hr, List.cons_append]

def empty : OrderedMap κ α := ⟨[], List.nodup_nil⟩

def insert (m : OrderedMap κ α) (key : κ) (value : α) : OrderedMap κ α :=
  ⟨put key value m.entries, put_distinct key value m.distinct⟩

/-- A new key comes last. -/
theorem entries_insert_of_notMem {m : OrderedMap κ α} {key : κ} (h : key ∉ m.entries.map Prod.fst)
    (value : α) : (m.insert key value).entries = m.entries ++ [(key, value)] :=
  put_of_notMem h value

def ofList (entries : List (κ × α)) : OrderedMap κ α :=
  entries.foldl (fun m (key, value) => m.insert key value) empty

/-- Take over the entries of another map. -/
def extend (m n : OrderedMap κ α) : OrderedMap κ α :=
  n.entries.foldl (fun m (key, value) => m.insert key value) m

def get? (m : OrderedMap κ α) (key : κ) : Option α :=
  (m.entries.find? fun e => e.1 = key).map Prod.snd

theorem entries_foldl_insert {entries : List (κ × α)} {m : OrderedMap κ α}
    (h : (m.entries.map Prod.fst ++ entries.map Prod.fst).Nodup) :
    (entries.foldl (fun m (key, value) => m.insert key value) m).entries = m.entries ++ entries := by
  induction entries generalizing m with
  | nil => simp
  | cons e rest ih =>
    have hnew : e.1 ∉ m.entries.map Prod.fst := fun hm =>
      (List.nodup_append.mp h).2.2 e.1 hm e.1 List.mem_cons_self rfl
    have hentries := entries_insert_of_notMem hnew e.2
    rw [List.foldl_cons, ih, hentries, List.append_assoc, List.singleton_append]
    rw [hentries, List.map_append, List.append_assoc]
    exact h

theorem get?_of_mem {m : OrderedMap κ α} {key : κ} {value : α} (h : (key, value) ∈ m.entries) :
    m.get? key = some value := by
  have hdistinct := m.distinct
  unfold get?
  generalize m.entries = entries at h hdistinct
  induction entries with
  | nil => cases h
  | cons e rest ih =>
    rcases List.mem_cons.mp h with he | hm
    · rw [← he, List.find?_cons_of_pos (by simp), Option.map_some]
    · have hne : e.1 ≠ key := fun he =>
        (List.nodup_cons.mp hdistinct).1 (he ▸ List.mem_map_of_mem hm)
      rw [List.find?_cons_of_neg (by simpa using hne)]
      exact ih hm (List.nodup_cons.mp hdistinct).2

def contains (m : OrderedMap κ α) (key : κ) : Bool := (m.entries.map Prod.fst).contains key

end OrderedMap

end GraphPlan
