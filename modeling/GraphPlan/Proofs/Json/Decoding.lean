import GraphPlan.Json.Literal
import GraphPlan.Location
import Mathlib.Data.List.Forall2

/-!
What a decoder makes of the document of a value, given how many brackets it may open.

A decoder that is right for a value reads it exactly where there is room for its brackets (`Reads`). The
ways in which decoders are put together keep this, because the room that a whole needs is the greatest that
one of its parts needs, and one more for the brackets around them.
-/

namespace GraphPlan

open Document (ofJson ofItems ofJsonMembers)

namespace Decoder

variable {α β : Type}

/-- A result that needs so many brackets, where so many may be opened. -/
def within (need depth : Nat) (x : α) : Option α := if need ≤ depth then some x else none

@[simp] theorem within_zero (depth : Nat) (x : α) : within 0 depth x = some x :=
  if_pos (Nat.zero_le depth)

@[simp] theorem within_succ_zero (need : Nat) (x : α) : within (need + 1) 0 x = none :=
  if_neg (Nat.not_succ_le_zero need)

@[simp] theorem within_succ (need depth : Nat) (x : α) :
    within (need + 1) (depth + 1) x = within need depth x := by
  simp [within]

theorem map_within (need depth : Nat) (x : α) (f : α → β) :
    (within need depth x).map f = within need depth (f x) := by
  unfold within
  split <;> rfl

/-- Two parts need the room of the one that needs more. -/
theorem bind_within {need more depth : Nat} {x : α} {y : β} {f : α → Option β}
    (h : f x = within more depth y) : (within need depth x).bind f = within (max need more) depth y := by
  unfold within at *
  by_cases hn : need ≤ depth
  · by_cases hm : more ≤ depth
    · rw [if_pos hn, if_pos (Nat.max_le.mpr ⟨hn, hm⟩)]
      rwa [if_pos hm] at h
    · have hmax : ¬ max need more ≤ depth := fun hle => hm (Nat.max_le.mp hle).2
      rw [if_pos hn, if_neg hmax]
      rwa [if_neg hm] at h
  · have hmax : ¬ max need more ≤ depth := fun hle => hn (Nat.max_le.mp hle).1
    rw [if_neg hn, if_neg hmax]
    rfl

/-- The value is read where there is room for the brackets of its text, and is refused elsewhere. -/
def Reads (decode : Decoder α) (j : Json) (x : α) : Prop :=
  ∀ depth, decode depth (ofJson j) = within j.depth depth x

theorem reads_text (s : String) : Reads text (.text s) s := by
  intro depth
  exact (within_zero depth s).symm

theorem reads_bool (b : Bool) : Reads bool (.bool b) b := by
  intro depth
  exact (within_zero depth b).symm

theorem reads_word (w : UInt32) : Reads word (.word w) w := by
  intro depth
  have hlt : (w.toNat : Int) < 0x100000000 := by
    have := w.toNat_lt
    omega
  have hw : word depth (ofJson (.word w)) = some w := by
    simp [Json.word, ofJson, word, ExactInt.ofWord, hlt]
  rw [hw]
  exact (within_zero depth w).symm

theorem reads_tag {value? : String → Option α} {name : String} {x : α} (h : value? name = some x) :
    Reads (tag value?) (.text name) x := by
  intro depth
  have ht : tag value? depth (ofJson (.text name)) = value? name := by
    simp [ofJson, tag]
  rw [ht, h]
  exact (within_zero depth x).symm

theorem Reads.map {decode : Decoder α} {j : Json} {x : α} (h : Reads decode j x) (f : α → β) :
    Reads (fun depth d => (decode depth d).map f) j (f x) := by
  intro depth
  dsimp only
  rw [h depth, map_within]

theorem mapM_ofItems {decode : Decoder α} {js : List Json} {xs : List α}
    (h : List.Forall₂ (Reads decode) js xs) (depth : Nat) :
    (ofItems js).mapM (decode depth) = within (Json.depthItems js) depth xs := by
  induction h with
  | nil => exact (within_zero depth []).symm
  | @cons j x js xs hj hjs ih =>
    rw [ofItems, List.mapM_cons, hj depth, ih, Json.depthItems]
    apply bind_within
    rw [← map_within _ _ xs (x :: ·), Option.map_eq_bind]
    rfl

theorem mapM_ofJsonMembers {decode : Decoder α} {ms : List (String × Json)} {es : List (String × α)}
    (h : List.Forall₂ (fun m e => m.1 = e.1 ∧ Reads decode m.2 e.2) ms es) (depth : Nat) :
    (ofJsonMembers ms).mapM (fun m => (decode depth m.2).map (m.1, ·)) =
      within (Json.depthMembers ms) depth es := by
  induction h with
  | nil => exact (within_zero depth []).symm
  | @cons m e ms es hm hms ih =>
    obtain ⟨key, j⟩ := m
    obtain ⟨key', x⟩ := e
    obtain ⟨rfl, hj⟩ : key = key' ∧ Reads decode j x := hm
    rw [ofJsonMembers, List.mapM_cons, hj depth, ih, Json.depthMembers, map_within]
    apply bind_within
    rw [← map_within _ _ es ((key, x) :: ·), Option.map_eq_bind]
    rfl

theorem reads_list {decode : Decoder α} {js : List Json} {xs : List α}
    (h : List.Forall₂ (Reads decode) js xs) : Reads (list decode) (.array js) xs := by
  intro depth
  rw [ofJson, Json.depth]
  cases depth with
  | zero => rw [within_succ_zero, list]; simp
  | succ depth => rw [within_succ, list, mapM_ofItems h]

theorem reads_pair {first : Decoder α} {second : Decoder β} {i j : Json} {x : α} {y : β}
    (hx : Reads first i x) (hy : Reads second j y) : Reads (pair first second) (.array [i, j]) (x, y) := by
  intro depth
  rw [ofJson, Json.depth]
  cases depth with
  | zero => rw [within_succ_zero, ofItems, ofItems, ofItems, pair]; simp
  | succ depth =>
    rw [within_succ, ofItems, ofItems, ofItems, pair, hx depth, hy depth, Json.depthItems,
      Json.depthItems, Json.depthItems]
    apply bind_within
    apply bind_within
    exact (within_zero depth _).symm

theorem reads_members {decode : Decoder α} {ms : List (String × Json)} {es : List (String × α)}
    (h : List.Forall₂ (fun m e => m.1 = e.1 ∧ Reads decode m.2 e.2) ms es) :
    Reads (members decode) (.object ms) es := by
  intro depth
  rw [ofJson, Json.depth]
  cases depth with
  | zero => rw [within_succ_zero, members]; simp
  | succ depth =>
    rw [within_succ, members]
    exact mapM_ofJsonMembers h depth

theorem map_fst_ofJsonMembers (ms : List (String × Json)) :
    (ofJsonMembers ms).map Prod.fst = ms.map Prod.fst := by
  induction ms with
  | nil => rfl
  | cons m ms ih =>
    rw [ofJsonMembers, List.map_cons, List.map_cons, ih]

/-- An object that has the declared fields and no others gives all of them. -/
theorem fields_ofJson {names : List String} {ms : List (String × Json)}
    (hnames : ms.map Prod.fst = names) (hn : names.Nodup) :
    (ofJson (.object ms)).fields names false = some (ofJsonMembers ms) := by
  have hall : (ofJsonMembers ms).filter (fun m => names.contains m.1) = ofJsonMembers ms := by
    apply List.filter_eq_self.mpr
    intro m hm
    have hkey : m.1 ∈ (ofJsonMembers ms).map Prod.fst := List.mem_map_of_mem hm
    rw [map_fst_ofJsonMembers, hnames] at hkey
    simpa using hkey
  have hnodup : ((ofJsonMembers ms).map Prod.fst).Nodup := by
    rw [map_fst_ofJsonMembers, hnames]
    exact hn
  rw [ofJson, Document.fields]
  simp only [hall]
  rw [if_pos ⟨hnodup, by simp⟩]

theorem reads_record {names : List String} {build : Fields → Nat → Option α}
    {ms : List (String × Json)} {x : α} (hnames : ms.map Prod.fst = names) (hn : names.Nodup)
    (h : ∀ depth, build (ofJsonMembers ms) depth = within (Json.depthMembers ms) depth x) :
    Reads (record names build) (.object ms) x := by
  intro depth
  rw [Json.depth]
  cases depth with
  | zero => rw [within_succ_zero, record]
  | succ depth =>
    rw [within_succ, record, fields_ofJson hnames hn]
    exact h depth

/-- The field by this name is the document of the value. -/
def HasField (fields : Fields) (name : String) (j : Json) : Prop := fields.get? name = some (ofJson j)

section Fields

variable {fields : Fields} {name : String} {decode : Decoder α} {j : Json} {x : α} {depth more : Nat}
  {f : α → Option β} {y : β}

theorem required_eq (hg : HasField fields name j) (hr : Reads decode j x) (depth : Nat) :
    fields.required name (decode depth) = within j.depth depth x := by
  rw [Fields.required, hg]
  exact hr depth

/-- A field that must be there, and what is made of it with the rest. -/
theorem bind_required (hg : HasField fields name j) (hr : Reads decode j x)
    (h : f x = within more depth y) :
    (fields.required name (decode depth)).bind f = within (max j.depth more) depth y := by
  rw [required_eq hg hr]
  exact bind_within h

theorem bind_optional (hg : HasField fields name j) (hr : Reads decode j x) {default : α}
    (h : f x = within more depth y) :
    (fields.optional name (decode depth) default).bind f = within (max j.depth more) depth y := by
  have ho : fields.optional name (decode depth) default = within j.depth depth x := by
    rw [Fields.optional, hg]
    exact hr depth
  rw [ho]
  exact bind_within h

end Fields

/-- A record of one field. -/
theorem reads_single {name : String} {decode : Decoder α} {j : Json} {x : α} (hr : Reads decode j x)
    (f : α → β) :
    Reads (record [name] fun fields depth => (fields.required name (decode depth)).map f)
      (.object [(name, j)]) (f x) := by
  apply reads_record rfl (by simp)
  intro depth
  have hg : HasField (ofJsonMembers [(name, j)]) name j := by
    simp [HasField, Fields.get?, ofJsonMembers]
  rw [required_eq hg hr, map_within, Json.depthMembers, Json.depthMembers, Nat.max_zero]

/-- An alternative with a payload is one bracket around its payload. -/
theorem reads_alternative {decode payload : Decoder α} {name : String} {j : Json} {x : α}
    (hr : Reads payload j x) (hzero : ∀ d, decode 0 (.object [(name, d)]) = none)
    (hsucc : ∀ depth d, decode (depth + 1) (.object [(name, d)]) = payload depth d) :
    Reads decode (.object [(name, j)]) x := by
  intro depth
  rw [ofJson, ofJsonMembers, ofJsonMembers, Json.depth, Json.depthMembers, Json.depthMembers,
    Nat.max_zero]
  cases depth with
  | zero => rw [within_succ_zero, hzero]
  | succ depth => rw [within_succ, hsucc, hr depth]

end Decoder

end GraphPlan
