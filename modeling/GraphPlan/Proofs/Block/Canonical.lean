import GraphPlan.Proofs.Block.RoundTrip

/-!
A stream that was read once can be written and read again, however it was spelled.

One value has many documents, but one text that it is written as. A decoder opens a bracket for each that the
text has, whatever the document looks like, so the text is never nested deeper than what was read
(`LeavesRoom`). It is then read back wherever the document was read.
-/

namespace GraphPlan

namespace Json

@[simp] theorem depth_text (s : String) : (text s).depth = 0 := rfl

@[simp] theorem depth_flag (name : String) (b : Bool) : (flag name b).2.depth = 0 := rfl

@[simp] theorem depth_word (w : UInt32) : (word w).depth = 0 := rfl

@[simp] theorem depth_direction (d : Direction) : d.toJson.depth = 0 := rfl

theorem depthItems_le_iff {items : List Json} {n : Nat} :
    depthItems items ≤ n ↔ ∀ j ∈ items, j.depth ≤ n := by
  induction items with
  | nil => simp [depthItems]
  | cons j js ih => rw [depthItems, Nat.max_le, ih, List.forall_mem_cons]

theorem depthMembers_le_iff {members : List (String × Json)} {n : Nat} :
    depthMembers members ≤ n ↔ ∀ m ∈ members, m.2.depth ≤ n := by
  induction members with
  | nil => simp [depthMembers]
  | cons m ms ih => rw [depthMembers, Nat.max_le, ih, List.forall_mem_cons]

theorem depth_array_le {items : List Json} {n : Nat} (h : ∀ j ∈ items, j.depth ≤ n) :
    (array items).depth ≤ n + 1 := by
  rw [depth]
  exact Nat.succ_le_succ (depthItems_le_iff.mpr h)

theorem depth_object_le {members : List (String × Json)} {n : Nat} (h : ∀ m ∈ members, m.2.depth ≤ n) :
    (object members).depth ≤ n + 1 := by
  rw [depth]
  exact Nat.succ_le_succ (depthMembers_le_iff.mpr h)

theorem depth_alternative_le {name : String} {j : Json} {n : Nat} (h : j.depth ≤ n) :
    (object [(name, j)]).depth ≤ n + 1 := by
  apply depth_object_le
  simpa using h

end Json

namespace Decoder

variable {α β : Type}

/-- Where a value is read there is room for the brackets of the text that it is written as. -/
def LeavesRoom (decode : Decoder α) (toJson : α → Json) : Prop :=
  ∀ ⦃depth d x⦄, decode depth d = some x → (toJson x).depth ≤ depth

theorem leavesRoom_list {decode : Decoder α} {toJson : α → Json} (h : LeavesRoom decode toJson) :
    LeavesRoom (list decode) fun xs => .array (xs.map toJson) := by
  intro depth d xs hd
  unfold list at hd
  split at hd
  · apply Json.depth_array_le
    rw [List.forall_mem_map]
    exact Json.forall_of_mapM hd fun _ _ hx => h hx
  · cases hd

theorem leavesRoom_pair {first : Decoder α} {second : Decoder β} {i : α → Json} {j : β → Json}
    (hi : LeavesRoom first i) (hj : LeavesRoom second j) :
    LeavesRoom (pair first second) fun p => .array [i p.1, j p.2] := by
  intro depth d p hd
  unfold pair at hd
  split at hd
  · obtain ⟨x, hx, hd⟩ := Option.bind_eq_some_iff.mp hd
    obtain ⟨y, hy, hd⟩ := Option.bind_eq_some_iff.mp hd
    cases hd
    apply Json.depth_array_le
    simp [hi hx, hj hy]
  · cases hd

theorem LeavesRoom.of_members {decode : Decoder α} {toJson : α → Json} (h : LeavesRoom decode toJson)
    {depth : Nat} {d : Document} {entries : List (String × α)} (hd : members decode depth d = some entries) :
    ∃ room, depth = room + 1 ∧ ∀ e ∈ entries, (toJson e.2).depth ≤ room := by
  unfold members at hd
  split at hd
  · refine ⟨_, rfl, Json.forall_of_mapM hd ?_⟩
    intro m e he
    obtain ⟨x, hx, rfl⟩ := Option.map_eq_some_iff.mp he
    exact h hx
  · cases hd

theorem exists_of_record {names : List String} {build : Fields → Nat → Option α} {depth : Nat}
    {d : Document} {x : α} (h : record names build depth d = some x) :
    ∃ fields room, depth = room + 1 ∧ build fields room = some x := by
  cases depth with
  | zero => cases h
  | succ room =>
    obtain ⟨fields, -, hx⟩ := Option.bind_eq_some_iff.mp h
    exact ⟨fields, room, rfl, hx⟩

theorem LeavesRoom.required {decode : Decoder α} {toJson : α → Json} (h : LeavesRoom decode toJson)
    {fields : Fields} {name : String} {depth : Nat} {x : α}
    (hx : fields.required name (decode depth) = some x) : (toJson x).depth ≤ depth := by
  obtain ⟨d, -, hd⟩ := Option.bind_eq_some_iff.mp hx
  exact h hd

section

variable {toJson : α → Json}

/-- The payload of an alternative has room within the bracket of the alternative. -/
def LeavesRoomInside (payload : Decoder α) (toJson : α → Json) : Prop :=
  ∀ ⦃depth d x⦄, payload depth d = some x → (toJson x).depth ≤ depth + 1

theorem LeavesRoomInside.ite {c : Prop} [Decidable c] {yes no : Decoder α} (hyes : LeavesRoomInside yes toJson)
    (hno : LeavesRoomInside no toJson) : LeavesRoomInside (if c then yes else no) toJson := by
  split
  · exact hyes
  · exact hno

theorem leavesRoomInside_none : LeavesRoomInside (fun _ _ => none) toJson := by
  intro depth d x h
  cases h

theorem LeavesRoom.inside {payload : Decoder β} {inner : β → Json} (h : LeavesRoom payload inner)
    {name : String} {f : β → α} (hf : ∀ x, toJson (f x) = .object [(name, inner x)]) :
    LeavesRoomInside (fun depth d => (payload depth d).map f) toJson := by
  intro depth d y hy
  obtain ⟨x, hx, rfl⟩ := Option.map_eq_some_iff.mp hy
  rw [hf]
  exact Json.depth_alternative_le (h hx)

/-- A payload that is a record of one field. -/
theorem LeavesRoom.inside_single {decode : Decoder β} {inner : β → Json} (h : LeavesRoom decode inner)
    {name field : String} {f : β → α}
    (hf : ∀ x, toJson (f x) = .object [(name, .object [(field, inner x)])]) :
    LeavesRoomInside (record [field] fun fields room => (fields.required field (decode room)).map f)
      toJson := by
  intro depth d y hd
  obtain ⟨fields, room, rfl, hy⟩ := exists_of_record hd
  obtain ⟨x, hx, rfl⟩ := Option.map_eq_some_iff.mp hy
  rw [hf]
  exact Json.depth_alternative_le (Json.depth_alternative_le (h.required hx))

end

end Decoder

open Decoder

/-- A collection that takes entries one by one, moving or replacing others, has its values from them. -/
theorem mem_view_foldl {α β γ : Type} (view : β → List (α × γ)) (add : β → α × γ → β)
    (hadd : ∀ b x y, y ∈ view (add b x) → y.2 = x.2 ∨ y ∈ view b) (xs : List (α × γ)) (b : β) {y : α × γ}
    (h : y ∈ view (xs.foldl add b)) : (∃ x ∈ xs, x.2 = y.2) ∨ y ∈ view b := by
  induction xs generalizing b with
  | nil => exact .inr h
  | cons x xs ih =>
    rcases ih (add b x) h with ⟨z, hz, hzy⟩ | hy
    · exact .inl ⟨z, List.mem_cons_of_mem x hz, hzy⟩
    · rcases hadd b x y hy with hyx | hy
      · exact .inl ⟨x, List.mem_cons_self, hyx.symm⟩
      · exact .inr hy

namespace Json

theorem mem_sortMembers {ms : List (String × Json)} {m : String × Json} (h : m ∈ sortMembers ms) :
    ∃ n ∈ ms, n.2 = m.2 := by
  have hadd : ∀ (b : List (String × Json)) (x y : String × Json),
      y ∈ insertMember x.1 x.2 b → y.2 = x.2 ∨ y ∈ b := fun _ _ _ => mem_insertMember
  exact (mem_view_foldl id (fun b x => insertMember x.1 x.2 b) hadd ms [] h).resolve_right List.not_mem_nil

theorem leavesRoom_ofDocument : LeavesRoom ofDocument id := by
  intro depth
  induction depth with
  | zero =>
    intro d j h
    cases d <;> cases h <;> exact Nat.zero_le _
  | succ depth ih =>
    intro d j h
    cases d with
    | array items =>
      obtain ⟨js, hjs, rfl⟩ := Option.map_eq_some_iff.mp h
      exact depth_array_le (forall_of_mapM hjs fun _ _ hj => ih hj)
    | object members =>
      obtain ⟨ms, hms, rfl⟩ := Option.map_eq_some_iff.mp h
      have hall : ∀ m ∈ ms, m.2.depth ≤ depth := by
        refine forall_of_mapM hms ?_
        intro m n hn
        obtain ⟨j, hj, rfl⟩ := Option.map_eq_some_iff.mp hn
        exact ih hj
      apply depth_object_le
      intro m hm
      obtain ⟨n, hn, hnm⟩ := mem_sortMembers hm
      rw [← hnm]
      exact hall n hn
    | _ => cases h <;> exact Nat.zero_le _

end Json

theorem leavesRoom_literal : LeavesRoom Literal.decode Literal.json := by
  intro depth d l h
  rw [Literal.decode] at h
  split at h
  · next j hj =>
    cases h
    exact Json.leavesRoom_ofDocument hj
  · cases h

theorem leavesRoom_text : LeavesRoom text Json.text := fun _ _ _ _ => Nat.zero_le _

theorem leavesRoom_direction : LeavesRoom Direction.decode Direction.toJson := fun _ _ _ _ => Nat.zero_le _

theorem leavesRoom_texts : LeavesRoom (list text) Json.texts := leavesRoom_list leavesRoom_text

/-- A set of names is one bracket around them, however many were given twice. -/
theorem leavesRoom_nameSet : LeavesRoom NameSet.decode NameSet.toJson := by
  intro depth d s h
  obtain ⟨names, hnames, rfl⟩ := Option.map_eq_some_iff.mp h
  have hone : ∀ ss : List String, (Json.texts ss).depth = 1 := by
    intro ss
    have hflat : Json.depthItems (ss.map .text) = 0 :=
      Nat.le_zero.mp (Json.depthItems_le_iff.mpr (by simp))
    rw [Json.texts, Json.depth, hflat]
  have hdepth := leavesRoom_texts hnames
  rw [hone] at hdepth
  rw [NameSet.toJson, hone]
  exact hdepth

theorem leavesRoom_location : LeavesRoom Location.decode Location.toJson := by
  intro depth d l hd
  obtain ⟨fields, room, rfl, h⟩ := exists_of_record hd
  obtain ⟨path, hpath, h⟩ := Option.bind_eq_some_iff.mp h
  obtain ⟨visit, -, h⟩ := Option.bind_eq_some_iff.mp h
  cases h
  apply Json.depth_object_le
  simp [leavesRoom_texts.required hpath]

theorem leavesRoom_edges : LeavesRoom (list (pair Direction.decode text)) fun edges =>
    .array (edges.map FoldLocation.edgeJson) :=
  leavesRoom_list (leavesRoom_pair leavesRoom_direction leavesRoom_text)

theorem leavesRoom_foldLocation : LeavesRoom FoldLocation.decode FoldLocation.toJson := by
  intro depth d f hd
  obtain ⟨fields, room, rfl, h⟩ := exists_of_record hd
  obtain ⟨base, hbase, h⟩ := Option.bind_eq_some_iff.mp h
  obtain ⟨edges, hedges, h⟩ := Option.bind_eq_some_iff.mp h
  cases h
  apply Json.depth_object_le
  simp [leavesRoom_location.required hbase, leavesRoom_edges.required hedges]

theorem leavesRoom_traverse : LeavesRoom Traverse.decode Traverse.toJson := by
  intro depth d t hd
  obtain ⟨-, room, rfl, -⟩ := exists_of_record hd
  apply Json.depth_object_le
  simp

theorem leavesRoom_recurse : LeavesRoom Recurse.decode Recurse.toJson := by
  intro depth d r hd
  obtain ⟨-, room, rfl, -⟩ := exists_of_record hd
  apply Json.depth_object_le
  simp

namespace Expr

theorem leavesRoomInside_simple (name : String) : LeavesRoomInside (decodeSimple name) toJson := by
  refine .ite (leavesRoom_literal.inside fun _ => rfl) (.ite (leavesRoom_text.inside_single fun _ => rfl)
    (.ite (leavesRoom_text.inside_single fun _ => rfl) (.ite ?_
      (.ite (leavesRoom_location.inside_single fun _ => rfl) leavesRoomInside_none))))
  intro depth d e hd
  obtain ⟨fields, room, rfl, h⟩ := exists_of_record hd
  obtain ⟨location, hlocation, h⟩ := Option.bind_eq_some_iff.mp h
  obtain ⟨field, -, h⟩ := Option.bind_eq_some_iff.mp h
  cases h
  apply Json.depth_alternative_le
  apply Json.depth_object_le
  simp [leavesRoom_location.required hlocation]

theorem exists_of_decode {depth : Nat} {d : Document} {e : Expr} (h : decode depth d = some e) :
    ∃ room name payload, depth = room + 1 ∧ d = .object [(name, payload)] := by
  unfold decode at h
  split at h
  · exact ⟨_, _, _, rfl, rfl⟩
  · cases h

theorem leavesRoom : LeavesRoom decode toJson := by
  intro depth
  -- a negation takes one bracket and a composition two
  induction depth using Nat.strongRecOn with
  | ind depth ih =>
    intro d e h
    obtain ⟨room, name, payload, rfl, rfl⟩ := exists_of_decode h
    rw [decode_succ] at h
    split_ifs at h
    · obtain ⟨inner, hinner, rfl⟩ := Option.map_eq_some_iff.mp h
      exact Json.depth_alternative_le (ih room (Nat.lt_succ_self room) hinner)
    · obtain ⟨fields, room, rfl, hbinary⟩ := exists_of_record h
      obtain ⟨op, -, h⟩ := Option.bind_eq_some_iff.mp hbinary
      obtain ⟨left, hleft, h⟩ := Option.bind_eq_some_iff.mp h
      obtain ⟨right, hright, h⟩ := Option.bind_eq_some_iff.mp h
      cases h
      obtain ⟨dl, -, hleft⟩ := Option.bind_eq_some_iff.mp hleft
      obtain ⟨dr, -, hright⟩ := Option.bind_eq_some_iff.mp hright
      have hl := ih room (by omega) hleft
      have hr := ih room (by omega) hright
      apply Json.depth_alternative_le
      apply Json.depth_object_le
      simp [hl, hr]
    · exact leavesRoomInside_simple name h

end Expr

theorem OrderedMap.mem_ofList {κ α : Type} [DecidableEq κ] {entries : List (κ × α)} {e : κ × α}
    (h : e ∈ (ofList entries).entries) : ∃ n ∈ entries, n.2 = e.2 := by
  have hput : ∀ (key : κ) (value : α) (entries : List (κ × α)) (e : κ × α),
      e ∈ put key value entries → e.2 = value ∨ e ∈ entries := by
    intro key value entries e hm
    fun_induction put key value entries with
    | case1 => exact .inl (by simp_all)
    | case2 v rest =>
      rcases List.mem_cons.mp hm with rfl | hm
      · exact .inl rfl
      · exact .inr (List.mem_cons_of_mem _ hm)
    | case3 k v rest _ ih =>
      rcases List.mem_cons.mp hm with rfl | hm
      · exact .inr List.mem_cons_self
      · exact (ih hm).imp_right (List.mem_cons_of_mem _)
  have hadd : ∀ (m : OrderedMap κ α) (x y : κ × α), y ∈ (m.insert x.1 x.2).entries →
      y.2 = x.2 ∨ y ∈ m.entries := fun m x y => hput x.1 x.2 m.entries y
  exact (mem_view_foldl OrderedMap.entries (fun m x => m.insert x.1 x.2) hadd entries empty h).resolve_right
    List.not_mem_nil

namespace Block

theorem leavesRoom_outputs : LeavesRoom (members Expr.decode) fun entries => outputsJson (.ofList entries) := by
  intro depth d entries h
  obtain ⟨room, rfl, hall⟩ := Expr.leavesRoom.of_members h
  apply Json.depth_object_le
  rw [List.forall_mem_map]
  intro e he
  obtain ⟨n, hn, hne⟩ := OrderedMap.mem_ofList he
  have hdepth := hall n hn
  rw [hne] at hdepth
  exact hdepth

theorem leavesRoomInside_payload (name : String) : LeavesRoomInside (decodePayload name) toJson := by
  refine .ite (leavesRoom_nameSet.inside_single fun _ => rfl) (.ite (leavesRoom_traverse.inside fun _ => rfl)
    (.ite (leavesRoom_recurse.inside fun _ => rfl) (.ite ?_ (.ite (leavesRoom_location.inside_single fun _ => rfl)
      (.ite (leavesRoom_nameSet.inside_single fun _ => rfl) (.ite (Expr.leavesRoom.inside_single fun _ => rfl)
        (.ite (leavesRoom_foldLocation.inside_single fun _ => rfl)
          (.ite (leavesRoom_outputs.inside_single fun _ => rfl) leavesRoomInside_none))))))))
  intro depth d b hd
  obtain ⟨fields, room, rfl, h⟩ := exists_of_record hd
  obtain ⟨location, hlocation, h⟩ := Option.bind_eq_some_iff.mp h
  obtain ⟨optional, -, h⟩ := Option.bind_eq_some_iff.mp h
  cases h
  apply Json.depth_alternative_le
  apply Json.depth_object_le
  simp [leavesRoom_location.required hlocation]

theorem depth_of_ofName? {name : String} {b : Block} (h : ofName? name = some b) : b.toJson.depth = 0 := by
  unfold ofName? at h
  split_ifs at h <;> cases h <;> rfl

theorem leavesRoom : LeavesRoom decode toJson := by
  intro depth d b h
  unfold decode at h
  split at h
  · rw [depth_of_ofName? h]
    exact Nat.zero_le _
  · next depth name payload =>
    cases hname : ofName? name with
    | none =>
      rw [hname] at h
      exact leavesRoomInside_payload name h
    | some block =>
      rw [hname] at h
      cases payload <;> cases h
      rw [depth_of_ofName? hname]
      exact Nat.zero_le _
  · cases h

/-- The text of a stream that was read is read as the same stream, however deep it is nested, and the stream
is then written as that text again. -/
theorem readAll_renderJson_of_readAll {t : String} {blocks : List Block} (h : readAll t = some blocks)
    (hexact : ∀ b ∈ blocks, b.Exact) :
    readAll (renderJson blocks) = some blocks ∧
      (readAll (renderJson blocks)).map renderJson = some (renderJson blocks) := by
  have hdepth : (Json.array (blocks.map toJson)).depth ≤ nestingLimit := by
    obtain ⟨d, -, hd⟩ := Option.bind_eq_some_iff.mp h
    exact leavesRoom_list leavesRoom hd
  have hread : readAll (renderJson blocks) = some blocks := by
    rw [renderJson, readAll, Decoder.run, Document.ofText_render (exact_stream hexact), Option.bind_some,
      reads_stream blocks nestingLimit, within, if_pos hdepth]
  refine ⟨hread, ?_⟩
  rw [hread, Option.map_some]

/-- A stream in another spelling: records as arrays, fields that are left out or not known, a block and a
direction with nothing for a payload, and a name, a key and an output that come twice. -/
def looseSpelling : Json :=
  .array [
    .object [("QueryRoot", .array [.texts ["b", "a", "b"]])],
    .object [("Traverse", .object [("edge_name", .text "\n"), ("note", .array [.array []]),
      ("direction", .object [("in", .null)])])],
    .object [("Filter", .array [.object [("Literal",
      .object [("k", .null), ("a", .array [.word 1]), ("k", .bool true)])]])],
    .object [("ConstructResult", .object [("fields", .object [
      ("x", .object [("Variable", .array [.text "p"])]),
      ("x", .object [("LocalField", .array [.text "q"])])])])],
    .object [("Unfold", .null)]]

def looseConstant : Literal where
  json := .object [("a", .array [.word 1]), ("k", .bool true)]
  sorted := by
    refine ⟨?_, ?_⟩
    · decide
    · simp [Json.SortedMembers, Json.Sorted, Json.SortedItems, Json.word]

def looseStream : List Block :=
  [.queryRoot ⟨["a", "b"], by decide⟩, .traverse ⟨.inward, "\n", false, false⟩,
    .filter (.literal looseConstant), .constructResult ⟨[("x", .localField "q")], by decide⟩, .unfold]

theorem readAll_renderJson_of_readAll_loose :
    readAll looseSpelling.render = some looseStream ∧ (∀ b ∈ looseStream, b.Exact) ∧
      readAll (renderJson looseStream) = some looseStream := by
  have hexact : looseSpelling.Exact := by
    simp [looseSpelling, Json.texts, Json.word, Json.Exact, Json.ExactItems, Json.ExactMembers]
  have hread : readAll looseSpelling.render = some looseStream := by
    rw [readAll, Decoder.run, Document.ofText_render hexact]
    rfl
  have hstream : ∀ b ∈ looseStream, b.Exact := by
    simp [looseStream, looseConstant, Block.Exact, Expr.Exact, Json.word, Json.Exact, Json.ExactItems,
      Json.ExactMembers]
  exact ⟨hread, hstream, (readAll_renderJson_of_readAll hread hstream).1⟩

end Block

end GraphPlan
