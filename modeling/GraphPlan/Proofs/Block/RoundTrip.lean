import GraphPlan.Block
import GraphPlan.Proofs.Json.Decoding
import GraphPlan.Proofs.Json.Nesting
import GraphPlan.Proofs.Json.Reading

namespace GraphPlan

/-- A collection that takes each of these entries at its end takes them all in their order. -/
theorem view_foldl {α β : Type} (view : β → List α) (add : β → α → β) (fits : List α → α → Prop)
    (hadd : ∀ b x, fits (view b) x → view (add b x) = view b ++ [x]) (xs : List α) (b : β)
    (h : ∀ front x back, xs = front ++ x :: back → fits (view b ++ front) x) :
    view (xs.foldl add b) = view b ++ xs := by
  induction xs generalizing b with
  | nil => simp
  | cons x xs ih =>
    have hx := hadd b x (by simpa using h [] x xs rfl)
    rw [List.foldl_cons, ih (add b x), hx, List.append_assoc, List.singleton_append]
    intro front y back he
    rw [hx, List.append_assoc, List.singleton_append]
    exact h (x :: front) y back (by rw [he, List.cons_append])

theorem rel_of_pairwise {α : Type} {R : α → α → Prop} {xs front back : List α} {x y : α}
    (h : xs.Pairwise R) (he : xs = front ++ x :: back) (hy : y ∈ front) : R y x := by
  subst he
  exact (List.pairwise_append.mp h).2.2 y hy x List.mem_cons_self

namespace NameSet

theorem eq_of_names {s t : NameSet} (h : s.names = t.names) : s = t := by
  cases s
  cases t
  cases h
  rfl

theorem insertName_of_lt {names : List String} {name : String} (h : ∀ n ∈ names, n < name) :
    insertName name names = names ++ [name] := by
  induction names with
  | nil => rfl
  | cons n names ih =>
    have hn := h n List.mem_cons_self
    have hrest := ih fun m hm => h m (List.mem_cons_of_mem n hm)
    rw [insertName, if_neg (String.lt_asymm hn), if_pos hn, hrest, List.cons_append]

theorem ofList_names (s : NameSet) : ofList s.names = s := by
  apply eq_of_names
  apply view_foldl names insert fun ns n => ∀ m ∈ ns, m < n
  · intro b x hx
    exact insertName_of_lt hx
  · intro front x back he m hm
    exact rel_of_pairwise s.increasing he hm

end NameSet

theorem OrderedMap.ofList_entries {κ α : Type} [DecidableEq κ] (m : OrderedMap κ α) :
    ofList m.entries = m := by
  apply OrderedMap.ext
  exact entries_foldl_insert m.distinct

namespace Json

theorem insertMember_of_lt {ms : List (String × Json)} {key : String} (j : Json)
    (h : ∀ m ∈ ms, m.1 < key) : insertMember key j ms = ms ++ [(key, j)] := by
  induction ms with
  | nil => rfl
  | cons m ms ih =>
    have hm := h m List.mem_cons_self
    have hrest := ih fun n hn => h n (List.mem_cons_of_mem m hn)
    rw [insertMember, if_neg (String.lt_asymm hm), if_pos hm, hrest, List.cons_append]

theorem sortMembers_of_sorted {ms : List (String × Json)} (h : (ms.map Prod.fst).Pairwise (· < ·)) :
    sortMembers ms = ms := by
  have hp : ms.Pairwise fun m n => m.1 < n.1 := List.pairwise_map.mp h
  apply view_foldl id (fun sorted m => insertMember m.1 m.2 sorted) fun ms m => ∀ n ∈ ms, n.1 < m.1
  · intro b x hx
    exact insertMember_of_lt x.2 hx
  · intro front x back he m hm
    have hlt := rel_of_pairwise hp he hm
    exact hlt

/-- A sorted constant is read as it is. -/
theorem reads_ofDocument {j : Json} (h : j.Sorted) : Decoder.Reads ofDocument j j := by
  induction j using inductionOn with
  | array items ih =>
    have heach : List.Forall₂ (Decoder.Reads ofDocument) items items := by
      rw [List.forall₂_same]
      intro j hj
      exact ih j hj (sortedItems_iff.mp h j hj)
    intro depth
    rw [Document.ofJson, Json.depth]
    cases depth with
    | zero => simp [ofDocument]
    | succ depth =>
      rw [Decoder.within_succ, ofDocument, Decoder.mapM_ofItems heach, Decoder.map_within]
  | object members ih =>
    have heach : List.Forall₂ (fun m e => m.1 = e.1 ∧ Decoder.Reads ofDocument m.2 e.2) members
        members := by
      rw [List.forall₂_same]
      intro m hm
      exact ⟨rfl, ih m hm (sortedMembers_iff.mp h.2 m hm)⟩
    intro depth
    rw [Document.ofJson, Json.depth]
    cases depth with
    | zero => simp [ofDocument]
    | succ depth =>
      rw [Decoder.within_succ, ofDocument, Decoder.mapM_ofJsonMembers heach, Decoder.map_within,
        sortMembers_of_sorted h.1]
  | _ =>
    intro depth
    rw [Document.ofJson, ofDocument]
    exact (Decoder.within_zero depth _).symm

end Json

open Decoder

theorem reads_literal (l : Literal) : Reads Literal.decode l.json l := by
  intro depth
  have hd := Json.reads_ofDocument l.sorted depth
  rw [Literal.decode]
  split
  · next j hj =>
    rw [hj] at hd
    by_cases hle : l.json.depth ≤ depth
    · rw [within, if_pos hle] at hd
      rw [within, if_pos hle]
      cases hd
      rfl
    · rw [within, if_neg hle] at hd
      cases hd
  · next hj =>
    rw [hj] at hd
    by_cases hle : l.json.depth ≤ depth
    · rw [within, if_pos hle] at hd
      cases hd
    · rw [within, if_neg hle]

theorem reads_direction (d : Direction) : Reads Direction.decode d.toJson d := by
  apply reads_tag
  cases d <;> rfl

theorem reads_texts (ss : List String) : Reads (list text) (.texts ss) ss := by
  apply reads_list
  rw [List.forall₂_map_left_iff, List.forall₂_same]
  intro s _
  exact reads_text s

theorem reads_nameSet (s : NameSet) : Reads NameSet.decode s.toJson s := by
  have h := (reads_texts s.names).map NameSet.ofList
  rwa [NameSet.ofList_names] at h

theorem reads_location (l : Location) : Reads Location.decode l.toJson l := by
  apply reads_record
  · rfl
  · decide
  · intro depth
    refine bind_required ?_ (reads_texts l.path) (bind_required ?_ (reads_word l.visit) ?_)
    · rfl
    · rfl
    · exact (within_zero depth l).symm

theorem reads_edges (edges : List (Direction × String)) :
    Reads (list (pair Direction.decode text)) (.array (edges.map FoldLocation.edgeJson)) edges := by
  apply reads_list
  rw [List.forall₂_map_left_iff, List.forall₂_same]
  intro edge _
  exact reads_pair (reads_direction edge.1) (reads_text edge.2)

theorem reads_foldLocation (f : FoldLocation) : Reads FoldLocation.decode f.toJson f := by
  apply reads_record
  · rfl
  · decide
  · intro depth
    refine bind_required ?_ (reads_location f.base) (bind_required ?_ (reads_edges f.edges) ?_)
    · rfl
    · rfl
    · exact (within_zero depth f).symm

theorem reads_traverse (t : Traverse) : Reads Traverse.decode t.toJson t := by
  apply reads_record
  · rfl
  · decide
  · intro depth
    refine bind_required ?_ (reads_direction t.direction) (bind_required ?_ (reads_text t.edge)
      (bind_optional ?_ (reads_bool t.optional) (bind_optional ?_ (reads_bool t.withinOptional) ?_)))
    · rfl
    · rfl
    · rfl
    · rfl
    · exact (within_zero depth t).symm

theorem reads_recurse (r : Recurse) : Reads Recurse.decode r.toJson r := by
  apply reads_record
  · rfl
  · decide
  · intro depth
    refine bind_required ?_ (reads_direction r.direction) (bind_required ?_ (reads_text r.edge)
      (bind_required ?_ (reads_word r.depth) (bind_optional ?_ (reads_bool r.withinOptional) ?_)))
    · rfl
    · rfl
    · rfl
    · rfl
    · exact (within_zero depth r).symm

theorem BinaryOp.ofName?_name (op : BinaryOp) : ofName? op.name = some op := by
  cases op <;> rfl

namespace Expr

theorem reads_contextField (location : Location) (field : String) :
    Reads (decodeSimple "ContextField") (.object [("location", location.toJson), ("field", .text field)])
      (contextField location field) := by
  apply reads_record
  · rfl
  · decide
  · intro depth
    refine bind_required ?_ (reads_location location) (bind_required ?_ (reads_text field) ?_)
    · rfl
    · rfl
    · exact (within_zero depth _).symm

/-- The payload of a composition. -/
def decodeBinary : Decoder Expr :=
  record ["op", "left", "right"] fun fields depth => do
    let op ← fields.required "op" (BinaryOp.decode depth)
    let left ← fields.required "left" (decode depth)
    let right ← fields.required "right" (decode depth)
    some (binary op left right)

theorem reads_binary {left right : Expr} (hl : Reads decode left.toJson left)
    (hr : Reads decode right.toJson right) (op : BinaryOp) :
    Reads decodeBinary
      (.object [("op", .text op.name), ("left", left.toJson), ("right", right.toJson)])
      (binary op left right) := by
  have hop : Reads BinaryOp.decode (.text op.name) op := reads_tag op.ofName?_name
  apply reads_record
  · rfl
  · decide
  · intro depth
    refine bind_required ?_ hop (bind_required ?_ hl (bind_required ?_ hr ?_))
    · rfl
    · rfl
    · rfl
    · exact (within_zero depth _).symm

/-- The name of an alternative says how its payload is read. -/
theorem decode_succ (depth : Nat) (name : String) (d : Document) :
    decode (depth + 1) (.object [(name, d)]) =
      if name = "UnaryNot" then (decode depth d).map not
      else if name = "BinaryComposition" then decodeBinary depth d
      else decodeSimple name depth d := by
  cases depth <;> rw [decode] <;> rfl

theorem reads (e : Expr) : Reads decode e.toJson e := by
  induction e with
  | literal value =>
    apply reads_alternative ((reads_literal value).map literal)
    · intro d
      rfl
    · intro depth d
      simp [decode_succ, decodeSimple]
  | argument name =>
    apply reads_alternative (reads_single (reads_text name) argument)
    · intro d
      rfl
    · intro depth d
      simp [decode_succ, decodeSimple]
  | localField field =>
    apply reads_alternative (reads_single (reads_text field) localField)
    · intro d
      rfl
    · intro depth d
      simp [decode_succ, decodeSimple]
  | contextField location field =>
    apply reads_alternative (reads_contextField location field)
    · intro d
      rfl
    · intro depth d
      simp [decode_succ]
  | contextExists location =>
    apply reads_alternative (reads_single (reads_location location) contextExists)
    · intro d
      rfl
    · intro depth d
      simp [decode_succ, decodeSimple]
  | not e ih =>
    apply reads_alternative (ih.map not)
    · intro d
      rfl
    · intro depth d
      simp [decode_succ]
  | binary op left right hl hr =>
    apply reads_alternative (reads_binary hl hr op)
    · intro d
      rfl
    · intro depth d
      simp [decode_succ]

end Expr

namespace Block

theorem decode_succ {name : String} (h : ofName? name = none) (depth : Nat) (d : Document) :
    decode (depth + 1) (.object [(name, d)]) = decodePayload name depth d := by
  simp [decode, h]

theorem reads_name {name : String} {b : Block} (h : ofName? name = some b) :
    Reads decode (.text name) b := by
  intro depth
  have hd : decode depth (Document.ofJson (.text name)) = ofName? name := by
    cases depth <;> rfl
  rw [hd, h]
  exact (within_zero depth b).symm

theorem reads_backtrack (location : Location) (optional : Bool) :
    Reads (decodePayload "Backtrack")
      (.object [("location", location.toJson), Json.flag "optional" optional])
      (backtrack location optional) := by
  apply reads_record
  · rfl
  · decide
  · intro depth
    refine bind_required ?_ (reads_location location) (bind_optional ?_ (reads_bool optional) ?_)
    · rfl
    · rfl
    · exact (within_zero depth _).symm

theorem reads_outputs (fields : OrderedMap String Expr) :
    Reads (members Expr.decode) (outputsJson fields) fields.entries := by
  apply reads_members
  rw [List.forall₂_map_left_iff, List.forall₂_same]
  intro output _
  exact ⟨rfl, output.2.reads⟩

theorem reads (b : Block) : Reads decode b.toJson b := by
  have hpayload {name : String} {payload : Decoder Block} {j : Json} {b : Block}
      (hr : Reads payload j b) (hname : ofName? name = none)
      (hp : decodePayload name = payload) : Reads decode (.object [(name, j)]) b := by
    apply reads_alternative hr
    · intro d
      rfl
    · intro depth d
      rw [decode_succ hname, hp]
  cases b with
  | queryRoot types => exact hpayload (reads_single (reads_nameSet types) queryRoot) rfl rfl
  | traverse t => exact hpayload ((reads_traverse t).map traverse) rfl rfl
  | recurse r => exact hpayload ((reads_recurse r).map recurse) rfl rfl
  | backtrack location optional => exact hpayload (reads_backtrack location optional) rfl rfl
  | markLocation location =>
    exact hpayload (reads_single (reads_location location) markLocation) rfl rfl
  | coerceType types => exact hpayload (reads_single (reads_nameSet types) coerceType) rfl rfl
  | filter predicate => exact hpayload (reads_single predicate.reads filter) rfl rfl
  | fold scope => exact hpayload (reads_single (reads_foldLocation scope) fold) rfl rfl
  | unfold => exact reads_name rfl
  | outputSource => exact reads_name rfl
  | endOptional => exact reads_name rfl
  | globalOperationsStart => exact reads_name rfl
  | constructResult fields =>
    have hr : Reads (decodePayload "ConstructResult") (.object [("fields", outputsJson fields)])
        (constructResult (OrderedMap.ofList fields.entries)) :=
      reads_single (reads_outputs fields) fun entries => constructResult (OrderedMap.ofList entries)
    rw [OrderedMap.ofList_entries] at hr
    exact hpayload hr rfl rfl

end Block

/-- No constant in the expression has a double. -/
def Expr.Exact : Expr → Prop
  | literal value => value.json.Exact
  | not e => e.Exact
  | binary _ left right => left.Exact ∧ right.Exact
  | _ => True

/-- No constant in the block has a double. -/
def Block.Exact : Block → Prop
  | filter predicate => predicate.Exact
  | constructResult fields => ∀ output ∈ fields.entries, output.2.Exact
  | _ => True

theorem exact_texts (ss : List String) : (Json.texts ss).Exact := by
  apply Json.exactItems_iff.mpr
  intro j hj
  obtain ⟨s, -, rfl⟩ := List.mem_map.mp hj
  trivial

theorem Location.exact_toJson (l : Location) : l.toJson.Exact :=
  ⟨exact_texts l.path, trivial, trivial⟩

theorem FoldLocation.exact_toJson (f : FoldLocation) : f.toJson.Exact := by
  refine ⟨f.base.exact_toJson, ?_, trivial⟩
  apply Json.exactItems_iff.mpr
  intro j hj
  obtain ⟨edge, -, rfl⟩ := List.mem_map.mp hj
  exact ⟨trivial, trivial, trivial⟩

theorem Expr.exact_toJson {e : Expr} (h : e.Exact) : e.toJson.Exact := by
  induction e with
  | literal value => exact ⟨h, trivial⟩
  | argument name => exact ⟨⟨trivial, trivial⟩, trivial⟩
  | localField field => exact ⟨⟨trivial, trivial⟩, trivial⟩
  | contextField location field => exact ⟨⟨location.exact_toJson, trivial, trivial⟩, trivial⟩
  | contextExists location => exact ⟨⟨location.exact_toJson, trivial⟩, trivial⟩
  | not e ih => exact ⟨ih h, trivial⟩
  | binary op left right hl hr => exact ⟨⟨trivial, hl h.1, hr h.2, trivial⟩, trivial⟩

theorem Block.exact_toJson {b : Block} (h : b.Exact) : b.toJson.Exact := by
  cases b with
  | queryRoot types => exact ⟨⟨exact_texts types.names, trivial⟩, trivial⟩
  | traverse t => exact ⟨⟨trivial, trivial, trivial, trivial, trivial⟩, trivial⟩
  | recurse r => exact ⟨⟨trivial, trivial, trivial, trivial, trivial⟩, trivial⟩
  | backtrack location optional => exact ⟨⟨location.exact_toJson, trivial, trivial⟩, trivial⟩
  | markLocation location => exact ⟨⟨location.exact_toJson, trivial⟩, trivial⟩
  | coerceType types => exact ⟨⟨exact_texts types.names, trivial⟩, trivial⟩
  | filter predicate => exact ⟨⟨Expr.exact_toJson h, trivial⟩, trivial⟩
  | fold scope => exact ⟨⟨scope.exact_toJson, trivial⟩, trivial⟩
  | unfold => trivial
  | outputSource => trivial
  | endOptional => trivial
  | globalOperationsStart => trivial
  | constructResult fields =>
    refine ⟨⟨?_, trivial⟩, trivial⟩
    apply Json.exactMembers_iff.mpr
    intro m hm
    obtain ⟨output, ho, rfl⟩ := List.mem_map.mp hm
    exact Expr.exact_toJson (h output ho)

theorem Block.reads_stream (blocks : List Block) :
    Reads (list decode) (.array (blocks.map toJson)) blocks := by
  apply reads_list
  rw [List.forall₂_map_left_iff, List.forall₂_same]
  intro b _
  exact b.reads

theorem Block.exact_stream {blocks : List Block} (h : ∀ b ∈ blocks, b.Exact) :
    (Json.array (blocks.map toJson)).Exact := by
  apply Json.exactItems_iff.mpr
  intro j hj
  obtain ⟨b, hb, rfl⟩ := List.mem_map.mp hj
  exact exact_toJson (h b hb)

/-- A stream without doubles is read back from its text if at most 127 brackets are open at once in the
text, and is refused otherwise. -/
theorem Block.readAll_renderJson (blocks : List Block) (h : ∀ b ∈ blocks, b.Exact) :
    readAll (renderJson blocks) =
      if Json.openBrackets (renderJson blocks) ≤ 127 then some blocks else none := by
  have hexact := exact_stream h
  have hdocument := Document.ofText_render hexact
  rw [renderJson, Json.openBrackets_render hexact, readAll, Decoder.run, hdocument, Option.bind_some]
  exact reads_stream blocks nestingLimit

/-- So many negations of an argument. -/
def negations : Nat → Expr
  | 0 => .argument "a[\"\\\x01\x7b"
  | n + 1 => .not (negations n)

theorem exact_negations (n : Nat) : (negations n).Exact := by
  induction n with
  | zero => trivial
  | succ n ih => exact ih

theorem depth_negations (n : Nat) : (negations n).toJson.depth = n + 2 := by
  induction n with
  | zero => rfl
  | succ n ih => simp [negations, Expr.toJson, Json.depth, Json.depthMembers, ih]

/-- A constant of many kinds, with a bracket inside a string. -/
def mixedConstant : Literal where
  json := .object [("", .array [.null, .bool true, .array [], .object []]),
    ("]\n", .number (.int ⟨-9223372036854775808, by decide, by decide⟩)), ("é", .text "\x7f𝄞")]
  sorted := by
    refine ⟨?_, ?_⟩
    · decide
    · simp [Json.SortedMembers, Json.Sorted, Json.SortedItems]

theorem Block.readAll_renderJson_nested :
    let stream : List Block := [.filter (.binary .eq (.literal mixedConstant) (negations 120)), .unfold]
    let deeper : List Block := [.filter (.binary .eq (.literal mixedConstant) (negations 121))]
    (∀ b ∈ stream, b.Exact) ∧ (∀ b ∈ deeper, b.Exact) ∧
      readAll (renderJson stream) = some stream ∧ readAll (renderJson deeper) = none := by
  intro stream deeper
  have hconstant : mixedConstant.json.Exact := by
    simp [mixedConstant, Json.Exact, Json.ExactItems, Json.ExactMembers]
  have hdepth : mixedConstant.json.depth = 3 := rfl
  have hstream : ∀ b ∈ stream, b.Exact := by
    simp [stream, Block.Exact, Expr.Exact, hconstant, exact_negations]
  have hdeeper : ∀ b ∈ deeper, b.Exact := by
    simp [deeper, Block.Exact, Expr.Exact, hconstant, exact_negations]
  refine ⟨hstream, hdeeper, ?_, ?_⟩
  · rw [readAll_renderJson stream hstream, renderJson, Json.openBrackets_render (exact_stream hstream)]
    apply if_pos
    simp [stream, Block.toJson, Block.payloadJson, Expr.toJson, Json.depth, Json.depthItems,
      Json.depthMembers, depth_negations, hdepth]
  · rw [readAll_renderJson deeper hdeeper, renderJson, Json.openBrackets_render (exact_stream hdeeper)]
    apply if_neg
    simp [deeper, Block.toJson, Block.payloadJson, Expr.toJson, Json.depth, Json.depthItems,
      Json.depthMembers, depth_negations, hdepth]

end GraphPlan
