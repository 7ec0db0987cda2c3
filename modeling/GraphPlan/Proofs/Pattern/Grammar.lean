import GraphPlan.Pattern.Assembly
import Mathlib.Data.List.Nodup

/-!
The grammar of the streams that make a pattern query.

A sentence is a row of segments, the marker, and the global operations. `Sentence` says which rows will do,
segment by segment and across segments. `FitsAll` says the same one segment at a time, each in view of
those before it, and `Completes` says what may still follow when a segment has been read in part.
-/

namespace GraphPlan.Pattern.Grammar

/-- Blocks that leave no trace in the step of their segment. -/
def silent : Block → Bool
  | .backtrack .. => true
  | .unfold => true
  | .outputSource => true
  | .endOptional => true
  | _ => false

def isRoot : Block → Bool
  | .queryRoot _ => true
  | _ => false

def isHop : Block → Bool
  | .traverse _ => true
  | .recurse _ => true
  | _ => false

/-- Blocks that may stand in a segment after its opening. -/
def inner : Block → Bool
  | .fold _ => false
  | .globalOperationsStart => false
  | .constructResult _ => false
  | block => !isRoot block && !isHop block

def content (segment : List Block) : List Block := segment.filter fun block => !silent block

def mark? : Block → Option Location
  | .markLocation location => some location
  | _ => none

def visit? : Block → Option Location
  | .markLocation location => some location
  | .backtrack location _ => some location
  | _ => none

/-- The locations that a segment marks. -/
def marks (segment : List Block) : List Location := segment.filterMap mark?

/-- The location last marked or returned to. -/
def lastVisit (segment : List Block) : Option Location := (segment.filterMap visit?).getLast?

def Opens (kind : Block → Bool) (segment : List Block) : Prop :=
  ∃ opening rest, segment = opening :: rest ∧ kind opening = true ∧ ∀ block ∈ rest, inner block = true

/-- The opening of a step, the types that name it, and the blocks up to where they are named. -/
inductive Heading : Block → NameSet → List Block → Prop
  | root (types : NameSet) : Heading (.queryRoot types) types [.queryRoot types]
  | traverse (t : Traverse) (types : NameSet) :
    Heading (.traverse t) types [.traverse t, .coerceType types]
  | recurse (r : Recurse) (types : NameSet) :
    Heading (.recurse r) types [.recurse r, .coerceType types]

/-- After the heading, at most one filter and then the mark. -/
def Closes (heading blocks : List Block) (bound : Location) : Prop :=
  blocks = heading ++ [.markLocation bound] ∨
    ∃ condition, blocks = heading ++ [.filter condition, .markLocation bound]

/-- The content of a segment is a step that names exactly one type. -/
def Formed (segment : List Block) : Prop :=
  ∃ opening types heading bound, Heading opening types heading ∧ types.names.length = 1 ∧
    Closes heading (content segment) bound

/-- The global operations. -/
def Tail (blocks : List Block) : Prop :=
  (∃ outputs, blocks = [.constructResult outputs]) ∨
    ∃ condition outputs, blocks = [.filter condition, .constructResult outputs]

/-- The stream consists of these segments, the marker and these global operations. -/
structure Sentence (blocks : List Block) (segments : List (List Block)) (tail : List Block) :
    Prop where
  blocks_eq : blocks = segments.flatten ++ .globalOperationsStart :: tail
  globals : Tail tail
  nonempty : segments ≠ []
  root : ∀ s, segments[0]? = some s → Opens isRoot s
  hop : ∀ i s, 1 ≤ i → segments[i]? = some s → Opens isHop s
  formed : ∀ s ∈ segments, Formed s
  distinct : (segments.flatMap marks).Nodup
  linked : ∀ i, 1 ≤ i → i < segments.length → ∃ before location,
    segments[i - 1]? = some before ∧ lastVisit before = some location ∧
      ∃ j s, j < i ∧ segments[j]? = some s ∧ location ∈ marks s

theorem marks_content (segment : List Block) : marks (content segment) = marks segment := by
  unfold marks content
  rw [List.filterMap_filter]
  congr
  funext block
  cases block <;> rfl

theorem Heading.marks_eq_nil {opening : Block} {types : NameSet} {heading : List Block}
    (h : Heading opening types heading) : marks heading = [] := by
  cases h <;> rfl

/-- A step marks one location. -/
theorem marks_of_closes {opening : Block} {types : NameSet} {heading segment : List Block}
    {bound : Location} (hh : Heading opening types heading)
    (hc : Closes heading (content segment) bound) : marks segment = [bound] := by
  have hm : ∀ more, marks (heading ++ more) = marks more := by
    intro more
    unfold marks
    rw [List.filterMap_append]
    change marks heading ++ _ = _
    rw [hh.marks_eq_nil]
    rfl
  rw [← marks_content]
  rcases hc with hc | ⟨condition, hc⟩ <;> rw [hc, hm] <;> rfl

theorem Formed.marks_eq {segment : List Block} (h : Formed segment) :
    ∃ bound, marks segment = [bound] := by
  obtain ⟨_, _, _, bound, hh, _, hc⟩ := h
  exact ⟨bound, marks_of_closes hh hc⟩

theorem mem_visits_of_mem_marks {segment : List Block} {location : Location}
    (h : location ∈ marks segment) : location ∈ segment.filterMap visit? := by
  unfold marks at h
  rw [List.mem_filterMap] at h ⊢
  obtain ⟨block, hb, hm⟩ := h
  refine ⟨block, hb, ?_⟩
  cases block <;> first | exact hm | cases hm

/-- A formed segment marks a location, so it visits one. -/
theorem Formed.exists_lastVisit {segment : List Block} (h : Formed segment) :
    ∃ location, lastVisit segment = some location := by
  obtain ⟨bound, hm⟩ := h.marks_eq
  have hv : bound ∈ segment.filterMap visit? := mem_visits_of_mem_marks (by simp [hm])
  exact ⟨_, List.getLast?_eq_some_getLast (List.ne_nil_of_mem hv)⟩

/-- How the segment after those read opens. -/
def opener (closed : List (List Block)) : Block → Bool :=
  if closed.isEmpty then isRoot else isHop

/-- The segment may follow those read. -/
structure Fits (closed : List (List Block)) (segment : List Block) : Prop where
  opens : Opens (opener closed) segment
  formed : Formed segment
  fresh : ∀ location ∈ marks segment, location ∉ closed.flatMap marks
  linked : ∀ before, closed.getLast? = some before →
    ∃ location, lastVisit before = some location ∧ location ∈ closed.flatMap marks

def FitsAll (closed : List (List Block)) : List (List Block) → Prop
  | [] => True
  | segment :: segments => Fits closed segment ∧ FitsAll (closed ++ [segment]) segments

theorem fitsAll_iff (closed segments : List (List Block)) :
    FitsAll closed segments ↔
      ∀ i s, segments[i]? = some s → Fits (closed ++ segments.take i) s := by
  induction segments generalizing closed with
  | nil => simp [FitsAll]
  | cons segment segments ih =>
    simp only [FitsAll, ih]
    constructor
    · rintro ⟨hs, h⟩ i s hi
      cases i with
      | zero =>
        cases hi
        simpa using hs
      | succ i => simpa using h i s hi
    · intro h
      refine ⟨by simpa using h 0 segment rfl, fun i s hi => ?_⟩
      simpa using h (i + 1) s hi

theorem opener_take {segments : List (List Block)} {i : Nat} {s : List Block}
    (h : segments[i]? = some s) : opener (segments.take i) = if i = 0 then isRoot else isHop := by
  have hi : i < segments.length := (List.getElem?_eq_some_iff.mp h).1
  have hn : segments ≠ [] := List.ne_nil_of_length_pos (by omega)
  simp [opener, List.take_eq_nil_iff, hn]

theorem mem_marks_take {segments : List (List Block)} {i : Nat} {location : Location} :
    location ∈ (segments.take i).flatMap marks ↔
      ∃ j s, j < i ∧ segments[j]? = some s ∧ location ∈ marks s := by
  rw [List.mem_flatMap]
  constructor
  · rintro ⟨s, hs, hm⟩
    obtain ⟨j, hj⟩ := List.mem_iff_getElem?.mp hs
    rw [List.getElem?_take] at hj
    split at hj
    · exact ⟨j, s, ‹_›, hj, hm⟩
    · cases hj
  · rintro ⟨j, s, hj, hs, hm⟩
    have ht : (segments.take i)[j]? = some s := by rw [List.getElem?_take, if_pos hj, hs]
    exact ⟨s, List.mem_of_getElem? ht, hm⟩

theorem getLast?_take_of_pos {segments : List (List Block)} {i : Nat} (hi : 1 ≤ i)
    (hl : i < segments.length) : (segments.take i).getLast? = segments[i - 1]? := by
  have hp : i - 1 < segments.length := by omega
  rw [List.getLast?_take, if_neg (by omega)]
  simp [List.getElem?_eq_getElem hp]

/-- Marks are pairwise distinct when each segment marks none of those marked before. -/
theorem nodup_marks_iff {segments : List (List Block)} (hf : ∀ s ∈ segments, Formed s) :
    (segments.flatMap marks).Nodup ↔ ∀ i s, segments[i]? = some s →
      ∀ location ∈ marks s, location ∉ (segments.take i).flatMap marks := by
  have hone : ∀ s ∈ segments, (marks s).Nodup := by
    intro s hs
    obtain ⟨bound, hm⟩ := (hf s hs).marks_eq
    simp [hm]
  rw [List.nodup_flatMap, List.pairwise_iff_getElem]
  simp only [mem_marks_take, List.disjoint_left]
  constructor
  · rintro ⟨_, h⟩ i s hi location hm ⟨j, t, hj, ht, hmt⟩
    obtain ⟨hi', rfl⟩ := List.getElem?_eq_some_iff.mp hi
    obtain ⟨hj', rfl⟩ := List.getElem?_eq_some_iff.mp ht
    exact h j i hj' hi' hj hmt hm
  · intro h
    refine ⟨hone, fun j i hj hi hji location hmj hmi => ?_⟩
    exact h i segments[i] (List.getElem?_eq_getElem hi) location hmi
      ⟨j, segments[j], hji, List.getElem?_eq_getElem hj, hmj⟩

/-- A sentence is read one segment at a time. -/
theorem sentence_iff (blocks : List Block) (segments : List (List Block)) (tail : List Block) :
    Sentence blocks segments tail ↔
      blocks = segments.flatten ++ .globalOperationsStart :: tail ∧ Tail tail ∧ segments ≠ [] ∧
        FitsAll [] segments := by
  simp only [fitsAll_iff, List.nil_append]
  constructor
  · intro h
    refine ⟨h.blocks_eq, h.globals, h.nonempty, fun i s hi => ?_⟩
    have hs : s ∈ segments := List.mem_of_getElem? hi
    have hl : i < segments.length := (List.getElem?_eq_some_iff.mp hi).1
    refine ⟨?_, h.formed s hs, (nodup_marks_iff h.formed).mp h.distinct i s hi, ?_⟩
    · rw [opener_take hi]
      by_cases h0 : i = 0
      · subst h0
        exact h.root s hi
      · rw [if_neg h0]
        exact h.hop i s (by omega) hi
    · intro before hb
      have h0 : 1 ≤ i := by
        by_contra h0
        rw [show i = 0 by omega] at hb
        cases hb
      obtain ⟨before', location, hb', hv, hm⟩ := h.linked i h0 hl
      rw [getLast?_take_of_pos h0 hl, hb'] at hb
      cases hb
      exact ⟨location, hv, mem_marks_take.mpr hm⟩
  · rintro ⟨hb, ht, hn, h⟩
    have hf : ∀ s ∈ segments, Formed s := by
      intro s hs
      obtain ⟨i, hi⟩ := List.mem_iff_getElem?.mp hs
      exact (h i s hi).formed
    refine ⟨hb, ht, hn, fun s hs => ?_, fun i s h0 hs => ?_, hf,
      (nodup_marks_iff hf).mpr fun i s hi => (h i s hi).fresh, fun i h0 hl => ?_⟩
    · have ho := (h 0 s hs).opens
      rwa [opener_take hs, if_pos rfl] at ho
    · have ho := (h i s hs).opens
      rwa [opener_take hs, if_neg (by omega)] at ho
    · have hp : i - 1 < segments.length := by omega
      have hg := List.getElem?_eq_getElem hp
      obtain ⟨location, hv, hm⟩ := (h i segments[i] (List.getElem?_eq_getElem hl)).linked
        segments[i - 1] (by rw [getLast?_take_of_pos h0 hl, hg])
      exact ⟨segments[i - 1], location, hg, hv, mem_marks_take.mp hm⟩

/-- What may follow when these segments and a part of the next have been read. -/
def Completes (closed : List (List Block)) (current rest : List Block) : Prop :=
  ∃ more segments tail, rest = more ++ (segments.flatten ++ .globalOperationsStart :: tail) ∧
    (∀ block ∈ more, inner block = true) ∧ FitsAll closed ((current ++ more) :: segments) ∧ Tail tail

theorem opener_append (closed : List (List Block)) (segment : List Block) :
    opener (closed ++ [segment]) = isHop := by
  simp [opener]

/-- After a whole segment comes the next, with its opening, or the marker. -/
theorem head_of_fitsAll {closed segments : List (List Block)} {segment tail rest : List Block}
    {block : Block} (h : FitsAll (closed ++ [segment]) segments)
    (he : block :: rest = segments.flatten ++ .globalOperationsStart :: tail) :
    (block = .globalOperationsStart ∧ segments = [] ∧ rest = tail) ∨
      isHop block = true ∧ ∃ more segments', segments = (block :: more) :: segments' ∧
        (∀ b ∈ more, inner b = true) ∧
        rest = more ++ (segments'.flatten ++ .globalOperationsStart :: tail) := by
  cases segments with
  | nil =>
    obtain ⟨rfl, rfl⟩ := List.cons.inj he
    exact .inl ⟨rfl, rfl, rfl⟩
  | cons next segments =>
    obtain ⟨opening, more, rfl, ho, hm⟩ := h.1.opens
    rw [opener_append] at ho
    simp only [List.flatten_cons, List.cons_append, List.append_assoc] at he
    obtain ⟨rfl, rfl⟩ := List.cons.inj he
    exact .inr ⟨ho, more, segments, rfl, hm, rfl⟩

theorem not_completes_nil (closed : List (List Block)) (current : List Block) :
    ¬ Completes closed current [] := by
  rintro ⟨more, segments, tail, he, _⟩
  simp at he

/-- The next block carries on the segment at hand, opens the next one, or ends the last one. -/
theorem completes_cons (closed : List (List Block)) (current rest : List Block) (block : Block) :
    Completes closed current (block :: rest) ↔
      inner block = true ∧ Completes closed (current ++ [block]) rest ∨
      isHop block = true ∧ Fits closed current ∧ Completes (closed ++ [current]) [block] rest ∨
      block = .globalOperationsStart ∧ Fits closed current ∧ Tail rest := by
  constructor
  · rintro ⟨more, segments, tail, he, hm, hf, ht⟩
    cases more with
    | cons b more =>
      obtain ⟨rfl, rfl⟩ := List.cons.inj he
      refine .inl ⟨hm _ List.mem_cons_self, more, segments, tail, rfl,
        fun b hb => hm b (List.mem_cons_of_mem _ hb), ?_, ht⟩
      simpa using hf
    | nil =>
      rw [List.append_nil] at hf
      rcases head_of_fitsAll hf.2 he with ⟨rfl, rfl, rfl⟩ | ⟨hh, more, segments, rfl, hm, rfl⟩
      · exact .inr (.inr ⟨rfl, hf.1, ht⟩)
      · exact .inr (.inl ⟨hh, hf.1, more, segments, tail, rfl, hm, hf.2, ht⟩)
  · rintro (⟨hb, more, segments, tail, rfl, hm, hf, ht⟩ |
      ⟨hb, hc, more, segments, tail, rfl, hm, hf, ht⟩ | ⟨rfl, hc, ht⟩)
    · refine ⟨block :: more, segments, tail, rfl, ?_, by simpa using hf, ht⟩
      intro b hmem
      rcases List.mem_cons.mp hmem with rfl | hmem
      · exact hb
      · exact hm b hmem
    · refine ⟨[], (block :: more) :: segments, tail, by simp, by simp, ?_, ht⟩
      rw [List.append_nil]
      exact ⟨hc, hf⟩
    · refine ⟨[], [], rest, rfl, by simp, ?_, ht⟩
      rw [List.append_nil]
      exact ⟨hc, trivial⟩

section Kinds

variable {closed : List (List Block)} {current rest : List Block} {block : Block}

theorem completes_inner (hb : inner block = true) :
    Completes closed current (block :: rest) ↔ Completes closed (current ++ [block]) rest := by
  have hh : isHop block = false := by cases block <;> first | rfl | cases hb
  have hg : block ≠ .globalOperationsStart := by
    rintro rfl
    cases hb
  simp [completes_cons, hb, hh, hg]

theorem completes_hop (hb : isHop block = true) :
    Completes closed current (block :: rest) ↔
      Fits closed current ∧ Completes (closed ++ [current]) [block] rest := by
  have hi : inner block = false := by cases block <;> first | rfl | cases hb
  have hg : block ≠ .globalOperationsStart := by
    rintro rfl
    cases hb
  simp [completes_cons, hb, hi, hg]

theorem completes_marker :
    Completes closed current (.globalOperationsStart :: rest) ↔ Fits closed current ∧ Tail rest := by
  simp [completes_cons, inner, isHop]

end Kinds

/-- A sentence begins with a root, and the rest of it completes the first segment. -/
theorem exists_sentence_iff (blocks : List Block) :
    (∃ segments tail, Sentence blocks segments tail) ↔
      ∃ types rest, blocks = .queryRoot types :: rest ∧ Completes [] [.queryRoot types] rest := by
  simp only [sentence_iff]
  constructor
  · rintro ⟨segments, tail, he, ht, hn, hf⟩
    cases segments with
    | nil => exact absurd rfl hn
    | cons segment segments =>
      obtain ⟨opening, more, rfl, ho, hm⟩ := hf.1.opens
      cases opening with
      | queryRoot types =>
        refine ⟨types, _, he, more, segments, tail, ?_, hm, hf, ht⟩
        simp
      | _ => cases ho
  · rintro ⟨types, rest, rfl, more, segments, tail, rfl, hm, hf, ht⟩
    exact ⟨(.queryRoot types :: more) :: segments, tail, by simp, ht, by simp, hf⟩

end GraphPlan.Pattern.Grammar
