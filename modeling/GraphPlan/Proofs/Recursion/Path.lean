import GraphPlan.Proofs.Names
import Mathlib.Data.List.Induction

/-!
Paths as texts. A path lists words with a delimiter between them and at both ends. Where the delimiter has a
character that cannot stand in a word, a word is on the path if and only if it is found there between two
delimiters, whatever the delimiter looks like otherwise.

Such characters cut a path into pieces. Each word is in a piece of its own, together with the ends of the
delimiters around it, and between two of these pieces there are always the same others.
-/

namespace GraphPlan.Sql

/-- The newest word comes first in the list and last in the path. -/
def delimited (delimiter : List Char) : List (List Char) → List Char
  | [] => delimiter
  | word :: older => delimited delimiter older ++ word ++ delimiter

/-- Members with a gap between them and at both ends, of which the newest comes first in the list and last
in the row. -/
def spaced {α : Type} (gap : List α) : List α → List α
  | [] => gap
  | x :: older => spaced gap older ++ x :: gap

section

variable {α : Type} {gap : List α}

theorem spaced_suffix (xs : List α) : gap <:+ spaced gap xs := by
  cases xs with
  | nil => exact List.suffix_rfl
  | cons x older => exact (List.suffix_cons x gap).trans (List.suffix_append ..)

/-- A window that is one longer than the gap shows all of the gap, turned around, and one member. -/
theorem perm_of_window {window xs : List α} (h : window <:+: spaced gap xs)
    (hl : window.length = gap.length + 1) : ∃ x ∈ xs, window.Perm (x :: gap) := by
  induction xs with
  | nil =>
    have hle := h.length_le
    rw [spaced] at hle
    omega
  | cons x older ih =>
    have hold (h : window <:+: spaced gap older) : ∃ y ∈ x :: older, window.Perm (y :: gap) := by
      obtain ⟨y, hy, hp⟩ := ih h
      exact ⟨y, List.mem_cons_of_mem x hy, hp⟩
    rcases List.infix_append_iff.mp h with h | h | ⟨before, after, rfl, hb, ha⟩
    · exact hold h
    · rw [h.eq_of_length (by rw [hl, List.length_cons])]
      exact ⟨x, List.mem_cons_self, .refl _⟩
    · -- what stands before the member in the window is what is missing of the gap after it
      cases after with
      | nil =>
        rw [List.append_nil] at hl hold ⊢
        exact hold hb.isInfix
      | cons y after =>
        obtain ⟨rfl, rest, rfl⟩ := List.cons_prefix_cons.mp ha
        simp only [List.length_append, List.length_cons] at hl
        have hgap : before <:+ after ++ rest :=
          List.suffix_of_suffix_length_le hb (spaced_suffix older) (by rw [List.length_append]; omega)
        have hbefore : before = rest :=
          (List.suffix_of_suffix_length_le hgap (List.suffix_append after rest)
            (by omega)).eq_of_length (by omega)
        subst hbefore
        exact ⟨y, List.mem_cons_self, List.perm_append_comm⟩

theorem mem_of_between_gaps {x : α} {xs : List α} (h : gap ++ x :: gap <:+: spaced gap xs) : x ∈ xs := by
  have hwindow : x :: gap <:+: spaced gap xs := (List.suffix_append gap (x :: gap)).isInfix.trans h
  obtain ⟨y, hy, hp⟩ := perm_of_window hwindow rfl
  have hone : [x].Perm [y] := (List.perm_append_right_iff gap).mp hp
  rw [List.singleton_perm_singleton.mp hone]
  exact hy

end

section

variable {mark : Char → Bool} {delimiter : List Char}

/-- Where two texts meet, the last piece of the one and the first of the other become one piece. -/
theorem splitOnP_append {xs ys : List Char} {front back : List (List Char)} {last first : List Char}
    (hx : xs.splitOnP mark = front ++ [last]) (hy : ys.splitOnP mark = first :: back) :
    (xs ++ ys).splitOnP mark = front ++ (last ++ first) :: back := by
  induction xs generalizing front last with
  | nil =>
    cases front with
    | nil =>
      cases hx
      exact hy
    | cons piece front => simp at hx
  | cons x xs ih =>
    obtain ⟨init, end', hxs⟩ := (List.eq_nil_or_concat (xs.splitOnP mark)).resolve_left
      (List.splitOnP_ne_nil mark xs)
    rw [List.concat_eq_append] at hxs
    rw [List.splitOnP_cons_eq_if_modifyHead, hxs] at hx
    rw [List.cons_append, List.splitOnP_cons_eq_if_modifyHead, ih hxs]
    by_cases hm : mark x = true
    · rw [if_pos hm, ← List.cons_append] at hx
      obtain ⟨rfl, hlast⟩ := List.append_inj' hx rfl
      cases hlast
      rw [if_pos hm, List.cons_append]
    · rw [if_neg hm] at hx ⊢
      cases init with
      | nil =>
        have hx : [] ++ [x :: end'] = front ++ [last] := hx
        obtain ⟨rfl, hlast⟩ := List.append_inj' hx rfl
        cases hlast
        rfl
      | cons piece init =>
        have hx : ((x :: piece) :: init) ++ [end'] = front ++ [last] := hx
        obtain ⟨rfl, hlast⟩ := List.append_inj' hx rfl
        cases hlast
        rfl

/-- A delimiter with a mark has a piece before its first mark, one after its last, and perhaps others
between these. -/
theorem exists_pieces (hd : ∃ c ∈ delimiter, mark c = true) :
    ∃ first gap last, delimiter.splitOnP mark = first :: (gap ++ [last]) := by
  obtain ⟨c, hc, hm⟩ := hd
  obtain ⟨before, after, rfl⟩ := List.append_of_mem hc
  obtain ⟨first, gap, hf⟩ := List.exists_cons_of_ne_nil (List.splitOnP_ne_nil mark before)
  obtain ⟨rest, last, hl⟩ := (List.eq_nil_or_concat (after.splitOnP mark)).resolve_left
    (List.splitOnP_ne_nil mark after)
  refine ⟨first, gap ++ rest, last, ?_⟩
  rw [List.splitOnP_append_cons _ _ hm, hf, hl, List.concat_eq_append, List.cons_append,
    List.append_assoc]

/-- The words of a path are in the pieces where two delimiters meet them, and the pieces between are always
the same. -/
theorem splitOnP_delimited {first last : List Char} {gap : List (List Char)}
    (hd : delimiter.splitOnP mark = first :: (gap ++ [last])) {words : List (List Char)}
    (hw : ∀ word ∈ words, ∀ c ∈ word, mark c = false) :
    (delimited delimiter words).splitOnP mark =
      first :: (spaced gap (words.map fun word => last ++ word ++ first) ++ [last]) := by
  induction words with
  | nil => exact hd
  | cons word older ih =>
    have hword := List.splitOnP_eq_singleton (hw word List.mem_cons_self)
    have hpath := ih fun w hm => hw w (List.mem_cons_of_mem word hm)
    have hfront := splitOnP_append (hpath.trans (List.cons_append ..).symm) hword
    rw [delimited, splitOnP_append hfront hd]
    simp [spaced]

/-- The inner pieces of a part of a text are inner pieces of the text. -/
theorem inner_infix {part text first last first' last' : List Char} {inner inner' : List (List Char)}
    (h : part <:+: text) (hp : part.splitOnP mark = first :: (inner ++ [last]))
    (ht : text.splitOnP mark = first' :: (inner' ++ [last'])) : inner <:+: inner' := by
  obtain ⟨before, after, rfl⟩ := h
  obtain ⟨init, end', hb⟩ := (List.eq_nil_or_concat (before.splitOnP mark)).resolve_left
    (List.splitOnP_ne_nil mark before)
  obtain ⟨start, rest, ha⟩ := List.exists_cons_of_ne_nil (List.splitOnP_ne_nil mark after)
  rw [List.concat_eq_append] at hb
  have hfront : (before ++ part).splitOnP mark = (init ++ (end' ++ first) :: inner) ++ [last] := by
    rw [splitOnP_append hb hp, List.append_assoc, List.cons_append]
  rw [splitOnP_append hfront ha] at ht
  have hinner := congrArg (fun pieces => pieces.tail.dropLast) ht
  rw [List.append_cons init] at hinner
  refine ⟨(init ++ [end' ++ first]).tail, ((last ++ start) :: rest).dropLast, ?_⟩
  rw [← List.dropLast_append_of_ne_nil (by simp), List.append_assoc,
    ← List.tail_append_of_ne_nil (by simp), ← List.append_assoc]
  simpa using hinner

/-- A path ends in its delimiter. -/
theorem delimited_suffix (words : List (List Char)) : delimiter <:+ delimited delimiter words := by
  cases words with
  | nil => exact List.suffix_rfl
  | cons word older => exact List.suffix_append ..

/-- A word on a path stands between two delimiters. -/
theorem between_of_mem {word : List Char} {words : List (List Char)} (h : word ∈ words) :
    delimiter ++ word ++ delimiter <:+: delimited delimiter words := by
  induction words with
  | nil => cases h
  | cons w older ih =>
    rcases List.mem_cons.mp h with rfl | h
    · obtain ⟨front, hfront⟩ := @delimited_suffix delimiter older
      refine ⟨front, [], ?_⟩
      rw [delimited, ← hfront]
      simp
    · obtain ⟨before, after, heq⟩ := ih h
      refine ⟨before, after ++ w ++ delimiter, ?_⟩
      rw [delimited, ← heq]
      simp only [List.append_assoc]

theorem between_iff_mem (hd : ∃ c ∈ delimiter, mark c = true) {word : List Char}
    {words : List (List Char)} (hw : ∀ w ∈ word :: words, ∀ c ∈ w, mark c = false) :
    delimiter ++ word ++ delimiter <:+: delimited delimiter words ↔ word ∈ words := by
  constructor
  · intro h
    obtain ⟨first, gap, last, hpieces⟩ := exists_pieces hd
    obtain ⟨hword, hwords⟩ := List.forall_mem_cons.mp hw
    have hsingle : ∀ w ∈ [word], ∀ c ∈ w, mark c = false := by simpa using hword
    have hone : (delimiter ++ word ++ delimiter).splitOnP mark =
        first :: (spaced gap [last ++ word ++ first] ++ [last]) := splitOnP_delimited hpieces hsingle
    have hgaps := inner_infix h hone (splitOnP_delimited hpieces hwords)
    obtain ⟨w, hm, heq⟩ := List.mem_map.mp (mem_of_between_gaps hgaps)
    rwa [List.append_cancel_left (List.append_cancel_right heq)] at hm
  · exact between_of_mem

end

/-- The text of a path of words, the oldest first. -/
def wordPath (delimiter : String) (words : List String) : String :=
  delimiter ++ String.join (words.map (· ++ delimiter))

theorem wordPath_nil (delimiter : String) : wordPath delimiter [] = delimiter := by
  simp [wordPath]

theorem wordPath_concat (delimiter : String) (words : List String) (word : String) :
    wordPath delimiter (words ++ [word]) = wordPath delimiter words ++ word ++ delimiter := by
  simp [wordPath, String.join_append, String.append_assoc]

theorem toList_wordPath (delimiter : String) (words : List String) :
    (wordPath delimiter words).toList =
      delimited delimiter.toList (words.reverse.map String.toList) := by
  induction words using List.reverseRecOn with
  | nil => rw [wordPath_nil, List.reverse_nil, List.map_nil, delimited]
  | append_singleton words word ih =>
    rw [wordPath_concat, String.toList_append, String.toList_append, ih, List.reverse_append,
      List.reverse_singleton, List.singleton_append, List.map_cons, delimited]

/-- A word is on a path if and only if it is found there between two delimiters. -/
theorem between_wordPath_iff {mark : Char → Bool} {delimiter word : String} {words : List String}
    (hd : ∃ c ∈ delimiter.toList, mark c = true)
    (hw : ∀ w ∈ word :: words, ∀ c ∈ w.toList, mark c = false) :
    delimiter.toList ++ word.toList ++ delimiter.toList <:+: (wordPath delimiter words).toList ↔
      word ∈ words := by
  obtain ⟨hword, hwords⟩ := List.forall_mem_cons.mp hw
  have hlists : ∀ w ∈ word.toList :: words.reverse.map String.toList, ∀ c ∈ w, mark c = false := by
    refine List.forall_mem_cons.mpr ⟨hword, ?_⟩
    simpa using hwords
  rw [toList_wordPath, between_iff_mem hd hlists]
  simp [String.toList_inj]

/-- The characters that no integer is written with. -/
def isMark (c : Char) : Bool := !(c.isDigit || c == '-')

theorem intText_digits {z : Int} (h : 0 ≤ z) : ∀ c ∈ (intText z).toList, c.isDigit = true := by
  rw [toList_intText, if_neg (by omega)]
  exact fun c hc => Nat.isDigit_of_mem_toDigits (by decide) (by decide) hc

theorem intText_chars (z : Int) : ∀ c ∈ (intText z).toList, isMark c = false := by
  have hdigits : ∀ c ∈ Nat.toDigits 10 z.natAbs, isMark c = false := by
    intro c hc
    simp [isMark, Nat.isDigit_of_mem_toDigits (by decide) (by decide) hc]
  intro c hc
  rw [toList_intText] at hc
  split at hc
  · rcases List.mem_cons.mp hc with rfl | hc
    · decide
    · exact hdigits c hc
  · exact hdigits c hc

/-- No character of an integer has a meaning of its own in a pattern. -/
theorem intText_plain (z : Int) : ∀ c ∈ (intText z).toList, Settings.isMetacharacter c = false := by
  intro c hc
  have hm := intText_chars z c hc
  have hne : (c ≠ '%' ∧ c ≠ '_') ∧ c ≠ '\\' := by
    refine ⟨⟨?_, ?_⟩, ?_⟩ <;> rintro rfl <;> exact absurd hm (by decide)
  simp [Settings.isMetacharacter, hne]

theorem intText_injective {a b : Int} (h : intText a = intText b) : a = b := by
  have hl := congrArg String.toList h
  -- a sign is no digit, so both integers have one or neither has
  have hsign : ∀ (n : Nat) (rest : List Char), Nat.toDigits 10 n ≠ '-' :: rest := by
    intro n rest heq
    have hmem : '-' ∈ Nat.toDigits 10 n := heq ▸ List.mem_cons_self
    exact absurd (Nat.isDigit_of_mem_toDigits (by decide) (by decide) hmem) (by decide)
  rw [toList_intText, toList_intText] at hl
  split at hl
  · split at hl
    · have habs := toDigits_injective (List.cons.inj hl).2
      omega
    · exact absurd hl.symm (hsign _ _)
  · split at hl
    · exact absurd hl (hsign _ _)
    · have habs := toDigits_injective hl
      omega

/-- The text of a path of integers, the newest first. -/
def pathText (delimiter : String) : List Int → String
  | [] => delimiter
  | z :: older => pathText delimiter older ++ intText z ++ delimiter

theorem pathText_eq (delimiter : String) (zs : List Int) :
    pathText delimiter zs = wordPath delimiter (zs.reverse.map intText) := by
  induction zs with
  | nil => rw [List.reverse_nil, List.map_nil, wordPath_nil, pathText]
  | cons z older ih =>
    rw [pathText, ih, List.reverse_cons, List.map_append, List.map_singleton, wordPath_concat]

/-- An integer is on a path if and only if it is found there between two delimiters. -/
theorem intText_between_iff {mark : Char → Bool} {delimiter : String}
    (hd : ∃ c ∈ delimiter.toList, mark c = true) {z : Int} {zs : List Int}
    (hz : ∀ n ∈ z :: zs, ∀ c ∈ (intText n).toList, mark c = false) :
    delimiter.toList ++ (intText z).toList ++ delimiter.toList <:+:
      (wordPath delimiter (zs.map intText)).toList ↔ z ∈ zs := by
  have hw : ∀ word ∈ intText z :: zs.map intText, ∀ c ∈ word.toList, mark c = false := by
    rw [← List.map_cons, List.forall_mem_map]
    exact hz
  rw [between_wordPath_iff hd hw]
  constructor
  · intro h
    obtain ⟨y, hy, heq⟩ := List.mem_map.mp h
    rw [← intText_injective heq]
    exact hy
  · exact List.mem_map_of_mem

private theorem exists_digitChar {c : Char} (h : c.isDigit = true) : ∃ k < 10, Nat.digitChar k = c := by
  have hchars : ∀ k < 10, Nat.digitChar k = Char.ofNat (k + 48) := by decide
  rw [Char.isDigit, Bool.and_eq_true, decide_eq_true_iff, decide_eq_true_iff, ge_iff_le,
    UInt32.le_iff_toNat_le, UInt32.le_iff_toNat_le] at h
  have hlow : 48 ≤ c.toNat := h.1
  have hhigh : c.toNat ≤ 57 := h.2
  refine ⟨c.toNat - 48, by omega, ?_⟩
  rw [hchars _ (by omega), Nat.sub_add_cancel hlow, Char.ofNat_toNat]

/-- Digits after a one are those of an integer. -/
theorem exists_intText {digits : String} (h : ∀ c ∈ digits.toList, c.isDigit = true) :
    ∃ n : Nat, intText n = "1" ++ digits := by
  have hnat : ∀ cs : List Char, (∀ c ∈ cs, c.isDigit = true) →
      ∃ n : Nat, 0 < n ∧ Nat.toDigits 10 n = '1' :: cs := by
    intro cs hcs
    induction cs using List.reverseRecOn with
    | nil => exact ⟨1, by decide, rfl⟩
    | append_singleton cs c ih =>
      rw [List.forall_mem_append] at hcs
      obtain ⟨n, hpos, hn⟩ := ih hcs.1
      obtain ⟨k, hk, rfl⟩ := exists_digitChar (hcs.2 c (List.mem_singleton_self c))
      refine ⟨10 * n + k, by omega, ?_⟩
      rw [← Nat.toDigits_append_toDigits (by decide) hpos hk, hn, Nat.toDigits_of_lt_base hk,
        List.cons_append]
  obtain ⟨n, -, hn⟩ := hnat digits.toList h
  refine ⟨n, String.toList_inj.mp ?_⟩
  rw [toList_intText, if_neg (by omega), Int.natAbs_natCast, hn, String.toList_append]
  rfl

/-- Settings that pass their check have a delimiter that patterns can look for. -/
theorem delimiter_of_check {s : Settings} (h : s.check = .ok ()) :
    s.pathDelimiter ≠ "" ∧ ∀ c ∈ s.pathDelimiter.toList, Settings.isMetacharacter c = false := by
  unfold Settings.check at h
  split at h
  · cases h
  · next hneeded =>
    split at h
    · cases h
    · next hmeta =>
      constructor
      · have hempty := List.find?_eq_none.mp hneeded ("path_delimiter", s.pathDelimiter)
          (by simp [Settings.needed])
        simpa using hempty
      · intro c hc
        simpa using List.find?_eq_none.mp hmeta c hc

end GraphPlan.Sql
