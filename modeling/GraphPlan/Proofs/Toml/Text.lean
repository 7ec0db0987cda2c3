import GraphPlan.Toml.Text
import Mathlib.Tactic.SplitIfs

/-!
Every text is read back from the style that it is written in.

The basic styles escape whatever they cannot hold, so they hold every text. The literal styles hold what
`styleOf` puts into them. In a style of several lines, up to two quotes may stand before any character, the
closing quotes included, so what is read is said together with the quotes that were written before.
-/

namespace GraphPlan.Toml

theorem coded?_control : ∀ n < 128,
    coded? ['0', '0', upperHex (n / 16), upperHex (n % 16)] = some (Char.ofNat n) := by
  decide

theorem coded?_of_isControl {c : Char} (h : isControl c = true) :
    coded? ['0', '0', upperHex (c.toNat / 16), upperHex (c.toNat % 16)] = some c := by
  have hlt : c.toNat < 128 := by
    simp only [isControl, Bool.or_eq_true, decide_eq_true_eq] at h
    omega
  rw [coded?_control c.toNat hlt, Char.ofNat_toNat]

/-- A carriage return is never held as it is. -/
theorem ne_return {c : Char} (h : isPlain c = true ∨ c = '\n') : c ≠ '\r' := by
  intro hc
  subst hc
  revert h
  decide

/-- How a character is written in a basic style: as it is, by a letter or by its code. -/
inductive Escaped (multi : Bool) (c : Char) : List Char → Prop
  | plain (hc : isPlain c = true ∨ multi = true ∧ c = '\n') (hb : c ≠ '\\') : Escaped multi c [c]
  | letter {l : Char} (h : unescape? l = some c) : Escaped multi c ['\\', l]
  | code {a b : Char} (h : coded? ['0', '0', a, b] = some c) :
    Escaped multi c ['\\', 'u', '0', '0', a, b]

theorem escaped_escape (multi : Bool) (c : Char) : Escaped multi c (escape multi c) := by
  unfold escape
  split_ifs with h1 h2 h3 h4 h5 h6 hm h7
  case pos => exact .letter (h1 ▸ rfl)
  case pos => exact .letter (h2 ▸ rfl)
  case pos => exact .letter (h3 ▸ rfl)
  case pos => exact .letter (h4 ▸ rfl)
  case pos => subst h5; exact .letter rfl
  case pos => subst h6; exact .plain (.inr ⟨hm, rfl⟩) h5
  case neg => exact .letter (h6 ▸ rfl)
  case pos => exact .code (coded?_of_isControl h7)
  case neg => exact .plain (.inl (by simp [isPlain, h7])) h5

/-- A letter that stands for a character starts no code and ends no line. -/
theorem of_unescape? {l c : Char} (h : unescape? l = some c) :
    l ≠ 'u' ∧ l ≠ 'U' ∧ ∀ rest, endsLine (l :: rest) = false := by
  refine ⟨?_, ?_, fun rest => ?_⟩
  · intro hu
    subst hu
    cases h
  · intro hU
    subst hU
    cases h
  · unfold unescape? at h
    split_ifs at h with h1 h2 h3 h4 h5 h6 h7 <;> subst l <;> rfl

section Basic

variable {c : Char} {cs : List Char}

theorem Escaped.basicBody (h : Escaped false c cs) (hq : c ≠ '"') (rest : List Char) :
    basicBody (cs ++ rest) = (basicBody rest).map (prepend c) := by
  cases h with
  | plain hc hb =>
    have hplain : isPlain c = true := by simpa using hc
    simp [Toml.basicBody, hb, hplain]
  | letter h =>
    obtain ⟨hu, hU, -⟩ := of_unescape? h
    cases hr : Toml.basicBody rest <;> simp [Toml.basicBody, h, hr, hu, hU]
  | code h => cases hr : Toml.basicBody rest <;> simp [Toml.basicBody, h, hr]

theorem Escaped.multiBasicBody (h : Escaped true c cs) (hq : c ≠ '"') (rest : List Char) :
    multiBasicBody false (cs ++ rest) = (multiBasicBody false rest).map (prepend c) := by
  cases h with
  | plain hc hb =>
    have hplain : isPlain c = true ∨ c = '\n' := hc.imp_right And.right
    have hreturn := ne_return hplain
    simp only [List.singleton_append]
    rw [Toml.multiBasicBody] <;> simp_all
  | letter h =>
    obtain ⟨hu, hU, hend⟩ := of_unescape? h
    cases hr : Toml.multiBasicBody false rest <;> simp [Toml.multiBasicBody, h, hr, hu, hU, hend]
  | code h => cases hr : Toml.multiBasicBody false rest <;> simp [Toml.multiBasicBody, h, hr]

/-- No escape starts with a quote, or breaks the line unless it is of a line break. -/
theorem Escaped.head {multi : Bool} (h : Escaped multi c cs) (hq : c ≠ '"') :
    ∃ d ds, cs = d :: ds ∧ d ≠ '"' ∧ d ≠ '\r' ∧ (d = '\n' → c = '\n') := by
  cases h with
  | plain hc hb =>
    exact ⟨c, [], rfl, hq, ne_return (hc.imp_right And.right), id⟩
  | letter h => exact ⟨'\\', _, rfl, by decide, by decide, by simp⟩
  | code h => exact ⟨'\\', _, rfl, by decide, by decide, by simp⟩

end Basic

theorem basicBody_basicText (cs rest : List Char) :
    basicBody (basicText cs ++ '"' :: rest) = some (cs, rest) := by
  induction cs with
  | nil => rfl
  | cons c cs ih =>
    rw [basicText, List.append_assoc]
    split
    · next hq =>
      subst hq
      simp [basicBody, unescape?, ih, prepend]
    · next hq =>
      rw [(escaped_escape false c).basicBody hq, ih]
      rfl

theorem literalBody_append {cs : List Char} (hc : ∀ c ∈ cs, isPlain c = true ∧ c ≠ '\'')
    (rest : List Char) : literalBody (cs ++ '\'' :: rest) = some (cs, rest) := by
  induction cs with
  | nil => rfl
  | cons c cs ih =>
    obtain ⟨hplain, hq⟩ := hc c List.mem_cons_self
    have hrest := ih fun c hm => hc c (List.mem_cons_of_mem _ hm)
    simp [literalBody, hplain, hrest, prepend]

/-- How a text of several lines is read at quotes: three of them close it, and what stands before the last
three belongs to the text. -/
structure Quoting (mark : Char) (body : List Char → Option (List Char × List Char)) : Prop where
  close : ∀ rest, body (mark :: mark :: mark :: rest) = some (spareQuotes mark rest)
  one : ∀ d rest, d ≠ mark → body (mark :: d :: rest) = (body (d :: rest)).map (prepend mark)
  two : ∀ d rest, d ≠ mark →
    body (mark :: mark :: d :: rest) = (body (mark :: d :: rest)).map (prepend mark)

theorem quoting_multiBasicBody : Quoting '"' (multiBasicBody false) where
  close rest := by rw [multiBasicBody]
  one d rest hd := by
    rw [multiBasicBody] <;> simp_all [isPlain, isControl]
  two d rest hd := by
    rw [multiBasicBody] <;> simp_all [isPlain, isControl]

theorem quoting_multiLiteralBody : Quoting '\'' multiLiteralBody where
  close rest := by rw [multiLiteralBody]
  one d rest hd := by
    rw [multiLiteralBody] <;> simp_all [isPlain, isControl]
  two d rest hd := by
    rw [multiLiteralBody] <;> simp_all [isPlain, isControl]

/-- Put a row of characters before what was read. -/
def prependAll (cs : List Char) (read : List Char × List Char) : List Char × List Char :=
  (cs ++ read.1, read.2)

namespace Quoting

variable {mark : Char} {body : List Char → Option (List Char × List Char)} (h : Quoting mark body)

include h

/-- Up to two quotes before another character belong to the text. -/
theorem before {d : Char} (hd : d ≠ mark) {run : Nat} (hr : run ≤ 2) (rest : List Char) :
    body (List.replicate run mark ++ d :: rest) =
      (body (d :: rest)).map (prependAll (List.replicate run mark)) := by
  match run, hr with
  | 0, _ => cases hbody : body (d :: rest) <;> simp [hbody, prependAll]
  | 1, _ =>
    rw [List.replicate_one, List.singleton_append, h.one d rest hd]
    rfl
  | 2, _ =>
    simp only [List.replicate_succ, List.replicate_zero, List.cons_append, List.nil_append]
    rw [h.two d rest hd, h.one d rest hd, Option.map_map]
    rfl

/-- Up to two quotes before the closing ones belong to the text. -/
theorem atEnd {rest : List Char} (hp : rest.head? ≠ some mark) {run : Nat} (hr : run ≤ 2) :
    body (List.replicate run mark ++ mark :: mark :: mark :: rest) =
      some (List.replicate run mark, rest) := by
  have hspare : spareQuotes mark (List.replicate run mark ++ rest) =
      (List.replicate run mark, rest) := by
    match run, hr, rest with
    | 0, _, [] => rfl
    | 0, _, [a] => simp_all [spareQuotes]
    | 0, _, a :: b :: rest => simp_all [spareQuotes]
    | 1, _, [] => simp [spareQuotes]
    | 1, _, a :: rest => simp_all [spareQuotes]
    | 2, _, rest => simp [spareQuotes, List.replicate_succ]
  rw [← hspare, ← h.close]
  match run, hr with
  | 0, _ | 1, _ | 2, _ => rfl

end Quoting

theorem multiBasicBody_multiBasicText {rest : List Char} (hp : rest.head? ≠ some '"') (cs : List Char) :
    ∀ run ≤ 2, multiBasicBody false
      (List.replicate run '"' ++ (multiBasicText run cs ++ '"' :: '"' :: '"' :: rest)) =
      some (List.replicate run '"' ++ cs, rest) := by
  have hquoting := quoting_multiBasicBody
  induction cs with
  | nil =>
    intro run hr
    rw [multiBasicText, List.nil_append, hquoting.atEnd hp hr, List.append_nil]
  | cons c cs ih =>
    intro run hr
    rw [multiBasicText]
    split
    · next hq =>
      subst hq
      split
      · next htwo =>
        subst htwo
        have hescaped : multiBasicBody false ('\\' :: '"' :: (multiBasicText 0 cs ++
            '"' :: '"' :: '"' :: rest)) = some ('"' :: cs, rest) := by
          have hread := ih 0 (Nat.zero_le 2)
          simp only [List.replicate_zero, List.nil_append] at hread
          simp [multiBasicBody, hread, endsLine, unescape?, prepend, isBlank]
        rw [List.cons_append, List.cons_append, hquoting.before (by decide) hr, hescaped]
        rfl
      · next htwo =>
        -- The quote joins those before it.
        have hread := ih (run + 1) (by omega)
        rw [List.replicate_succ', List.append_assoc] at hread
        simpa using hread
    · next hq =>
      obtain ⟨d, ds, hds, hd, -⟩ := (escaped_escape true c).head hq
      have hread := ih 0 (Nat.zero_le 2)
      simp only [List.replicate_zero, List.nil_append] at hread
      have hescape := (escaped_escape true c).multiBasicBody hq
        (multiBasicText 0 cs ++ '"' :: '"' :: '"' :: rest)
      rw [hds, hread] at hescape
      rw [hds, List.append_assoc, List.cons_append, hquoting.before hd hr, ← List.cons_append, hescape]
      rfl

theorem multiLiteralBody_append {rest : List Char} (hp : rest.head? ≠ some '\'') (cs : List Char)
    (hc : ∀ c ∈ cs, isPlain c = true ∨ c = '\n') :
    ∀ run, longestRun '\'' run cs ≤ 2 → multiLiteralBody
      (List.replicate run '\'' ++ (cs ++ '\'' :: '\'' :: '\'' :: rest)) =
      some (List.replicate run '\'' ++ cs, rest) := by
  have hquoting := quoting_multiLiteralBody
  induction cs with
  | nil =>
    intro run hr
    rw [longestRun] at hr
    rw [List.nil_append, hquoting.atEnd hp hr, List.append_nil]
  | cons c cs ih =>
    intro run hr
    have ih := ih fun c hm => hc c (List.mem_cons_of_mem _ hm)
    rw [longestRun] at hr
    split at hr
    · next hq =>
      subst hq
      have hread := ih (run + 1) hr
      rw [List.replicate_succ', List.append_assoc] at hread
      simpa using hread
    · next hq =>
      have hread := ih 0 (by omega)
      simp only [List.replicate_zero, List.nil_append] at hread
      have hplain := hc c List.mem_cons_self
      have hreturn := ne_return hplain
      have hchar : multiLiteralBody (c :: (cs ++ '\'' :: '\'' :: '\'' :: rest)) =
          some (c :: cs, rest) := by
        rw [multiLiteralBody] <;> simp_all [prepend]
      rw [List.cons_append, hquoting.before hq (by omega), hchar]
      rfl

/-- What the choice of a style says about a text. -/
inductive Styled (cs : List Char) : Style → Prop
  | basic : Styled cs .basic
  | literal (hc : ∀ c ∈ cs, isPlain c = true ∧ c ≠ '\'') : Styled cs .literal
  | multiBasic : Styled cs .multiBasic
  | multiLiteral (hc : ∀ c ∈ cs, isPlain c = true ∨ c = '\n') (hr : longestRun '\'' 0 cs ≤ 2) :
    Styled cs .multiLiteral

theorem le_longestRun (mark : Char) (run : Nat) (cs : List Char) : run ≤ longestRun mark run cs := by
  induction cs generalizing run with
  | nil => exact Nat.le_refl run
  | cons c cs ih =>
    rw [longestRun]
    split
    · exact Nat.le_of_succ_le (ih (run + 1))
    · exact Nat.le_max_left ..

theorem notMem_of_longestRun {mark : Char} {cs : List Char} (h : longestRun mark 0 cs = 0) :
    mark ∉ cs := by
  induction cs with
  | nil => simp
  | cons c cs ih =>
    rw [longestRun] at h
    split at h
    · have hle := le_longestRun mark (0 + 1) cs
      omega
    · next hc =>
      have hrest := ih (by omega)
      simp [hrest, Ne.symm hc]

theorem styled_styleOf (cs : List Char) : Styled cs (styleOf cs) := by
  have hplain : cs.any isHardControl = false → ∀ c ∈ cs, isPlain c = true ∨ c = '\n' := by
    intro h c hm
    have hc := List.any_eq_false.mp h c hm
    by_cases hcontrol : isControl c = true <;> simp_all [isHardControl, isPlain]
    exact Classical.or_iff_not_imp_left.mpr hc
  unfold styleOf
  dsimp only
  split_ifs with h1 h2 h3 h4 h5
  · exact .basic
  · simp only [Bool.and_eq_true, Bool.not_eq_true', decide_eq_true_eq] at h2
    obtain ⟨⟨hhard, hsingles⟩, hnewline⟩ := h2
    refine .literal fun c hm => ⟨(hplain hhard c hm).resolve_right ?_, ?_⟩
    · intro hc
      rw [hc] at hm
      simp [hm] at hnewline
    · intro hc
      rw [hc] at hm
      exact notMem_of_longestRun hsingles hm
  · exact .multiBasic
  · simp only [Bool.and_eq_true, Bool.not_eq_true', decide_eq_true_eq] at h4
    exact .multiLiteral (hplain h4.1) h4.2
  · exact .multiBasic
  · exact .basic

/-- The line break that opens a text is left out again. -/
theorem dropNewline_opening {cs text : List Char}
    (h : '\n' ∉ cs → text.head? ≠ some '\n' ∧ text.head? ≠ some '\r') :
    dropNewline (opening cs ++ text) = text := by
  unfold opening
  split
  · rfl
  · next hn =>
    obtain ⟨hnewline, hreturn⟩ := h (by simpa using hn)
    rw [List.nil_append]
    unfold dropNewline
    split <;> simp_all

theorem basicText_head? (cs : List Char) : (basicText cs).head? ≠ some '"' := by
  cases cs with
  | nil => simp [basicText]
  | cons c cs =>
    rw [basicText]
    split
    · simp
    · next hq =>
      obtain ⟨d, ds, hds, hd, -⟩ := (escaped_escape false c).head hq
      simpa [hds] using hd

theorem multiBasicText_head? {cs : List Char} (hn : '\n' ∉ cs) (rest : List Char) :
    (multiBasicText 0 cs ++ '"' :: rest).head? ≠ some '\n' ∧
      (multiBasicText 0 cs ++ '"' :: rest).head? ≠ some '\r' := by
  cases cs with
  | nil => simp [multiBasicText]
  | cons c cs =>
    rw [multiBasicText]
    split
    · simp
    · next hq =>
      obtain ⟨d, ds, hds, -, hreturn, hnewline⟩ := (escaped_escape true c).head hq
      have hc : c ≠ '\n' := fun h => hn (by simp [h])
      simp only [hds, List.cons_append, List.head?_cons, ne_eq, Option.some.injEq]
      exact ⟨fun h => hc (hnewline h), hreturn⟩

theorem plain_head? {cs : List Char} (hc : ∀ c ∈ cs, isPlain c = true ∨ c = '\n') (hn : '\n' ∉ cs)
    (rest : List Char) : (cs ++ '\'' :: rest).head? ≠ some '\n' ∧
      (cs ++ '\'' :: rest).head? ≠ some '\r' := by
  cases cs with
  | nil => simp
  | cons c cs =>
    have hnewline : c ≠ '\n' := fun h => hn (by simp [h])
    have hreturn := ne_return (hc c List.mem_cons_self)
    simp [hnewline, hreturn]

/-- A text of one line is not taken for one of several lines. -/
theorem ne_of_parted {mark : Char} {cs rest : List Char} (hc : cs.head? ≠ some mark)
    (hr : rest.head? ≠ some mark) (text : List Char) : cs ++ mark :: rest ≠ mark :: mark :: text := by
  cases cs with
  | nil =>
    intro h
    rw [List.nil_append, List.cons.injEq] at h
    simp [h.2] at hr
  | cons c cs =>
    intro h
    rw [List.cons_append, List.cons.injEq] at h
    simp [h.1] at hc

theorem read_basic {text : List Char} (h : ∀ rest, text ≠ '"' :: '"' :: rest) :
    read ('"' :: text) = basicBody text := by
  unfold read
  split <;> simp_all

theorem read_literal {text : List Char} (h : ∀ rest, text ≠ '\'' :: '\'' :: rest) :
    read ('\'' :: text) = literalBody text := by
  unfold read
  split <;> simp_all

/-- A text is read back whatever style was chosen for it, as long as no quote follows. -/
theorem read_write {rest : List Char} (hd : rest.head? ≠ some '"') (hs : rest.head? ≠ some '\'')
    (cs : List Char) : read (write cs ++ rest) = some (cs, rest) := by
  have hstyled := styled_styleOf cs
  unfold write
  generalize styleOf cs = style at hstyled
  cases hstyled with
  | basic =>
    have hread := read_basic (ne_of_parted (basicText_head? cs) hd)
    rw [basicBody_basicText] at hread
    simpa using hread
  | literal hc =>
    have hhead : cs.head? ≠ some '\'' := fun h => (hc _ (List.mem_of_head? h)).2 rfl
    have hread := read_literal (ne_of_parted hhead hs)
    rw [literalBody_append hc] at hread
    simpa using hread
  | multiBasic =>
    have hread := multiBasicBody_multiBasicText hd cs 0 (Nat.zero_le 2)
    rw [List.replicate_zero, List.nil_append, List.nil_append,
      ← dropNewline_opening fun hn => multiBasicText_head? hn ('"' :: '"' :: rest)] at hread
    simpa [read] using hread
  | multiLiteral hc hr =>
    have hread := multiLiteralBody_append hs cs hc 0 hr
    rw [List.replicate_zero, List.nil_append, List.nil_append,
      ← dropNewline_opening fun hn => plain_head? hc hn ('\'' :: '\'' :: rest)] at hread
    simpa [read] using hread

end GraphPlan.Toml
