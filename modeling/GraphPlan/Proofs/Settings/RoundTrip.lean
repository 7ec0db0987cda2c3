import GraphPlan.Proofs.Toml.Text
import GraphPlan.Settings.Toml

namespace GraphPlan

namespace Toml

/-- No bare key starts with a blank, a comment, a line break or a quote. -/
theorem of_isBareKey {c : Char} (h : isBareKey c = true) :
    isBlank c = false ∧ c ≠ '#' ∧ c ≠ '\n' ∧ c ≠ '\r' ∧ c ≠ '"' ∧ c ≠ '\'' := by
  have hne : ∀ d, isBareKey d = false → c ≠ d := by
    intro d hd hc
    rw [hc, hd] at h
    cases h
  have hspace := hne ' ' (by decide)
  have htab := hne '\t' (by decide)
  have hblank : isBlank c = false := by simp [isBlank, hspace, htab]
  exact ⟨hblank, hne '#' (by decide), hne '\n' (by decide), hne '\r' (by decide),
    hne '"' (by decide), hne '\'' (by decide)⟩

/-- A key that needs no quotes. -/
def BareKey (key : String) : Prop := key ≠ "" ∧ key.toList.all isBareKey = true

instance (key : String) : Decidable (BareKey key) := inferInstanceAs (Decidable (_ ∧ _))

section

variable {key : String} (hk : BareKey key)

include hk

theorem BareKey.exists_cons : ∃ c cs, key.toList = c :: cs ∧ isBareKey c = true := by
  obtain ⟨hne, hall⟩ := hk
  cases hl : key.toList with
  | nil => exact absurd (by simpa using hl) hne
  | cons c cs =>
    rw [hl, List.all_cons, Bool.and_eq_true] at hall
    exact ⟨c, cs, rfl, hall.1⟩

theorem takeLineEnd_bareKey (rest : List Char) : takeLineEnd (key.toList ++ rest) = none := by
  obtain ⟨c, cs, hl, hc⟩ := hk.exists_cons
  obtain ⟨hblank, hcomment, hnewline, hreturn, -⟩ := of_isBareKey hc
  simp [hl, takeLineEnd, takeNewline, hblank, hcomment, hnewline, hreturn]

theorem dropWhile_bareKey (rest : List Char) :
    (key.toList ++ rest).dropWhile isBlank = key.toList ++ rest := by
  obtain ⟨c, cs, hl, hc⟩ := hk.exists_cons
  have hblank := (of_isBareKey hc).1
  simp [hl, hblank]

theorem takeKey_bareKey (rest : List Char) :
    takeKey (key.toList ++ ' ' :: rest) = some (key.toList, ' ' :: rest) := by
  obtain ⟨c, cs, hl, hc⟩ := hk.exists_cons
  obtain ⟨-, -, -, -, hdouble, hsingle⟩ := of_isBareKey hc
  have hall : ∀ d ∈ key.toList, isBareKey d = true := List.all_eq_true.mp hk.2
  have htake : (key.toList ++ ' ' :: rest).takeWhile isBareKey = key.toList := by
    rw [List.takeWhile_append_of_pos hall]
    simp [isBareKey]
  have hdrop : (key.toList ++ ' ' :: rest).dropWhile isBareKey = ' ' :: rest := by
    rw [List.dropWhile_append_of_pos hall]
    simp [isBareKey]
  rw [hl, List.cons_append] at htake hdrop ⊢
  rw [takeKey]
  · rw [htake, hdrop]
  · simp [hdouble]
  · simp [hsingle]

end

/-- A text starts with a quote. -/
theorem dropWhile_write (cs rest : List Char) :
    (write cs ++ rest).dropWhile isBlank = write cs ++ rest := by
  unfold write
  cases styleOf cs <;> simp [isBlank]

theorem toList_line (key value : String) :
    (line key value).toList = key.toList ++ ' ' :: '=' :: ' ' :: (write value.toList ++ ['\n']) := by
  simp [line]

/-- A line is read as its pair. -/
theorem takeLine_line {key : String} (hk : BareKey key) (value : String) (rest : List Char) :
    takeLine ((line key value).toList ++ rest) = some (some (key.toList, value.toList), rest) := by
  have hread : read (write value.toList ++ '\n' :: rest) = some (value.toList, '\n' :: rest) :=
    read_write (by simp) (by simp) value.toList
  have hpair : takePair (key.toList ++ ' ' :: '=' :: ' ' :: (write value.toList ++ '\n' :: rest)) =
      some ((key.toList, value.toList), '\n' :: rest) := by
    have hspace : isBlank ' ' = true := rfl
    have hequals : isBlank '=' = false := rfl
    simp [takePair, takeKey_bareKey hk, hspace, hequals, dropWhile_write, hread]
  have htext : (line key value).toList ++ rest =
      key.toList ++ ' ' :: '=' :: ' ' :: (write value.toList ++ '\n' :: rest) := by
    simp [toList_line]
  have hend : takeLineEnd ('\n' :: rest) = some rest := rfl
  rw [htext, takeLine, takeLineEnd_bareKey hk, dropWhile_bareKey hk, hpair]
  simp [hend]

/-- The lines of pairs are read as these pairs. -/
theorem takeLines_lines {pairs : List (String × String)} (hk : ∀ p ∈ pairs, BareKey p.1) :
    takeLines (pairs.flatMap fun p => (line p.1 p.2).toList) =
      some (pairs.map fun p => (p.1.toList, p.2.toList)) := by
  induction pairs with
  | nil => simp [takeLines]
  | cons p pairs ih =>
    have hrest := ih fun q hq => hk q (List.mem_cons_of_mem p hq)
    have hline := takeLine_line (hk p List.mem_cons_self) p.2
      (pairs.flatMap fun q => (line q.1 q.2).toList)
    have hne : (line p.1 p.2).toList ≠ [] := by simp [toList_line]
    rw [List.flatMap_cons, takeLines, if_neg (by simp [hne]), hline]
    simp [hrest, hne, List.length_pos_iff]

/-- No bare key starts with a mark of the byte order. -/
theorem dropByteOrderMark_lines {pairs : List (String × String)} (hk : ∀ p ∈ pairs, BareKey p.1) :
    dropByteOrderMark (pairs.flatMap fun p => (line p.1 p.2).toList) =
      pairs.flatMap fun p => (line p.1 p.2).toList := by
  cases pairs with
  | nil => rfl
  | cons p pairs =>
    obtain ⟨c, cs, hl, hc⟩ := (hk p List.mem_cons_self).exists_cons
    have hmark : c ≠ '\ufeff' := by
      intro h
      rw [h] at hc
      exact absurd hc (by decide)
    simp [toList_line, hl, dropByteOrderMark, hmark]

/-- A document of pairs under different bare keys is read as these pairs. -/
theorem pairs?_lines {pairs : List (String × String)} (hk : ∀ p ∈ pairs, BareKey p.1)
    (hd : (pairs.map Prod.fst).Nodup) {document : String}
    (h : document.toList = pairs.flatMap fun p => (line p.1 p.2).toList) :
    pairs? document = some pairs := by
  rw [pairs?, h, dropByteOrderMark_lines hk, takeLines_lines hk]
  simp [Function.comp_def, hd]

end Toml

namespace Settings

/-- What a document says about the settings. -/
def pairs (s : Settings) : List (String × String) :=
  [("backend", s.backend.name)] ++ s.combinator.toList.map (("recursion_combinator", ·)) ++
    [("depth_column", s.depthColumn), ("path_column", s.pathColumn),
      ("path_delimiter", s.pathDelimiter), ("cast_type", s.castType), ("cte_prefix", s.cteStem)]

theorem toList_toToml (s : Settings) :
    s.toToml.toList = s.pairs.flatMap fun p => (Toml.line p.1 p.2).toList := by
  cases hc : s.combinator <;> simp [toToml, pairs, hc]

theorem pairs?_toToml (s : Settings) : Toml.pairs? s.toToml = some s.pairs := by
  refine Toml.pairs?_lines ?_ ?_ s.toList_toToml
  · cases hc : s.combinator <;> simp [pairs, hc] <;> decide
  · cases hc : s.combinator <;> simp [pairs, hc]

theorem ofName?_name (b : Backend) : Backend.ofName? b.name = some b := by
  cases b <;> decide

theorem parse?_toToml (s : Settings) : parse? s.toToml = some s := by
  rw [parse?, pairs?_toToml]
  obtain ⟨backend, combinator, _, _, _, _, _⟩ := s
  cases combinator <;> simp [pairs, set?, ofName?_name, standard, forBackend]

/-- The check never fails for the reason that a document is refused for. -/
theorem check_ne_unparsed (s : Settings) : s.check ≠ .error Fault.unparsed.error := by
  intro h
  unfold check at h
  split at h
  · next field _ _ =>
    have htext : field ++ " must not be empty" = "failed to parse TOML" :=
      Error.settings.inj (Except.error.inj h)
    have hlast := congrArg (fun t : String => t.toList.getLast?) htext
    simp at hlast
  · split at h
    · have htext := congrArg String.toList (Error.settings.inj (Except.error.inj h))
      simp at htext
    · split at h
      · have htext := congrArg String.toList (Error.settings.inj (Except.error.inj h))
        simp at htext
      · split at h
        · next name _ =>
          unfold Sql.Combinator.ofName at h
          split at h
          · cases h
          · split at h
            · cases h
            · cases h
        · cases h

/-- Settings are read back from their document as they are. Where they fail their check, its error is what
comes of the document, and never that the document cannot be read. -/
theorem ofToml_toToml (s : Settings) :
    parse? s.toToml = some s ∧ ofToml s.toToml = (s.check.map fun _ => s) ∧
      ofToml s.toToml ≠ .error Fault.unparsed.error := by
  have hparse := parse?_toToml s
  have hread : ofToml s.toToml = s.check.map fun _ => s := by rw [ofToml, hparse]
  have hcheck := s.check_ne_unparsed
  refine ⟨hparse, hread, ?_⟩
  rw [hread]
  cases hs : s.check with
  | ok _ => simp [Except.map]
  | error e =>
    rw [hs] at hcheck
    simpa [Except.map] using hcheck

end Settings

end GraphPlan
