import AssetPipeline.Proofs.Build.Generated
import AssetPipeline.Settings.File

/-! Build files that are taken for something else. Settings and description may name the same file as the
build file, and then it is read in their place at the next run. It is neither: no description has a number
sign outside a text, and in no settings file a line is two words. -/

namespace AssetPipeline

/-! ### As a description -/

theorem Script.exists_evaluate_error {source : String} {c : Char} {text : List Char}
    (hsource : source.toList = c :: text) (hmeasure : Lexeme.measure? (c :: text) = none) :
    ∃ error, Script.evaluate source = .error error := by
  have hlexemes : lexemes source.toList = ([], c :: text) := by
    rw [hsource, lexemes.eq_def, hmeasure]
  have htokens : ∃ fault, tokenize source = .error fault := by
    rw [tokenize, hlexemes]
    exact ⟨_, rfl⟩
  obtain ⟨fault, hfault⟩ := htokens
  refine ⟨fault.locate source, ?_⟩
  rw [evaluate, parse, hfault]
  rfl

namespace Ninja

/-- Rules come right behind the first line, and the first begins with two words. -/
theorem exists_toList_render {g : BuildGraph} (h : g.rules ≠ []) : ∃ r ∈ g.rules, ∃ rest,
    g.render.toList = header.toList ++ '\n' :: '\n' :: ("rule " ++ r.name).toList ++ '\n' :: rest := by
  obtain ⟨r, rules, hrules⟩ := List.exists_cons_of_ne_nil h
  refine ⟨r, hrules ▸ List.mem_cons_self, ?_⟩
  rw [toList_render, lines, hrules, List.flatMap_cons, ruleLines_eq]
  simp

theorem toList_header : header.toList = '#' :: header.toList.tail := by decide

theorem exists_cons_render (g : BuildGraph) : ∃ text, g.render.toList = '#' :: text := by
  rw [toList_render, lines, List.append_assoc, List.append_assoc, List.singleton_append, List.map_cons,
    List.flatMap_cons, toList_header]
  exact ⟨_, rfl⟩

theorem exists_evaluate_render (g : BuildGraph) : ∃ error, Script.evaluate g.render = .error error := by
  obtain ⟨text, htext⟩ := exists_cons_render g
  refine Script.exists_evaluate_error htext ?_
  simp [Script.Lexeme.measure?, Script.Lexeme.punctuation?, Script.Lexeme.isBlank,
    Script.Lexeme.isNameStart]

end Ninja

/-! ### As settings -/

namespace Toml

/-- The first line of a text holds nothing but words of name characters. -/
def Wordy (text : Text) : Prop :=
  ∃ line rest, text = line ++ '\n' :: rest ∧ ∀ c ∈ line, Ninja.isNameChar c = true ∨ c = ' '

variable {text rest : Text}

theorem Wordy.exists_cons (h : Wordy text) : ∃ c rest, text = c :: rest ∧
    (c = '\n' ∨ (Ninja.isNameChar c = true ∨ c = ' ') ∧ Wordy rest) := by
  obtain ⟨line, rest, rfl, hline⟩ := h
  cases line with
  | nil => exact ⟨_, _, rfl, .inl rfl⟩
  | cons c line =>
      rw [List.forall_mem_cons] at hline
      exact ⟨_, _, rfl, .inr ⟨hline.1, line, rest, rfl, hline.2⟩⟩

theorem Wordy.dropWhile {p : Char → Bool} (hp : p '\n' = false) (h : Wordy text) :
    Wordy (text.dropWhile p) := by
  obtain ⟨line, rest, rfl, hline⟩ := h
  induction line with
  | nil =>
      rw [List.nil_append, List.dropWhile_cons_of_neg (by simp [hp])]
      exact ⟨[], rest, rfl, List.forall_mem_nil _⟩
  | cons c line ih =>
      rw [List.cons_append]
      by_cases hc : p c = true
      · rw [List.dropWhile_cons_of_pos hc]
        exact ih (List.forall_mem_cons.mp hline).2
      · rw [List.dropWhile_cons_of_neg hc]
        exact ⟨c :: line, rest, rfl, hline⟩

theorem Wordy.ne_cons {c : Char} (h : Wordy text) (hfeed : c ≠ '\n') (hspace : c ≠ ' ')
    (hname : Ninja.isNameChar c = false) : text ≠ c :: rest := by
  obtain ⟨first, more, rfl, hfirst⟩ := h.exists_cons
  rintro heq
  cases heq
  rcases hfirst with rfl | ⟨hfirst | rfl, -⟩
  · exact hfeed rfl
  · rw [hname] at hfirst
    cases hfirst
  · exact hspace rfl

theorem Wordy.of_readKeyPart {part : String} (h : Wordy text) (hread : readKeyPart text = some (part, rest)) :
    Wordy rest := by
  rw [readKeyPart] at hread
  split at hread
  · -- Without a bare part there would have to be a quote.
    have hbody : Strings.readShort.body text = none := by
      unfold Strings.readShort.body
      split
      · exact absurd rfl (h.ne_cons (by decide) (by decide) (by decide))
      · exact absurd rfl (h.ne_cons (by decide) (by decide) (by decide))
      · rfl
    rw [Strings.readShort, hbody] at hread
    cases hread
  · cases hread
    exact h.dropWhile (by decide)

theorem Wordy.of_parts {bound : Nat} {path : List String} (h : Wordy text)
    (hread : readKey.parts bound text = some (path, rest)) : Wordy rest := by
  induction bound generalizing text path with
  | zero => cases hread
  | succ bound ih =>
      rw [readKey.parts, Option.bind_eq_bind, Option.bind_eq_some_iff] at hread
      obtain ⟨⟨part, behind⟩, hpart, hread⟩ := hread
      have hbehind : Wordy (Text.skipBlanks behind) :=
        ((h.dropWhile (by decide)).of_readKeyPart hpart).dropWhile (by decide)
      dsimp only at hread
      split at hread
      · rename_i more hdot
        rw [hdot] at hbehind
        obtain ⟨c, more', heq, hfirst⟩ := hbehind.exists_cons
        cases heq
        rw [Option.bind_eq_bind, Option.bind_eq_some_iff] at hread
        obtain ⟨⟨path', rest'⟩, hrest, hread⟩ := hread
        cases hread
        rcases hfirst with hfeed | ⟨-, hmore⟩
        · cases hfeed
        · exact ih hmore hrest
      · cases hread
        exact hbehind

theorem Wordy.of_readKey {path : List String} (h : Wordy text) (hread : readKey text = some (path, rest)) :
    Wordy rest := by
  rw [readKey, Option.bind_eq_bind, Option.bind_eq_some_iff] at hread
  obtain ⟨⟨path', rest'⟩, hparts, hread⟩ := hread
  rw [Option.bind_eq_bind, Option.bind_eq_some_iff] at hread
  obtain ⟨-, -, hread⟩ := hread
  cases hread
  exact h.of_parts hparts

theorem Wordy.after?_equals (h : Wordy text) : Text.after? "=" text = none := by
  rw [Text.after?, if_neg]
  intro hprefix
  obtain ⟨behind, hbehind⟩ := List.isPrefixOf_iff_prefix.mp hprefix
  exact h.ne_cons (by decide) (by decide) (by decide) hbehind.symm

theorem skipBlanks_name {c : Char} (hname : Ninja.isNameChar c = true) :
    Text.skipBlanks (c :: text) = c :: text := by
  rw [Text.skipBlanks, List.dropWhile_cons_of_neg]
  rintro hblank
  rw [Text.isBlank, Bool.or_eq_true, decide_eq_true_eq, decide_eq_true_eq] at hblank
  rcases hblank with rfl | rfl <;> exact absurd hname (by decide)

/-- A line with a word in it is not at its end. -/
theorem Wordy.endOfLine?_name {c : Char} (h : Wordy (c :: text)) (hname : Ninja.isNameChar c = true) :
    Text.endOfLine? (c :: text) = none := by
  have hcomment : Text.skipComment (c :: text) = c :: text := by
    unfold Text.skipComment
    split
    · exact absurd ‹_› (h.ne_cons (by decide) (by decide) (by decide))
    · rfl
  rw [Text.endOfLine?, skipBlanks_name hname, hcomment]
  dsimp only
  unfold Text.newline?
  split
  · rename_i heq
    cases heq
    exact absurd hname (by decide)
  · rename_i heq
    cases heq
    exact absurd hname (by decide)
  · rfl

/-- Words are a key at most, and a key is nothing without an equals sign. -/
theorem Wordy.readLine_eq_none (h : Wordy text) {c : Char} {more : Text} (htext : text = c :: more)
    (hname : Ninja.isNameChar c = true) (p : Progress) : p.readLine text = none := by
  subst htext
  rw [Progress.readLine, skipBlanks_name hname]
  split
  · exact absurd ‹_› (h.ne_cons (by decide) (by decide) (by decide))
  · exact absurd ‹_› (h.ne_cons (by decide) (by decide) (by decide))
  · rw [h.endOfLine?_name hname]
    dsimp only
    cases hkey : readKey (c :: more) with
    | none => rfl
    | some read =>
        rw [Option.bind_eq_bind, Option.bind_some, (h.of_readKey hkey).after?_equals]
        rfl

theorem readLine_of_endOfLine? {p : Progress} {c : Char} (hblank : Text.isBlank c = false) (hc : c ≠ '[')
    (hend : Text.endOfLine? (c :: text) = some rest) : p.readLine (c :: text) = some (p, rest) := by
  have hskip : Text.skipBlanks (c :: text) = c :: text :=
    List.dropWhile_cons_of_neg (by simp [hblank])
  rw [Progress.readLine, hskip]
  split
  · rename_i heq
    cases heq
    exact absurd rfl hc
  · rename_i heq
    cases heq
    exact absurd rfl hc
  · rw [hend]

/-- What is read of a line is followed by what cannot be read. -/
theorem readLines_eq_none {p : Progress} {c : Char}
    (h : ∀ p' rest, p.readLine (c :: text) = some (p', rest) → ∀ bound, p'.readLines bound rest = none)
    (bound : Nat) : p.readLines bound (c :: text) = none := by
  cases bound with
  | zero => rfl
  | succ bound =>
      rw [Progress.readLines, Option.bind_eq_bind, Option.bind_eq_none_iff]
      · exact fun read hread => h _ _ hread bound
      · exact List.cons_ne_nil _ _

/-- A build file with a rule is no document. -/
theorem parse_render {g : BuildGraph} (h : g.WellFormed) (hrules : g.rules ≠ []) :
    parse g.render = none := by
  obtain ⟨r, hr, rest, hrender⟩ := Ninja.exists_toList_render hrules
  have hname := (h.rule_sound r hr).name_valid
  -- The first line is a comment, the second is empty, and the third is two words.
  have hcomment : ∀ rest, Text.endOfLine? ('#' :: (Ninja.header.toList.tail ++ '\n' :: rest)) = some rest := by
    intro rest
    have hprintable : ∀ c ∈ Ninja.header.toList.tail, Text.isPrintable c = true :=
      List.all_eq_true.mp (by decide)
    rw [Text.endOfLine?, Text.skipBlanks, List.dropWhile_cons_of_neg (by decide), Text.skipComment,
      List.dropWhile_append_of_pos hprintable, List.dropWhile_cons_of_neg (by decide)]
    rfl
  have hempty : ∀ rest, Text.endOfLine? ('\n' :: rest) = some rest := by
    intro rest
    rw [Text.endOfLine?, Text.skipBlanks, List.dropWhile_cons_of_neg (by decide)]
    rfl
  have hwords : Wordy (("rule " ++ r.name).toList ++ '\n' :: rest) := by
    refine ⟨_, _, rfl, ?_⟩
    rw [String.toList_append, List.forall_mem_append]
    refine ⟨by simp [Ninja.isNameChar], fun c hc => .inl ?_⟩
    rw [Ninja.isValidName, Bool.and_eq_true, List.all_eq_true] at hname
    exact hname.2 c hc
  rw [String.toList_append, List.append_assoc, Ninja.Line.toList_rule, List.cons_append] at hwords
  have hnone : ∀ p : Progress, ∀ bound, p.readLines bound g.render.toList = none := by
    intro p
    rw [hrender, Ninja.toList_header, List.cons_append, List.cons_append, String.toList_append,
      List.append_assoc, List.cons_append, List.cons_append, List.append_assoc, Ninja.Line.toList_rule,
      List.cons_append]
    refine readLines_eq_none fun p' rest hread => ?_
    rw [readLine_of_endOfLine? (by decide) (by decide) (hcomment _)] at hread
    cases hread
    refine readLines_eq_none fun p' rest hread => ?_
    rw [readLine_of_endOfLine? (by decide) (by decide) (hempty _)] at hread
    cases hread
    refine readLines_eq_none fun p' rest hread => ?_
    rw [hwords.readLine_eq_none rfl (by decide)] at hread
    cases hread
  obtain ⟨text, htext⟩ := Ninja.exists_cons_render g
  rw [htext] at hnone
  rw [parse, htext]
  refine Option.bind_eq_none_iff.mpr fun entries hentries => ?_
  have hentries : Progress.readLines ('#' :: text).length {} ('#' :: text) = some entries := hentries
  rw [hnone] at hentries
  cases hentries

end Toml

end AssetPipeline
