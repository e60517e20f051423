import AssetPipeline.Proofs.Ninja.RoundTrip

/-! Lines that go on. The executor reads a dollar sign together with the character after it, and where
that is a line feed, the line goes on with the next one. A line of a build file goes on in this way
exactly if it ends in a dollar sign that is not itself the second of a pair. Paths, names and escaped
values never end so; commands and variable values are written as they are and may. -/

namespace AssetPipeline.Ninja

/-- Whether a text ends in a dollar sign that nothing follows, when every other one is read together
with the character after it. -/
def dangles : List Char → Bool
  | [] => false
  | ['$'] => true
  | '$' :: _ :: text => dangles text
  | _ :: text => dangles text

/-- The lines as the executor sees them: cut at the line feeds, except at those that follow a dollar
sign. -/
def logicalLines : List Char → List (List Char)
  | [] => [[]]
  | ['$'] => [['$']]
  | '$' :: c :: text => (logicalLines text).modifyHead (['$', c] ++ ·)
  | c :: text =>
    if c = '\n' then [] :: logicalLines text else (logicalLines text).modifyHead ([c] ++ ·)

theorem dangles_pair (c : Char) (text : List Char) : dangles ('$' :: c :: text) = dangles text := by
  rw [dangles]

theorem dangles_char {c : Char} (hc : c ≠ '$') (text : List Char) :
    dangles (c :: text) = dangles text := by
  rw [dangles]
  · exact fun h _ => hc h
  · exact fun _ _ h _ => hc h

/-- Induction over a text as it is read: a dollar sign with the character after it, any other character
by itself. -/
@[elab_as_elim]
theorem pair_induction {motive : List Char → Prop} (nil : motive []) (dollar : motive ['$'])
    (pair : ∀ c text, motive text → motive ('$' :: c :: text))
    (char : ∀ c text, c ≠ '$' → motive text → motive (c :: text)) (text : List Char) : motive text := by
  fun_induction dangles text with
  | case1 => exact nil
  | case2 => exact dollar
  | case3 c text ih => exact pair c text ih
  | case4 c text hdollar hpair ih =>
      refine char c text (fun hc => ?_) ih
      cases text with
      | nil => exact hdollar hc rfl
      | cons next text => exact hpair next text hc rfl

theorem logicalLines_pair (c : Char) (text : List Char) :
    logicalLines ('$' :: c :: text) = (logicalLines text).modifyHead (['$', c] ++ ·) := by
  rw [logicalLines]

theorem logicalLines_feed (text : List Char) :
    logicalLines ('\n' :: text) = [] :: logicalLines text := by
  rw [logicalLines]
  · rw [if_pos rfl]
  · exact fun h _ => absurd h (by decide)
  · exact fun _ _ h _ => absurd h (by decide)

theorem logicalLines_char {c : Char} (hdollar : c ≠ '$') (hfeed : c ≠ '\n') (text : List Char) :
    logicalLines (c :: text) = (logicalLines text).modifyHead ([c] ++ ·) := by
  rw [logicalLines]
  · rw [if_neg hfeed]
  · exact fun h _ => hdollar h
  · exact fun _ _ h _ => hdollar h

/-! ### Lines of a text -/

theorem modifyHead_append (front back : List Char) (lines : List (List Char)) :
    (lines.modifyHead (back ++ ·)).modifyHead (front ++ ·) = lines.modifyHead ((front ++ back) ++ ·) := by
  rw [List.modifyHead_modifyHead]
  congr 1
  funext line
  exact (List.append_assoc front back line).symm

/-- A line that does not dangle ends at its line feed. -/
theorem logicalLines_append_feed {line : List Char} (hfeed : '\n' ∉ line) (hline : dangles line = false)
    (rest : List Char) : logicalLines (line ++ '\n' :: rest) = line :: logicalLines rest := by
  induction line using pair_induction with
  | nil => exact logicalLines_feed rest
  | dollar => cases hline
  | pair c text ih =>
      have htext : '\n' ∉ text := fun h => hfeed (List.mem_cons_of_mem _ (List.mem_cons_of_mem _ h))
      rw [dangles_pair] at hline
      rw [List.cons_append, List.cons_append, logicalLines_pair, ih htext hline]
      rfl
  | char c text hc ih =>
      rw [List.mem_cons, not_or] at hfeed
      rw [dangles_char hc] at hline
      rw [List.cons_append, logicalLines_char hc (Ne.symm hfeed.1), ih hfeed.2 hline]
      rfl

/-- A line that dangles takes its line feed and the next line with it. -/
theorem logicalLines_append_feed_of_dangles {line : List Char} (hfeed : '\n' ∉ line)
    (hline : dangles line = true) (rest : List Char) :
    logicalLines (line ++ '\n' :: rest) =
      (logicalLines rest).modifyHead ((line ++ ['\n']) ++ ·) := by
  induction line using pair_induction with
  | nil => cases hline
  | dollar => exact logicalLines_pair '\n' rest
  | pair c text ih =>
      have htext : '\n' ∉ text := fun h => hfeed (List.mem_cons_of_mem _ (List.mem_cons_of_mem _ h))
      rw [dangles_pair] at hline
      rw [List.cons_append, List.cons_append, logicalLines_pair, ih htext hline, modifyHead_append]
      rfl
  | char c text hc ih =>
      rw [List.mem_cons, not_or] at hfeed
      rw [dangles_char hc] at hline
      rw [List.cons_append, logicalLines_char hc (Ne.symm hfeed.1), ih hfeed.2 hline, modifyHead_append]
      rfl

/-- Of two dollar signs at the end of a line neither joins it to the next. -/
example : logicalLines "a $$\nb $\nc".toList = ["a $$".toList, "b $\nc".toList] := by
  decide +kernel

/-- Each line that dangles makes one logical line less. -/
theorem length_logicalLines {lines : List (List Char)} (hfeed : ∀ line ∈ lines, '\n' ∉ line) :
    (logicalLines (lines.flatMap (· ++ ['\n']))).length =
      (lines.filter fun line => ! dangles line).length + 1 := by
  induction lines with
  | nil => rfl
  | cons line lines ih =>
      rw [List.forall_mem_cons] at hfeed
      rw [List.flatMap_cons, List.append_assoc, List.singleton_append]
      cases hline : dangles line with
      | true =>
          rw [logicalLines_append_feed_of_dangles hfeed.1 hline, List.length_modifyHead, ih hfeed.2]
          simp [hline]
      | false =>
          rw [logicalLines_append_feed hfeed.1 hline, List.length_cons, ih hfeed.2]
          simp [hline]

/-- The logical lines of a text are the lines that were written exactly if none of these dangles. -/
theorem logicalLines_eq_iff {lines : List (List Char)} (hfeed : ∀ line ∈ lines, '\n' ∉ line) :
    logicalLines (lines.flatMap (· ++ ['\n'])) = lines ++ [[]] ↔
      ∀ line ∈ lines, dangles line = false := by
  constructor
  · intro h
    have hlength : (lines.filter fun line => ! dangles line).length = lines.length := by
      have hlogical := length_logicalLines hfeed
      rw [h, List.length_append, List.length_singleton] at hlogical
      omega
    simpa using List.length_filter_eq_length_iff.mp hlength
  · intro h
    induction lines with
    | nil => rfl
    | cons line lines ih =>
        rw [List.forall_mem_cons] at hfeed h
        rw [List.flatMap_cons, List.append_assoc, List.singleton_append,
          logicalLines_append_feed hfeed.1 h.1, ih hfeed.2 h.2, List.cons_append]

/-! ### Texts that do not dangle -/

theorem dangles_append {front : List Char} (h : dangles front = false) (back : List Char) :
    dangles (front ++ back) = dangles back := by
  induction front using pair_induction with
  | nil => rfl
  | dollar => cases h
  | pair c text ih =>
      rw [dangles_pair] at h
      rw [List.cons_append, List.cons_append, dangles_pair, ih h]
  | char c text hc ih =>
      rw [dangles_char hc] at h
      rw [List.cons_append, dangles_char hc, ih h]

theorem dangles_of_notMem {text : List Char} (h : '$' ∉ text) : dangles text = false := by
  induction text with
  | nil => rfl
  | cons c text ih =>
      rw [List.mem_cons, not_or] at h
      rw [dangles_char (Ne.symm h.1), ih h.2]

theorem dangles_flatMap {α : Type} {pieces : α → List Char} {items : List α}
    (h : ∀ x ∈ items, dangles (pieces x) = false) : dangles (items.flatMap pieces) = false := by
  induction items with
  | nil => rfl
  | cons x items ih =>
      rw [List.forall_mem_cons] at h
      rw [List.flatMap_cons, dangles_append h.1, ih h.2]

theorem dangles_escapePathChar (c : Char) : dangles (escapePathChar c) = false := by
  by_cases hc : c = '$' ∨ c = ' ' ∨ c = ':'
  · rw [escapePathChar, if_pos hc]
    rfl
  · rw [escapePathChar, if_neg hc]
    exact dangles_of_notMem fun hmem => hc (Or.inl (List.mem_singleton.mp hmem).symm)

theorem dangles_intercalate {separator : List Char} {texts : List (List Char)}
    (hseparator : dangles separator = false) (htexts : ∀ text ∈ texts, dangles text = false) :
    dangles (separator.intercalate texts) = false := by
  induction texts with
  | nil => rfl
  | cons text texts ih =>
      rw [List.forall_mem_cons] at htexts
      cases texts with
      | nil => simpa using htexts.1
      | cons next texts =>
          rw [List.intercalate_cons_cons, List.append_assoc, dangles_append htexts.1,
            dangles_append hseparator, ih htexts.2]

theorem dangles_joinPaths (paths : List String) : dangles (joinPaths paths).toList = false := by
  rw [toList_joinPaths]
  apply dangles_intercalate (by decide)
  rw [List.forall_mem_map]
  exact fun path _ => dangles_flatMap fun c _ => dangles_escapePathChar c

theorem dangles_escapeValue (value : String) : dangles (escapeValue value).toList = false := by
  rw [escapeValue, String.toList_ofList]
  apply dangles_flatMap
  intro c _
  split_ifs with hc
  · rfl
  · exact dangles_of_notMem fun hmem => hc (List.mem_singleton.mp hmem).symm

theorem dangles_of_isValidName {name : String} (h : isValidName name = true) :
    dangles name.toList = false :=
  dangles_of_notMem (notMem_of_isValidName h (by decide))

/-! ### Lines of a build file -/

theorem dangles_variableLine {key : String} (hkey : isValidName key = true) (value : String) :
    dangles (variableLine key value).toList = dangles value.toList := by
  rw [variableLine, String.toList_append, String.toList_append, String.toList_append]
  rw [List.append_assoc, List.append_assoc, dangles_append (by decide),
    dangles_append (dangles_of_isValidName hkey), dangles_append (by decide)]

theorem dangles_buildLine {e : Edge} (hrule : isValidName e.rule = true) :
    dangles (buildLine e).toList = false := by
  have hinputs : dangles (if e.inputs = [] then "" else " " ++ joinPaths e.inputs).toList = false := by
    split_ifs
    · rfl
    · rw [String.toList_append, dangles_append (by decide), dangles_joinPaths]
  rw [buildLine, String.toList_append, String.toList_append, String.toList_append,
    String.toList_append, List.append_assoc, List.append_assoc, List.append_assoc,
    dangles_append (by decide), dangles_append (dangles_joinPaths _), dangles_append (by decide),
    dangles_append (dangles_of_isValidName hrule), hinputs]

theorem forall_ruleLines_iff {r : Rule} (h : r.Sound) :
    (∀ line ∈ ruleLines r, dangles line.toList = false) ↔
      dangles r.command.toList = false ∧
        ∀ text, r.description = some text → dangles text.toList = false := by
  have hname : dangles ("rule " ++ r.name).toList = false := by
    rw [String.toList_append, dangles_append (by decide), dangles_of_isValidName h.name_valid]
  have hbinding : ∀ b ∈ ruleBindings r,
      dangles (variableLine b.1 b.2).toList = dangles b.2.toList :=
    fun b hb => dangles_variableLine (ruleBindings_sound h b hb).1 b.2
  have hone : dangles "1".toList = false := by decide
  rw [ruleLines_eq, List.forall_mem_append, List.forall_mem_map]
  constructor
  · rintro ⟨-, hlines⟩
    refine ⟨?_, fun text htext => ?_⟩
    · have hcommand : ("command", r.command) ∈ ruleBindings r := by simp [ruleBindings]
      rw [← hbinding _ hcommand]
      exact hlines _ hcommand
    · have hdescription : ("description", text) ∈ ruleBindings r := by simp [ruleBindings, htext]
      rw [← hbinding _ hdescription]
      exact hlines _ hdescription
  · rintro ⟨hcommand, hdescription⟩
    refine ⟨List.forall_mem_cons.mpr ⟨rfl, List.forall_mem_singleton.mpr hname⟩, fun b hb => ?_⟩
    rw [hbinding b hb]
    simp only [ruleBindings, List.mem_append] at hb
    rcases hb with ((hb | hb) | hb) | hb
    · rw [List.mem_singleton.mp hb]
      exact hcommand
    · cases htext : r.description with
      | none => simp [htext] at hb
      | some text =>
          rw [htext] at hb
          rw [List.mem_singleton.mp hb]
          exact hdescription text htext
    all_goals
      split_ifs at hb
      · rw [List.mem_singleton.mp hb]
        exact hone
      · cases hb

theorem forall_edgeLines_iff {rules : List Rule} {e : Edge} (h : e.Sound rules)
    (hrule : isValidName e.rule = true) :
    (∀ line ∈ edgeLines e, dangles line.toList = false) ↔
      ∀ b ∈ e.bindings, dangles b.2.toList = false := by
  rw [edgeLines, List.forall_mem_cons, List.forall_mem_map]
  constructor
  · rintro ⟨-, hlines⟩ b hb
    rw [← dangles_variableLine (h.key_valid b hb)]
    exact hlines b hb
  · intro hbindings
    refine ⟨dangles_buildLine hrule, fun b hb => ?_⟩
    rw [dangles_variableLine (h.key_valid b hb)]
    exact hbindings b hb

/-- A line of a well-formed graph dangles only where a command, a description or a variable value
does. -/
theorem forall_lines_iff {g : BuildGraph} (h : g.WellFormed) :
    (∀ line ∈ lines g, dangles line.toList = false) ↔
      (∀ r ∈ g.rules, dangles r.command.toList = false ∧
        ∀ text, r.description = some text → dangles text.toList = false) ∧
      ∀ e ∈ g.edges, ∀ b ∈ e.bindings, dangles b.2.toList = false := by
  have hheader : dangles header.toList = false := by decide
  have hrules : (∀ line ∈ g.rules.flatMap ruleLines, dangles line.toList = false) ↔
      ∀ r ∈ g.rules, dangles r.command.toList = false ∧
        ∀ text, r.description = some text → dangles text.toList = false := by
    rw [List.forall_mem_flatMap]
    exact forall₂_congr fun r hr => forall_ruleLines_iff (h.rule_sound r hr)
  have hedges : (∀ line ∈ g.edges.flatMap edgeLines, dangles line.toList = false) ↔
      ∀ e ∈ g.edges, ∀ b ∈ e.bindings, dangles b.2.toList = false := by
    rw [List.forall_mem_flatMap]
    exact forall₂_congr fun e he =>
      forall_edgeLines_iff (h.edge_sound e he) (h.edge_rule_valid he)
  have hdefaults : ∀ line ∈ defaultLines g.defaults, dangles line.toList = false := by
    rw [defaultLines]
    split_ifs
    · simp
    · have hline : dangles ("default " ++ joinPaths g.defaults).toList = false := by
        rw [String.toList_append, dangles_append (by decide), dangles_joinPaths]
      exact List.forall_mem_cons.mpr ⟨rfl, List.forall_mem_singleton.mpr hline⟩
  have hblank : (∀ line ∈ (if g.edges = [] then [] else "" :: g.edges.flatMap edgeLines),
      dangles line.toList = false) ↔ ∀ line ∈ g.edges.flatMap edgeLines, dangles line.toList = false := by
    split_ifs with hempty
    · simp [hempty]
    · rw [List.forall_mem_cons]
      exact and_iff_right rfl
  rw [lines, List.forall_mem_append, List.forall_mem_append, List.forall_mem_append,
    List.forall_mem_singleton, hrules, hblank, hedges]
  tauto

theorem logicalLines_render_iff {g : BuildGraph} (h : g.WellFormed)
    (hdefaults : ∀ path ∈ g.defaults, OneLine path) :
    logicalLines g.render.toList = g.render.toList.splitOn '\n' ↔
      (∀ r ∈ g.rules, dangles r.command.toList = false ∧
        ∀ text, r.description = some text → dangles text.toList = false) ∧
      ∀ e ∈ g.edges, ∀ b ∈ e.bindings, dangles b.2.toList = false := by
  have honeLine := lines_oneLine h hdefaults
  have htext : g.render.toList = ((lines g).map String.toList).flatMap (· ++ ['\n']) := by
    rw [BuildGraph.render, String.toList_join, List.flatMap_map, List.flatMap_map]
    simp
  have hfeed : ∀ line ∈ (lines g).map String.toList, '\n' ∉ line := by
    rw [List.forall_mem_map]
    exact fun line hline => (honeLine line hline).1
  rw [splitOn_render honeLine, htext, logicalLines_eq_iff hfeed, List.forall_mem_map, forall_lines_iff h]

end AssetPipeline.Ninja
