import AssetPipeline.Proofs.Graph.WellFormed
import AssetPipeline.Proofs.Ninja.Reader
import AssetPipeline.Proofs.Text

/-! The build file of a graph reads back as the graph. Three facts carry this: no text of a well-formed
graph can start a line of its own, every line reads back as what it was written for, and each variable
stands below the line that it belongs to. -/

namespace AssetPipeline

theorem oneLine_append_iff {a b : String} : OneLine (a ++ b) ↔ OneLine a ∧ OneLine b := by
  simp only [OneLine, String.toList_append, List.mem_append, not_or]
  tauto

namespace Ninja

/-! ### Paths -/

/-- The glyphs of paths with single spaces between them. -/
def pathGlyphs (paths : List String) : List Glyph :=
  [.space].intercalate (paths.map fun path => path.toList.map .char)

theorem scan_escapePathChars (path rest : List Char) :
    scan (path.flatMap escapePathChar ++ rest) = (scan rest).map (path.map .char ++ ·) := by
  induction path with
  | nil => simp
  | cons c path ih =>
      rw [List.flatMap_cons, List.append_assoc]
      by_cases hc : c = '$' ∨ c = ' ' ∨ c = ':'
      · rw [escapePathChar, if_pos hc, List.cons_append, List.singleton_append, scan_escape _ hc, ih,
          Option.map_map]
        rfl
      · rw [escapePathChar, if_neg hc, List.singleton_append, scan_char _ hc, ih, Option.map_map]
        rfl

theorem toList_joinPaths (paths : List String) :
    (joinPaths paths).toList =
      [' '].intercalate (paths.map fun path => path.toList.flatMap escapePathChar) := by
  rw [joinPaths, String.toList_intercalate, List.map_map]
  exact congrArg _ (List.map_congr_left fun _ _ => String.toList_ofList)

theorem scan_joinPaths (paths : List String) (rest : List Char) :
    scan ((joinPaths paths).toList ++ rest) = (scan rest).map (pathGlyphs paths ++ ·) := by
  rw [toList_joinPaths]
  induction paths with
  | nil => simp [pathGlyphs]
  | cons path paths ih =>
      cases paths with
      | nil => simp [pathGlyphs, scan_escapePathChars]
      | cons next paths =>
          rw [List.map_cons] at ih
          rw [List.map_cons, List.map_cons, List.intercalate_cons_cons, List.append_assoc,
            List.append_assoc, scan_escapePathChars, List.singleton_append, scan, ih, Option.map_map,
            Option.map_map]
          refine Option.map_congr fun glyphs _ => ?_
          simp [pathGlyphs]

theorem scan_joined (paths : List String) :
    scan (joinPaths paths).toList = some (pathGlyphs paths) := by
  have h := scan_joinPaths paths []
  rwa [List.append_nil, scan, Option.map_some, List.append_nil] at h

theorem colon_notMem_pathGlyphs (paths : List String) : Glyph.colon ∉ pathGlyphs paths := by
  apply notMem_intercalate <;> simp

theorem paths?_pathGlyphs {paths : List String} (hne : paths ≠ []) :
    paths? (pathGlyphs paths) = some paths := by
  have hsplit : (pathGlyphs paths).splitOn .space = paths.map fun path => path.toList.map .char := by
    rw [pathGlyphs]
    apply List.splitOn_intercalate
    · simp
    · simpa using hne
  rw [paths?, hsplit]
  clear hsplit hne
  induction paths with
  | nil => rfl
  | cons path paths ih =>
      have hpath : (path.toList.map Glyph.char).mapM Glyph.char? = some path.toList := by
        induction path.toList with
        | nil => rfl
        | cons c text ihtext => simp [ihtext, Glyph.char?]
      rw [List.map_cons, List.mapM_cons, ih, hpath]
      simp

/-! ### Lines -/

theorem cutEquals?_append {key : List Char} (hkey : ' ' ∉ key) (value : List Char) :
    Line.cutEquals? (key ++ ' ' :: '=' :: ' ' :: value) = some (key, value) := by
  induction key with
  | nil => simp [Line.cutEquals?, List.dropPrefix?]
  | cons c key ih =>
      rw [List.mem_cons, not_or] at hkey
      obtain ⟨hc, hkey⟩ := hkey
      rw [List.cons_append, Line.cutEquals?, ih hkey]
      simp [List.dropPrefix?, Ne.symm hc]

theorem ofText?_rule (name : String) : Line.ofText? ("rule " ++ name).toList = some (.rule name) := by
  rw [String.toList_append, Line.ofText?_rule_append, String.ofList_toList]

theorem notMem_of_isValidName {name : String} (h : isValidName name = true) {c : Char}
    (hc : isNameChar c = false) : c ∉ name.toList := by
  simp only [isValidName, Bool.and_eq_true, List.all_eq_true] at h
  intro hmem
  rw [h.2 c hmem] at hc
  cases hc

theorem ofText?_variableLine {key : String} (hkey : isValidName key = true) (value : String) :
    Line.ofText? (variableLine key value).toList = some (.binding key value) := by
  have hspace : ' ' ∉ key.toList := notMem_of_isValidName hkey (by decide)
  have htext : (variableLine key value).toList =
      "  ".toList ++ (key.toList ++ ' ' :: '=' :: ' ' :: value.toList) := by
    simp [variableLine]
  rw [htext, Line.ofText?_indent_append, Line.binding?, cutEquals?_append hspace, Option.map_some]
  dsimp only
  rw [String.ofList_toList, String.ofList_toList]

theorem oneLine_of_isValidName {name : String} (h : isValidName name = true) : OneLine name :=
  ⟨notMem_of_isValidName h (by decide), notMem_of_isValidName h (by decide)⟩

/-- A name needs no escapes. -/
theorem escapePath_of_isValidName {name : String} (h : isValidName name = true) :
    escapePath name = name := by
  have hchars : ∀ c ∈ name.toList, escapePathChar c = [c] := by
    intro c hc
    rw [escapePathChar, if_neg]
    rintro (rfl | rfl | rfl) <;> exact notMem_of_isValidName h (by decide) hc
  rw [escapePath, List.flatMap_congr hchars, List.flatMap_singleton', String.ofList_toList]

/-- The rule and the inputs of a `build` line are written like a list of paths. -/
theorem joinPaths_cons_of_isValidName {rule : String} (h : isValidName rule = true)
    (inputs : List String) :
    joinPaths (rule :: inputs) = rule ++ if inputs = [] then "" else " " ++ joinPaths inputs := by
  rw [joinPaths, List.map_cons, escapePath_of_isValidName h]
  cases inputs with
  | nil => simp
  | cons input inputs =>
      rw [if_neg (List.cons_ne_nil _ _), String.intercalate_cons_of_ne_nil (by simp),
        String.append_assoc, joinPaths]

theorem build?_glyphs {outputs inputs : List String} {rule : String} (houtputs : outputs ≠ [])
    {text : List Char}
    (htext : scan text = some (pathGlyphs outputs ++ .colon :: .space :: pathGlyphs (rule :: inputs))) :
    Line.build? text = some (.build outputs rule inputs) := by
  have hplain : ∀ glyph ∈ pathGlyphs outputs, decide (glyph ≠ .colon) = true := by
    intro glyph hglyph
    exact decide_eq_true fun heq => colon_notMem_pathGlyphs outputs (heq ▸ hglyph)
  simp only [Line.build?, htext, Option.bind_eq_bind, Option.bind_some,
    List.dropWhile_append_of_pos hplain, List.takeWhile_append_of_pos hplain]
  simp [paths?_pathGlyphs (List.cons_ne_nil rule inputs), paths?_pathGlyphs houtputs]

theorem toList_buildLine {e : Edge} (hrule : isValidName e.rule = true) :
    (buildLine e).toList =
      "build ".toList ++ ((joinPaths e.outputs).toList ++
        (':' :: ' ' :: (joinPaths (e.rule :: e.inputs)).toList)) := by
  rw [buildLine, joinPaths_cons_of_isValidName hrule]
  simp

theorem scan_buildPaths (outputs following : List String) :
    scan ((joinPaths outputs).toList ++ (':' :: ' ' :: (joinPaths following).toList)) =
      some (pathGlyphs outputs ++ .colon :: .space :: pathGlyphs following) := by
  have hscan : scan (':' :: ' ' :: (joinPaths following).toList) =
      some (.colon :: .space :: pathGlyphs following) := by
    simp [scan, scan_joined]
  rw [scan_joinPaths, hscan]
  rfl

theorem ofText?_buildLine {e : Edge} (hrule : isValidName e.rule = true) (houtputs : e.outputs ≠ []) :
    Line.ofText? (buildLine e).toList = some (.build e.outputs e.rule e.inputs) := by
  rw [toList_buildLine hrule, Line.ofText?_build_append,
    build?_glyphs houtputs (scan_buildPaths e.outputs (e.rule :: e.inputs))]

theorem ofText?_default {paths : List String} (hne : paths ≠ []) :
    Line.ofText? ("default " ++ joinPaths paths).toList = some (.default paths) := by
  rw [String.toList_append, Line.ofText?_default_append, Line.default?, scan_joined,
    Option.bind_eq_bind, Option.bind_some, paths?_pathGlyphs hne]
  rfl

/-! ### Text -/

theorem oneLine_joinPaths {paths : List String} (h : ∀ path ∈ paths, OneLine path) :
    OneLine (joinPaths paths) := by
  have hescape : ∀ (c : Char) (path : String), ¬ (c = '$' ∨ c = ' ' ∨ c = ':') → c ∉ path.toList →
      c ∉ path.toList.flatMap escapePathChar := by
    intro c path hc hpath hmem
    obtain ⟨d, hd, hmem⟩ := List.mem_flatMap.mp hmem
    rw [escapePathChar] at hmem
    split_ifs at hmem with hspecial
    · simp only [List.mem_cons, List.not_mem_nil, or_false] at hmem
      rcases hmem with rfl | rfl
      · exact hc (Or.inl rfl)
      · exact hpath hd
    · rw [List.mem_singleton] at hmem
      exact hpath (hmem ▸ hd)
  rw [OneLine, toList_joinPaths]
  constructor
  · apply notMem_intercalate (by decide)
    rw [List.forall_mem_map]
    exact fun path hpath => hescape _ path (by decide) (h path hpath).1
  · apply notMem_intercalate (by decide)
    rw [List.forall_mem_map]
    exact fun path hpath => hescape _ path (by decide) (h path hpath).2

theorem oneLine_variableLine {key value : String} (hkey : isValidName key = true)
    (hvalue : OneLine value) : OneLine (variableLine key value) := by
  simp only [variableLine, oneLine_append_iff]
  exact ⟨⟨⟨by decide, oneLine_of_isValidName hkey⟩, by decide⟩, hvalue⟩

theorem oneLine_buildLine {e : Edge} (hrule : isValidName e.rule = true)
    (hpaths : ∀ path ∈ e.outputs ++ e.inputs, OneLine path) : OneLine (buildLine e) := by
  have hname := oneLine_of_isValidName hrule
  have houtputs := oneLine_joinPaths fun path hpath => hpaths path (List.mem_append_left _ hpath)
  have hinputs := oneLine_joinPaths fun path hpath => hpaths path (List.mem_append_right _ hpath)
  simp only [buildLine, oneLine_append_iff]
  refine ⟨⟨⟨⟨by decide, houtputs⟩, by decide⟩, hname⟩, ?_⟩
  split_ifs
  · decide
  · exact oneLine_append_iff.mpr ⟨by decide, hinputs⟩

/-! ### Blocks -/

/-- The lines of a block: one line, and the variables below it. -/
def Block.lines (block : Block) : List Line :=
  block.1 :: block.2.map fun (key, value) => .binding key value

def ruleBindings (r : Rule) : List (String × String) :=
  [("command", r.command)]
    ++ (match r.description with
        | some text => [("description", text)]
        | none => [])
    ++ (if r.generator then [("generator", "1")] else [])
    ++ (if r.restat then [("restat", "1")] else [])

def ruleBlocks (r : Rule) : List Block :=
  [(.blank, []), (.rule r.name, ruleBindings r)]

def edgeBlock (e : Edge) : Block :=
  (.build e.outputs e.rule e.inputs, e.bindings)

/-- The blocks of a graph after the header. -/
def graphBlocks (g : BuildGraph) : List Block :=
  g.rules.flatMap ruleBlocks
    ++ (if g.edges = [] then [] else (.blank, []) :: g.edges.map edgeBlock)
    ++ (if g.defaults = [] then [] else [(.blank, []), (.default g.defaults, [])])

theorem ruleLines_eq (r : Rule) : ruleLines r =
    ["", "rule " ++ r.name] ++ (ruleBindings r).map fun (key, value) => variableLine key value := by
  rw [ruleLines, ruleBindings]
  cases r.description <;> cases r.generator <;> cases r.restat <;> rfl

theorem ruleBindings_sound {r : Rule} (h : r.Sound) :
    ∀ b ∈ ruleBindings r, isValidName b.1 = true ∧ OneLine b.2 := by
  intro b hb
  simp only [ruleBindings, List.mem_append] at hb
  rcases hb with ((hb | hb) | hb) | hb
  · rw [List.mem_singleton.mp hb]
    exact ⟨(by decide : isValidName "command" = true), h.command_oneLine⟩
  · cases hdescription : r.description with
    | none => simp [hdescription] at hb
    | some text =>
        rw [hdescription] at hb
        rw [List.mem_singleton.mp hb]
        exact ⟨(by decide : isValidName "description" = true),
          h.description_oneLine text hdescription⟩
  · split_ifs at hb
    · rw [List.mem_singleton.mp hb]
      decide
    · cases hb
  · split_ifs at hb
    · rw [List.mem_singleton.mp hb]
      decide
    · cases hb

theorem rule?_eq_some {name command : String} {bindings : List (String × String)}
    (hkeys : bindings.all fun b => ["command", "description", "generator", "restat"].contains b.1)
    (hcommand : bindings.lookup "command" = some command) :
    rule? name bindings = some
      { name, command
        description := bindings.lookup "description"
        generator := bindings.lookup "generator" = some "1"
        restat := bindings.lookup "restat" = some "1" } := by
  rw [rule?, guard, if_pos hkeys, hcommand]
  rfl

theorem rule?_ruleBindings (r : Rule) : rule? r.name (ruleBindings r) = some r := by
  obtain ⟨name, command, description, generator, restat⟩ := r
  have hcommand : (ruleBindings ⟨name, command, description, generator, restat⟩).lookup "command" =
      some command := rfl
  cases description <;> cases generator <;> cases restat <;>
    rw [rule?_eq_some (by simp [ruleBindings]) hcommand] <;>
    simp [ruleBindings, List.lookup_cons]

/-- Lines of text, and what they read as. -/
def Reads (texts : List String) (lines : List Line) : Prop :=
  texts.mapM (fun text => Line.ofText? text.toList) = some lines

theorem Reads.append {texts texts' : List String} {lines lines' : List Line}
    (h : Reads texts lines) (h' : Reads texts' lines') : Reads (texts ++ texts') (lines ++ lines') := by
  rw [Reads] at h h' ⊢
  rw [List.mapM_append, h, h']
  rfl

theorem Reads.flatMap {α : Type} {items : List α} {texts : α → List String} {lines : α → List Line}
    (h : ∀ x ∈ items, Reads (texts x) (lines x)) :
    Reads (items.flatMap texts) (items.flatMap lines) := by
  induction items with
  | nil => rfl
  | cons x items ih =>
      rw [List.forall_mem_cons] at h
      exact h.1.append (ih h.2)

theorem reads_singleton {text : String} {line : Line} (h : Line.ofText? text.toList = some line) :
    Reads [text] [line] := by
  simp [Reads, h]

theorem reads_bindings {bindings : List (String × String)}
    (h : ∀ b ∈ bindings, isValidName b.1 = true) :
    Reads (bindings.map fun (key, value) => variableLine key value)
      (bindings.map fun (key, value) => .binding key value) := by
  simp only [List.map_eq_flatMap]
  exact Reads.flatMap fun b hb => reads_singleton (ofText?_variableLine (h b hb) b.2)

theorem reads_ruleLines {r : Rule} (h : r.Sound) :
    Reads (ruleLines r) ((ruleBlocks r).flatMap Block.lines) := by
  have hlines : (ruleBlocks r).flatMap Block.lines =
      [.blank] ++ ([.rule r.name] ++ (ruleBindings r).map fun (key, value) => .binding key value) := by
    simp [ruleBlocks, Block.lines]
  have hblank : Reads [""] [.blank] := reads_singleton (by simp [Line.ofText?])
  have hrule : Reads ["rule " ++ r.name] [.rule r.name] := reads_singleton (ofText?_rule r.name)
  have hbindings := reads_bindings fun b hb => (ruleBindings_sound h b hb).1
  rw [ruleLines_eq, hlines]
  exact hblank.append (hrule.append hbindings)

theorem reads_edgeLines {rules : List Rule} {e : Edge} (h : e.Sound rules)
    (hrule : isValidName e.rule = true) : Reads (edgeLines e) (edgeBlock e).lines :=
  (reads_singleton (ofText?_buildLine hrule h.outputs_ne_nil)).append (reads_bindings h.key_valid)

theorem reads_lines {g : BuildGraph} (h : g.WellFormed) :
    Reads (lines g) (((.header, []) :: graphBlocks g).flatMap Block.lines) := by
  have hblank : Reads [""] [.blank] := reads_singleton (by simp [Line.ofText?])
  have hheader : Reads [header] [.header] := reads_singleton (by simp [Line.ofText?, header])
  have hrules : Reads (g.rules.flatMap ruleLines) ((g.rules.flatMap ruleBlocks).flatMap Block.lines) := by
    rw [List.flatMap_assoc]
    exact Reads.flatMap fun r hr => reads_ruleLines (h.rule_sound r hr)
  have hedges : Reads (g.edges.flatMap edgeLines) ((g.edges.map edgeBlock).flatMap Block.lines) := by
    rw [List.flatMap_map]
    exact Reads.flatMap fun e he => reads_edgeLines (h.edge_sound e he) (h.edge_rule_valid he)
  rw [lines, graphBlocks, List.flatMap_cons, List.flatMap_append, List.flatMap_append,
    ← List.append_assoc, ← List.append_assoc]
  refine Reads.append (Reads.append (hheader.append hrules) ?_) ?_
  · split_ifs
    · rfl
    · exact hblank.append hedges
  · rw [defaultLines]
    split_ifs with hdefaults
    · rfl
    · exact hblank.append (reads_singleton (ofText?_default hdefaults))

theorem blocks_bindings_append (bindings : List (String × String)) (lines : List Line) :
    blocks ((bindings.map fun (key, value) => .binding key value) ++ lines) =
      (bindings ++ (blocks lines).1, (blocks lines).2) := by
  induction bindings with
  | nil => rfl
  | cons b bindings ih => simp [blocks, ih]

theorem blocks_cons {line : Line} (hline : ∀ key value, line ≠ .binding key value)
    (lines : List Line) :
    blocks (line :: lines) = ([], (line, (blocks lines).1) :: (blocks lines).2) := by
  cases line with
  | binding key value => exact absurd rfl (hline key value)
  | _ => rfl

theorem blocks_lines {items : List Block}
    (h : ∀ block ∈ items, ∀ key value, block.1 ≠ .binding key value) :
    blocks (items.flatMap Block.lines) = ([], items) := by
  induction items with
  | nil => rfl
  | cons block items ih =>
      rw [List.forall_mem_cons] at h
      rw [List.flatMap_cons, Block.lines, List.cons_append, blocks_cons h.1, blocks_bindings_append,
        ih h.2, List.append_nil]

theorem graphBlocks_ne_binding (g : BuildGraph) :
    ∀ block ∈ (.header, []) :: graphBlocks g, ∀ key value, block.1 ≠ Line.binding key value := by
  rw [List.forall_mem_cons, graphBlocks, List.forall_mem_append, List.forall_mem_append,
    List.forall_mem_flatMap]
  refine ⟨by simp, ⟨fun r _ => by simp [ruleBlocks], ?_⟩, ?_⟩
  · split_ifs <;> simp [edgeBlock]
  · split_ifs <;> simp

/-! ### Content -/

theorem foldlM_add?_rules (rules : List Rule) (content : Content) :
    (rules.flatMap ruleBlocks).foldlM Content.add? content =
      some { content with rules := content.rules ++ rules } := by
  induction rules generalizing content with
  | nil => simp
  | cons r rules ih =>
      rw [List.flatMap_cons, List.foldlM_append]
      simp [ruleBlocks, Content.add?, rule?_ruleBindings, ih]

theorem foldlM_add?_edges (edges : List Edge) (content : Content) :
    (edges.map edgeBlock).foldlM Content.add? content =
      some { content with edges := content.edges ++ edges } := by
  induction edges generalizing content with
  | nil => simp
  | cons e edges ih =>
      simp [edgeBlock, Content.add?, ih]

theorem foldlM_add?_graphBlocks (g : BuildGraph) :
    (graphBlocks g).foldlM Content.add? {} = some (Content.ofGraph g) := by
  rw [graphBlocks, List.foldlM_append, List.foldlM_append, foldlM_add?_rules]
  by_cases hedges : g.edges = [] <;> by_cases hdefaults : g.defaults = [] <;>
    simp [hedges, hdefaults, Content.add?, Content.ofGraph, foldlM_add?_edges]

/-! ### Text -/

theorem lines_oneLine {g : BuildGraph} (h : g.WellFormed)
    (hdefaults : ∀ path ∈ g.defaults, OneLine path) : ∀ line ∈ lines g, OneLine line := by
  have hrules : ∀ r ∈ g.rules, ∀ line ∈ ruleLines r, OneLine line := by
    intro r hr
    rw [ruleLines_eq, List.forall_mem_append, List.forall_mem_map]
    have hr := h.rule_sound r hr
    refine ⟨?_, fun b hb => ?_⟩
    · have hname := oneLine_of_isValidName hr.name_valid
      have hempty : OneLine "" := by decide
      have hrule : OneLine "rule " := by decide
      simp [oneLine_append_iff, hname, hempty, hrule]
    · obtain ⟨hkey, hvalue⟩ := ruleBindings_sound hr b hb
      exact oneLine_variableLine hkey hvalue
  have hedges : ∀ e ∈ g.edges, ∀ line ∈ edgeLines e, OneLine line := by
    intro e he
    rw [edgeLines, List.forall_mem_cons, List.forall_mem_map]
    have hsound := h.edge_sound e he
    refine ⟨oneLine_buildLine (h.edge_rule_valid he) hsound.path_oneLine, fun b hb => ?_⟩
    exact oneLine_variableLine (hsound.key_valid b hb) (hsound.value_oneLine b hb)
  rw [lines, List.forall_mem_append, List.forall_mem_append, List.forall_mem_append,
    List.forall_mem_flatMap, defaultLines]
  refine ⟨⟨⟨?_, hrules⟩, ?_⟩, ?_⟩
  · rw [List.forall_mem_singleton]
    decide
  · split_ifs
    · simp
    · rw [List.forall_mem_cons, List.forall_mem_flatMap]
      exact ⟨by decide, hedges⟩
  · split_ifs
    · simp
    · rw [List.forall_mem_cons, List.forall_mem_singleton, oneLine_append_iff]
      exact ⟨by decide, by decide, oneLine_joinPaths hdefaults⟩

theorem flatMap_feed_eq_intercalate (lines : List (List Char)) :
    lines.flatMap (· ++ ['\n']) = ['\n'].intercalate (lines ++ [[]]) := by
  induction lines with
  | nil => simp
  | cons line lines ih =>
      rw [List.flatMap_cons, ih, List.cons_append]
      cases lines <;> simp [List.intercalate_cons_cons]

theorem toList_render (g : BuildGraph) :
    g.render.toList = ((lines g).map String.toList).flatMap (· ++ ['\n']) := by
  rw [BuildGraph.render, String.toList_join, List.flatMap_map, List.flatMap_map]
  simp

/-- The lines of the text are those that were written, and nothing comes after the last. -/
theorem splitOn_render {g : BuildGraph} (hlines : ∀ line ∈ lines g, OneLine line) :
    g.render.toList.splitOn '\n' = (lines g).map String.toList ++ [[]] := by
  rw [toList_render, flatMap_feed_eq_intercalate]
  apply List.splitOn_intercalate
  · rw [List.forall_mem_append, List.forall_mem_map, List.forall_mem_singleton]
    exact ⟨fun line hline => (hlines line hline).1, List.not_mem_nil⟩
  · simp

theorem read?_render {g : BuildGraph} (h : g.WellFormed)
    (hdefaults : ∀ path ∈ g.defaults, OneLine path) :
    read? g.render = some (Content.ofGraph g) := by
  have hlines : textLines? g.render = some ((lines g).map String.toList) := by
    rw [textLines?, splitOn_render (lines_oneLine h hdefaults)]
    simp
  have hreads : ((lines g).map String.toList).mapM Line.ofText? =
      some (((.header, []) :: graphBlocks g).flatMap Block.lines) := by
    rw [List.mapM_map]
    exact reads_lines h
  simp only [read?, hlines, hreads, Option.bind_eq_bind, Option.bind_some]
  rw [Content.ofLines?, blocks_lines (graphBlocks_ne_binding g)]
  exact foldlM_add?_graphBlocks g

/-- Blanks, colons and dollar signs in paths are escaped, and a dollar sign in a value is not. -/
example : let g : BuildGraph :=
      { edges := [⟨phony, ["a b"], ["c:$"], [("k", "$x")]⟩], defaults := ["a b"] }
    read? g.render = some (Content.ofGraph g) := by
  decide +kernel

end Ninja

end AssetPipeline
