import AssetPipeline.Graph
import AssetPipeline.Proofs.Outcome
import Mathlib.Data.List.Nodup

/-! Well-formed build graphs. A rule or an edge enters a graph exactly when it is sound in itself and
clashes with nothing that the graph holds, so a graph that grows by such steps stays well formed. In a
well-formed graph the index of producers and the list of edges say the same. -/

namespace AssetPipeline

/-- Text that keeps to one line of the build file. -/
def OneLine (text : String) : Prop :=
  '\n' ∉ text.toList ∧ '\r' ∉ text.toList

instance (text : String) : Decidable (OneLine text) :=
  inferInstanceAs (Decidable (_ ∧ _))

theorem Ninja.hasLineBreak_iff {text : String} : Ninja.hasLineBreak text = true ↔ ¬ OneLine text := by
  simp only [Ninja.hasLineBreak, List.any_eq_true, Bool.or_eq_true, decide_eq_true_eq, OneLine]
  constructor
  · rintro ⟨c, hc, rfl | rfl⟩ ⟨hlf, hcr⟩
    · exact hlf hc
    · exact hcr hc
  · intro h
    by_cases hlf : '\n' ∈ text.toList
    · exact ⟨'\n', hlf, Or.inl rfl⟩
    · by_cases hcr : '\r' ∈ text.toList
      · exact ⟨'\r', hcr, Or.inr rfl⟩
      · exact absurd ⟨hlf, hcr⟩ h

/-- A rule that can be written, under a name that is not taken by the built-in one. -/
structure Rule.Sound (r : Rule) : Prop where
  name_valid : Ninja.isValidName r.name = true
  name_ne_phony : r.name ≠ phony
  command_oneLine : OneLine r.command
  description_oneLine : ∀ text, r.description = some text → OneLine text

/-- An edge that can be written where `rules` are declared. -/
structure Edge.Sound (rules : List Rule) (e : Edge) : Prop where
  outputs_ne_nil : e.outputs ≠ []
  rule_known : e.rule = phony ∨ ∃ r ∈ rules, r.name = e.rule
  path_oneLine : ∀ path ∈ e.outputs ++ e.inputs, OneLine path
  key_valid : ∀ b ∈ e.bindings, Ninja.isValidName b.1 = true
  value_oneLine : ∀ b ∈ e.bindings, OneLine b.2
  output_not_input : ∀ path ∈ e.outputs, path ∉ e.inputs

theorem Edge.Sound.mono {rules rules' : List Rule} {e : Edge} (h : e.Sound rules)
    (hrules : rules ⊆ rules') : e.Sound rules' where
  outputs_ne_nil := h.outputs_ne_nil
  rule_known := h.rule_known.imp_right fun ⟨r, hr, hname⟩ => ⟨r, hrules hr, hname⟩
  path_oneLine := h.path_oneLine
  key_valid := h.key_valid
  value_oneLine := h.value_oneLine
  output_not_input := h.output_not_input

namespace BuildGraph

/-- The index maps a path to a position exactly when the edge there has the path as an output. -/
def Indexed (g : BuildGraph) : Prop :=
  ∀ path i, g.producers.lookup path = some i ↔ ∃ e, g.edges[i]? = some e ∧ path ∈ e.outputs

/-- The index that adding edges one after another makes, the latest first. -/
def producersOf (edges : List Edge) : List (String × Nat) :=
  edges.zipIdx.reverse.flatMap fun (e, position) => e.outputs.map (·, position)

structure WellFormed (g : BuildGraph) : Prop where
  rule_sound : ∀ r ∈ g.rules, r.Sound
  names_nodup : (g.rules.map (·.name)).Nodup
  edge_sound : ∀ e ∈ g.edges, e.Sound g.rules
  /-- No path is an output of two edges, or twice an output of one. -/
  outputs_nodup : (g.edges.flatMap (·.outputs)).Nodup
  indexed : g.Indexed
  producers_eq : g.producers = producersOf g.edges

variable {g g' : BuildGraph} {r : Rule} {e : Edge} {path : String}

/-! ### Lookups -/

theorem hasRule_iff {name : String} :
    g.hasRule name = true ↔ name = phony ∨ ∃ r ∈ g.rules, r.name = name := by
  simp [hasRule]

theorem Indexed.producer?_eq_some_iff (h : g.Indexed) :
    g.producer? path = some e ↔ ∃ i : Nat, g.edges[i]? = some e ∧ path ∈ e.outputs := by
  simp only [producer?, Option.bind_eq_some_iff]
  constructor
  · rintro ⟨i, hlookup, hedge⟩
    obtain ⟨e', hedge', hmem⟩ := (h path i).mp hlookup
    rw [hedge] at hedge'
    cases hedge'
    exact ⟨i, hedge, hmem⟩
  · rintro ⟨i, hedge, hmem⟩
    exact ⟨i, (h path i).mpr ⟨e, hedge, hmem⟩, hedge⟩

/-- In a well-formed graph the producer of a path is the one edge that has it as an output. -/
theorem Indexed.producer?_eq_some_iff_mem (h : g.Indexed) :
    g.producer? path = some e ↔ e ∈ g.edges ∧ path ∈ e.outputs := by
  rw [h.producer?_eq_some_iff, exists_and_right, ← List.mem_iff_getElem?]

theorem Indexed.producer?_eq_none_iff (h : g.Indexed) :
    g.producer? path = none ↔ ∀ e ∈ g.edges, path ∉ e.outputs := by
  rw [Option.eq_none_iff_forall_ne_some]
  constructor
  · intro hnone e he hmem
    exact hnone e (h.producer?_eq_some_iff_mem.mpr ⟨he, hmem⟩)
  · intro hnone e hsome
    obtain ⟨he, hmem⟩ := h.producer?_eq_some_iff_mem.mp hsome
    exact hnone e he hmem

theorem Indexed.position_unique (h : g.Indexed) {i j : Nat} {e e' : Edge}
    (hi : g.edges[i]? = some e) (hj : g.edges[j]? = some e')
    (hpath : path ∈ e.outputs) (hpath' : path ∈ e'.outputs) : i = j := by
  have hlookup := (h path i).mpr ⟨e, hi, hpath⟩
  rw [(h path j).mpr ⟨e', hj, hpath'⟩] at hlookup
  exact (Option.some.inj hlookup).symm

/-! ### What is accepted -/

theorem ruleFault?_eq_none_iff :
    g.ruleFault? r = none ↔ r.Sound ∧ ∀ r' ∈ g.rules, r'.name ≠ r.name := by
  simp only [ruleFault?, hasRule_iff]
  constructor
  · intro h
    split_ifs at h with hvalid hname hcommand
    rw [Ninja.hasLineBreak_iff, not_not] at hcommand
    push Not at hname
    refine ⟨⟨hvalid, hname.1, hcommand, ?_⟩, hname.2.2⟩
    intro text htext
    simpa [htext, Ninja.hasLineBreak_iff] using h
  · rintro ⟨hr, hnew⟩
    have hname : ¬ (r.name = phony ∨ r.name = phony ∨ ∃ r' ∈ g.rules, r'.name = r.name) := by
      rintro (h | h | ⟨r', hr', h⟩)
      · exact hr.name_ne_phony h
      · exact hr.name_ne_phony h
      · exact hnew r' hr' h
    rw [if_neg (not_not.mpr hr.name_valid), if_neg hname,
      if_neg (Ninja.hasLineBreak_iff.not.mpr (not_not.mpr hr.command_oneLine))]
    cases hd : r.description with
    | none => rfl
    | some text => simpa [Ninja.hasLineBreak_iff] using hr.description_oneLine text hd

theorem variableFault?_eq_none_iff {rule : String} {bindings : List (String × String)} :
    variableFault? rule bindings = none ↔
      ∀ b ∈ bindings, Ninja.isValidName b.1 = true ∧ OneLine b.2 := by
  induction bindings with
  | nil => simp [variableFault?]
  | cons b bindings ih =>
      rw [variableFault?, List.forall_mem_cons, ← ih]
      by_cases hkey : Ninja.isValidName b.1 = true <;>
        by_cases hvalue : OneLine b.2 <;>
        simp [hkey, hvalue, Ninja.hasLineBreak_iff]

theorem duplicateFault?_eq_none_iff {rule : String} {before outputs : List String} :
    g.duplicateFault? rule before outputs = none ↔
      outputs.Nodup ∧ ∀ path ∈ outputs, g.producer? path = none ∧ path ∉ before := by
  induction outputs generalizing before with
  | nil => simp [duplicateFault?]
  | cons output outputs ih =>
      rw [duplicateFault?]
      cases hproducer : g.producer? output with
      | some earlier => simp [hproducer]
      | none =>
          by_cases hbefore : output ∈ before
          · simp [hbefore]
          · simp only [List.contains_iff_mem, hbefore, if_false, ih, List.nodup_cons,
              List.mem_cons, forall_eq_or_imp, hproducer, not_or]
            constructor
            · rintro ⟨hnodup, hfree⟩
              refine ⟨⟨fun hmem => (hfree output hmem).2.1 rfl, hnodup⟩, ⟨trivial, not_false⟩, ?_⟩
              exact fun path hpath => ⟨(hfree path hpath).1, (hfree path hpath).2.2⟩
            · rintro ⟨⟨hnotin, hnodup⟩, -, hfree⟩
              refine ⟨hnodup, fun path hpath => ⟨(hfree path hpath).1, ?_, (hfree path hpath).2⟩⟩
              exact fun heq => hnotin (heq ▸ hpath)

theorem edgeFault?_eq_none_iff :
    g.edgeFault? e = none ↔
      e.Sound g.rules ∧ e.outputs.Nodup ∧ ∀ path ∈ e.outputs, g.producer? path = none := by
  have hpaths : (e.outputs ++ e.inputs).find? Ninja.hasLineBreak = none ↔
      ∀ path ∈ e.outputs ++ e.inputs, OneLine path := by
    simp only [List.find?_eq_none, Ninja.hasLineBreak_iff, not_not]
  have hinputs : e.outputs.find? e.inputs.contains = none ↔ ∀ path ∈ e.outputs, path ∉ e.inputs := by
    simp only [List.find?_eq_none, List.contains_iff_mem]
  rw [edgeFault?]
  constructor
  · intro h
    split_ifs at h with houtputs hrule
    rw [hasRule_iff] at hrule
    split at h
    · simp at h
    · rename_i hfind
      split at h
      · simp at h
      · rename_i hvariables
        split at h
        · simp at h
        · rename_i hself
          rw [variableFault?_eq_none_iff] at hvariables
          rw [duplicateFault?_eq_none_iff] at h
          exact ⟨⟨houtputs, hrule, hpaths.mp hfind, fun b hb => (hvariables b hb).1,
            fun b hb => (hvariables b hb).2, hinputs.mp hself⟩, h.1, fun p hp => (h.2 p hp).1⟩
  · rintro ⟨he, hnodup, hfree⟩
    rw [if_neg he.outputs_ne_nil, if_neg (not_not.mpr (hasRule_iff.mpr he.rule_known)),
      hpaths.mpr he.path_oneLine,
      variableFault?_eq_none_iff.mpr fun b hb => ⟨he.key_valid b hb, he.value_oneLine b hb⟩,
      hinputs.mpr he.output_not_input]
    exact duplicateFault?_eq_none_iff.mpr ⟨hnodup, fun p hp => ⟨hfree p hp, List.not_mem_nil⟩⟩

theorem addRule_eq_ok_iff : g.addRule r = .ok g' ↔
    g.ruleFault? r = none ∧ g' = { g with rules := g.rules ++ [r] } := by
  rw [addRule]
  cases g.ruleFault? r <;> simp [eq_comm]

theorem addEdge_eq_ok_iff : g.addEdge e = .ok g' ↔
    g.edgeFault? e = none ∧ g' = { g with
      edges := g.edges ++ [e]
      producers := e.outputs.map (·, g.edges.length) ++ g.producers } := by
  rw [addEdge]
  cases g.edgeFault? e <;> simp [eq_comm]

/-! ### Steps -/

theorem wellFormed_empty : WellFormed {} := by
  refine ⟨by simp, by simp, by simp, by simp, ?_, rfl⟩
  intro path i
  simp

theorem WellFormed.addRule (h : g.WellFormed) (hadd : g.addRule r = .ok g') : g'.WellFormed := by
  obtain ⟨hfault, rfl⟩ := addRule_eq_ok_iff.mp hadd
  obtain ⟨hr, hnew⟩ := ruleFault?_eq_none_iff.mp hfault
  refine ⟨?_, ?_, fun e he => (h.edge_sound e he).mono (List.subset_append_left _ _),
    h.outputs_nodup, h.indexed, h.producers_eq⟩
  · intro r' hr'
    rcases List.mem_append.mp hr' with hr' | hr'
    · exact h.rule_sound r' hr'
    · rw [List.mem_singleton.mp hr']
      exact hr
  · rw [List.map_append, List.nodup_append]
    refine ⟨h.names_nodup, by simp, ?_⟩
    simpa using hnew

/-- The index after an edge: its outputs lead to the edge, all other paths to where they led. -/
theorem lookup_addOutputs (outputs : List String) (position : Nat)
    (producers : List (String × Nat)) :
    (outputs.map (·, position) ++ producers).lookup path =
      if path ∈ outputs then some position else producers.lookup path := by
  induction outputs with
  | nil => simp
  | cons output outputs ih =>
      by_cases heq : path = output
      · simp [heq]
      · rw [List.map_cons, List.cons_append, List.lookup_cons, beq_false_of_ne heq]
        simp only [ih, List.mem_cons, heq, false_or]

theorem Indexed.addEdge (h : g.Indexed) (hadd : g.addEdge e = .ok g') : g'.Indexed := by
  obtain ⟨hfault, rfl⟩ := addEdge_eq_ok_iff.mp hadd
  obtain ⟨-, -, hfree⟩ := edgeFault?_eq_none_iff.mp hfault
  intro path i
  rw [lookup_addOutputs]
  split_ifs with hmem
  · -- The new edge is the only one with this output, since no earlier one produces it.
    have hnone := h.producer?_eq_none_iff.mp (hfree path hmem)
    constructor
    · intro hi
      cases hi
      exact ⟨e, by simp, hmem⟩
    · rintro ⟨e', he', hmem'⟩
      rcases Nat.lt_or_ge i g.edges.length with hlt | hge
      · rw [List.getElem?_append_left hlt] at he'
        exact absurd hmem' (hnone e' (List.mem_of_getElem? he'))
      · have hi : i < (g.edges ++ [e]).length := (List.getElem?_eq_some_iff.mp he').1
        simp only [List.length_append, List.length_singleton] at hi
        rw [show i = g.edges.length by omega]
  · rw [h path i]
    constructor
    · rintro ⟨e', he', hmem'⟩
      have hlt := (List.getElem?_eq_some_iff.mp he').1
      exact ⟨e', by rw [List.getElem?_append_left hlt, he'], hmem'⟩
    · rintro ⟨e', he', hmem'⟩
      rcases Nat.lt_or_ge i g.edges.length with hlt | hge
      · rw [List.getElem?_append_left hlt] at he'
        exact ⟨e', he', hmem'⟩
      · rw [List.getElem?_append_right hge] at he'
        have he : e' = e := List.mem_singleton.mp (List.mem_of_getElem? he')
        exact absurd (he ▸ hmem') hmem

theorem WellFormed.addEdge (h : g.WellFormed) (hadd : g.addEdge e = .ok g') : g'.WellFormed := by
  have hindexed := h.indexed.addEdge hadd
  obtain ⟨hfault, rfl⟩ := addEdge_eq_ok_iff.mp hadd
  obtain ⟨he, hnodup, hfree⟩ := edgeFault?_eq_none_iff.mp hfault
  refine ⟨h.rule_sound, h.names_nodup, ?_, ?_, hindexed, ?_⟩
  · intro e' he'
    rcases List.mem_append.mp he' with he' | he'
    · exact h.edge_sound e' he'
    · rw [List.mem_singleton.mp he']
      exact he
  · rw [List.flatMap_append, List.nodup_append]
    refine ⟨h.outputs_nodup, by simpa using hnodup, ?_⟩
    intro path hpath path' hpath' heq
    obtain ⟨e', he', hmem⟩ := List.mem_flatMap.mp hpath
    rw [List.flatMap_singleton] at hpath'
    exact h.indexed.producer?_eq_none_iff.mp (hfree path' hpath') e' he' (heq ▸ hmem)
  · rw [producersOf, List.zipIdx_append, List.reverse_append, List.flatMap_append, h.producers_eq]
    simp [producersOf]

theorem WellFormed.setDefaults (h : g.WellFormed) (paths : List String) :
    WellFormed { g with defaults := paths } :=
  ⟨h.rule_sound, h.names_nodup, h.edge_sound, h.outputs_nodup, h.indexed, h.producers_eq⟩

/-- The first edges of a well-formed graph have no output in common with the others. -/
theorem WellFormed.disjoint_outputs {front back : List Edge} (h : g.WellFormed)
    (hedges : g.edges = front ++ back) :
    List.Disjoint (front.flatMap (·.outputs)) (back.flatMap (·.outputs)) := by
  have hnodup := h.outputs_nodup
  rw [hedges, List.flatMap_append] at hnodup
  exact List.disjoint_of_nodup_append hnodup

theorem WellFormed.edge_rule_valid (h : g.WellFormed) (he : e ∈ g.edges) :
    Ninja.isValidName e.rule = true := by
  rcases (h.edge_sound e he).rule_known with hphony | ⟨r, hr, hname⟩
  · rw [hphony]
    decide
  · rw [← hname]
    exact (h.rule_sound r hr).name_valid

/-! ### Sequences of steps -/

theorem foldlM_addRule_eq_ok {rules : List Rule} (h : rules.foldlM addRule g = .ok g') :
    g' = { g with rules := g.rules ++ rules } := by
  induction rules generalizing g with
  | nil =>
      cases h
      simp
  | cons r rules ih =>
      obtain ⟨next, hadd, h⟩ := bind_eq_ok_iff.mp h
      obtain ⟨-, rfl⟩ := addRule_eq_ok_iff.mp hadd
      simpa using ih h

theorem foldlM_addEdge_eq_ok {edges : List Edge} (h : edges.foldlM addEdge g = .ok g') :
    g'.rules = g.rules ∧ g'.edges = g.edges ++ edges ∧ g'.defaults = g.defaults := by
  induction edges generalizing g with
  | nil =>
      cases h
      simp
  | cons e edges ih =>
      obtain ⟨next, hadd, h⟩ := bind_eq_ok_iff.mp h
      obtain ⟨-, rfl⟩ := addEdge_eq_ok_iff.mp hadd
      simpa using ih h

theorem WellFormed.foldlM_addRule {rules : List Rule} (hg : g.WellFormed)
    (h : rules.foldlM BuildGraph.addRule g = .ok g') : g'.WellFormed :=
  foldlM_keeps (fun _ _ _ _ hg hadd => hg.addRule hadd) hg h

theorem WellFormed.foldlM_addEdge {edges : List Edge} (hg : g.WellFormed)
    (h : edges.foldlM BuildGraph.addEdge g = .ok g') : g'.WellFormed :=
  foldlM_keeps (fun _ _ _ _ hg hadd => hg.addEdge hadd) hg h

/-- Rules can be added one after another exactly when each can be written and no two, old or new, have the
same name. -/
theorem WellFormed.exists_foldlM_addRule_iff {rules : List Rule} (hg : g.WellFormed) :
    (∃ g', rules.foldlM BuildGraph.addRule g = .ok g') ↔
      (∀ r ∈ rules, r.Sound) ∧ ((g.rules ++ rules).map (·.name)).Nodup := by
  induction rules generalizing g with
  | nil =>
      rw [List.append_nil]
      exact ⟨fun _ => ⟨nofun, hg.names_nodup⟩, fun _ => ⟨g, rfl⟩⟩
  | cons r rules ih =>
      rw [List.forall_mem_cons, List.append_cons]
      constructor
      · rintro ⟨g', h⟩
        obtain ⟨next, hadd, h⟩ := bind_eq_ok_iff.mp h
        have hnext := (ih (hg.addRule hadd)).mp ⟨g', h⟩
        obtain ⟨hfault, rfl⟩ := addRule_eq_ok_iff.mp hadd
        exact ⟨⟨(ruleFault?_eq_none_iff.mp hfault).1, hnext.1⟩, hnext.2⟩
      · rintro ⟨⟨hr, hrules⟩, hnodup⟩
        have hnew : ∀ r' ∈ g.rules, r'.name ≠ r.name := by
          rw [List.map_append, List.nodup_append, List.map_append] at hnodup
          intro r' hr'
          exact (List.nodup_append.mp hnodup.1).2.2 r'.name (List.mem_map_of_mem hr') r.name
            List.mem_cons_self
        have hadd := addRule_eq_ok_iff.mpr ⟨ruleFault?_eq_none_iff.mpr ⟨hr, hnew⟩, rfl⟩
        obtain ⟨g', h⟩ := (ih (hg.addRule hadd)).mpr ⟨hrules, hnodup⟩
        exact ⟨g', bind_eq_ok_iff.mpr ⟨_, hadd, h⟩⟩

/-- Edges can be added one after another exactly when each can be written there and no path is an output
twice, of edges of the graph or of the new ones. -/
theorem WellFormed.exists_foldlM_addEdge_iff {edges : List Edge} (hg : g.WellFormed) :
    (∃ g', edges.foldlM BuildGraph.addEdge g = .ok g') ↔
      (∀ e ∈ edges, e.Sound g.rules) ∧ ((g.edges ++ edges).flatMap (·.outputs)).Nodup := by
  induction edges generalizing g with
  | nil =>
      rw [List.append_nil]
      exact ⟨fun _ => ⟨nofun, hg.outputs_nodup⟩, fun _ => ⟨g, rfl⟩⟩
  | cons e edges ih =>
      rw [List.forall_mem_cons, List.append_cons]
      constructor
      · rintro ⟨g', h⟩
        obtain ⟨next, hadd, h⟩ := bind_eq_ok_iff.mp h
        have hnext := (ih (hg.addEdge hadd)).mp ⟨g', h⟩
        obtain ⟨hfault, rfl⟩ := addEdge_eq_ok_iff.mp hadd
        exact ⟨⟨(edgeFault?_eq_none_iff.mp hfault).1, hnext.1⟩, hnext.2⟩
      · rintro ⟨⟨he, hedges⟩, hnodup⟩
        have hfront : ((g.edges ++ [e]).flatMap (·.outputs)).Nodup := by
          rw [List.flatMap_append] at hnodup
          exact (List.nodup_append.mp hnodup).1
        rw [List.flatMap_append, List.flatMap_singleton, List.nodup_append] at hfront
        obtain ⟨-, hown, hdisjoint⟩ := hfront
        have hfree : ∀ path ∈ e.outputs, g.producer? path = none := fun path hpath =>
          hg.indexed.producer?_eq_none_iff.mpr fun e' he' hpath' =>
            hdisjoint path (List.mem_flatMap.mpr ⟨e', he', hpath'⟩) path hpath rfl
        have hadd := addEdge_eq_ok_iff.mpr ⟨edgeFault?_eq_none_iff.mpr ⟨he, hown, hfree⟩, rfl⟩
        obtain ⟨g', h⟩ := (ih (hg.addEdge hadd)).mpr ⟨hedges, hnodup⟩
        exact ⟨g', bind_eq_ok_iff.mpr ⟨_, hadd, h⟩⟩

end BuildGraph

end AssetPipeline
