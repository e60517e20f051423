import AssetPipeline.Proofs.Graph.Session

/-! Edges added one after another. Each is checked against what was added before it, and yet all of them
enter exactly when they are sound one by one and no path is an output twice. That does not depend on
their order, and neither does the producer of any path. An edge that is refused for an output names the
rule that makes it already. -/

namespace AssetPipeline

namespace BuildGraph

variable {g g₁ g₂ : BuildGraph} {e : Edge} {edges edges' : List Edge} {rule output first second : String}

/-! ### Outputs that are made already -/

/-- An output of an edge is made already, under the rule `first`: by an edge of the graph, or because the
edge has listed it before. -/
def MadeBefore (g : BuildGraph) (e : Edge) (output first : String) : Prop :=
  ∃ front back, e.outputs = front ++ output :: back ∧
    ((∃ earlier, g.producer? output = some earlier ∧ first = earlier.rule) ∨
      output ∈ front ∧ first = e.rule)

theorem exists_of_duplicateFault? {before outputs : List String}
    (h : g.duplicateFault? rule before outputs = some (.duplicateOutput output first second)) :
    second = rule ∧ ∃ front back, outputs = front ++ output :: back ∧
      ((∃ earlier, g.producer? output = some earlier ∧ first = earlier.rule) ∨
        (output ∈ before ∨ output ∈ front) ∧ first = rule) := by
  induction outputs generalizing before with
  | nil => cases h
  | cons next outputs ih =>
      rw [duplicateFault?] at h
      split at h
      · rename_i earlier hproducer
        cases h
        exact ⟨rfl, [], outputs, rfl, .inl ⟨earlier, hproducer, rfl⟩⟩
      · split_ifs at h with hbefore
        · cases h
          exact ⟨rfl, [], outputs, rfl, .inr ⟨.inl (List.contains_iff_mem.mp hbefore), rfl⟩⟩
        · obtain ⟨hsecond, front, back, rfl, hmade⟩ := ih h
          refine ⟨hsecond, next :: front, back, rfl, hmade.imp_right (And.imp_left fun hmem => ?_)⟩
          rcases hmem with hmem | hmem
          · rcases List.mem_cons.mp hmem with rfl | hmem
            · exact .inr List.mem_cons_self
            · exact .inl hmem
          · exact .inr (List.mem_cons_of_mem _ hmem)

theorem variableFault?_ne_duplicateOutput (bindings : List (String × String)) :
    variableFault? rule bindings ≠ some (.duplicateOutput output first second) := by
  induction bindings with
  | nil => exact (Option.some_ne_none _).symm
  | cons binding bindings ih =>
      rw [variableFault?]
      split_ifs with hkey hvalue
      · intro h
        cases h
      · exact ih
      · intro h
        cases h

theorem madeBefore_of_addEdge (h : g.addEdge e = .error (.duplicateOutput output first second)) :
    second = e.rule ∧ g.MadeBefore e output first := by
  have hfault : g.edgeFault? e = some (.duplicateOutput output first second) := by
    rw [addEdge] at h
    split at h
    · rename_i fault hfault
      cases h
      exact hfault
    · cases h
  -- All checks but the last one have faults of their own.
  have hduplicate : g.duplicateFault? e.rule [] e.outputs = some (.duplicateOutput output first second) := by
    rw [edgeFault?] at hfault
    split at hfault
    · cases hfault
    · split at hfault
      · cases hfault
      · split at hfault
        · cases hfault
        · split at hfault
          · rename_i fault hvariable
            cases hfault
            exact absurd hvariable (variableFault?_ne_duplicateOutput _)
          · split at hfault
            · cases hfault
            · exact hfault
  obtain ⟨hsecond, front, back, houtputs, hmade⟩ := exists_of_duplicateFault? hduplicate
  exact ⟨hsecond, front, back, houtputs,
    hmade.imp_right (And.imp_left fun hmem => hmem.resolve_left List.not_mem_nil)⟩

/-! ### Any order -/

/-- Edges can be added exactly when each is sound, and their outputs are different and all new. -/
theorem WellFormed.exists_foldlM_addEdge_iff_new (hg : g.WellFormed) :
    (∃ g', edges.foldlM BuildGraph.addEdge g = .ok g') ↔
      (∀ e ∈ edges, e.Sound g.rules) ∧ (edges.flatMap (·.outputs)).Nodup ∧
        ∀ path ∈ edges.flatMap (·.outputs), g.producer? path = none := by
  rw [hg.exists_foldlM_addEdge_iff, List.flatMap_append, List.nodup_append', List.disjoint_comm]
  have hnew : (edges.flatMap (·.outputs)).Disjoint (g.edges.flatMap (·.outputs)) ↔
      ∀ path ∈ edges.flatMap (·.outputs), g.producer? path = none := by
    refine forall_congr' fun path => forall_congr' fun _ => ?_
    rw [hg.indexed.producer?_eq_none_iff, List.mem_flatMap]
    exact ⟨fun h e he hpath => h ⟨e, he, hpath⟩, fun h ⟨e, he, hpath⟩ => h e he hpath⟩
  rw [hnew]
  exact and_congr_right fun _ => ⟨fun h => h.2, fun h => ⟨hg.outputs_nodup, h⟩⟩

/-- Whether edges can be added does not depend on their order. -/
theorem WellFormed.exists_foldlM_addEdge_perm (hg : g.WellFormed) (hperm : edges.Perm edges') :
    (∃ g', edges'.foldlM BuildGraph.addEdge g = .ok g') ↔
      ∃ g', edges.foldlM BuildGraph.addEdge g = .ok g' := by
  have houtputs := hperm.flatMap_right (·.outputs)
  rw [hg.exists_foldlM_addEdge_iff_new, hg.exists_foldlM_addEdge_iff_new, houtputs.nodup_iff]
  simp only [hperm.mem_iff, houtputs.mem_iff]

/-- Nor does the edge that produces a path. -/
theorem WellFormed.producer?_perm (hg : g.WellFormed) (hperm : edges.Perm edges')
    (h₁ : edges.foldlM BuildGraph.addEdge g = .ok g₁) (h₂ : edges'.foldlM BuildGraph.addEdge g = .ok g₂)
    (path : String) : g₂.producer? path = g₁.producer? path := by
  obtain ⟨-, hedges₁, -⟩ := foldlM_addEdge_eq_ok h₁
  obtain ⟨-, hedges₂, -⟩ := foldlM_addEdge_eq_ok h₂
  refine Option.ext fun e => ?_
  rw [(hg.foldlM_addEdge h₁).indexed.producer?_eq_some_iff_mem,
    (hg.foldlM_addEdge h₂).indexed.producer?_eq_some_iff_mem, hedges₁, hedges₂, List.mem_append,
    List.mem_append, hperm.mem_iff]

/-- A sequence of additions that fails does so at one of its edges, in the graph that the edges before it
have made. -/
theorem exists_of_foldlM_addEdge_error {error : GraphError}
    (h : edges.foldlM addEdge g = .error error) : ∃ front e back mid, edges = front ++ e :: back ∧
      front.foldlM addEdge g = .ok mid ∧ mid.addEdge e = .error error := by
  induction edges generalizing g with
  | nil => cases h
  | cons e edges ih =>
      rcases bind_eq_error_iff.mp h with h | ⟨next, hadd, h⟩
      · exact ⟨[], e, edges, g, rfl, rfl, h⟩
      · obtain ⟨front, refused, back, mid, rfl, hfront, hrefused⟩ := ih h
        exact ⟨e :: front, refused, back, mid, rfl, bind_eq_ok_iff.mpr ⟨next, hadd, hfront⟩, hrefused⟩

/-- In a graph that calls have reached, edges can be added one after another exactly when each is sound
there, and their outputs taken together are different and have no producer yet. The order of the edges
matters neither for that nor for what produces a path then. And where an edge is refused for an output,
that output has a producer, whose rule is named first, or the edge has listed it before. -/
theorem additions_unordered (calls : List GraphCall) (edges : List Edge) :
    let g := afterCalls {} calls
    ((∃ g', edges.foldlM addEdge g = .ok g') ↔
      (∀ e ∈ edges, e.Sound g.rules) ∧ (edges.flatMap (·.outputs)).Nodup ∧
        ∀ path ∈ edges.flatMap (·.outputs), g.producer? path = none) ∧
    (∀ edges', edges.Perm edges' →
      ((∃ g', edges'.foldlM addEdge g = .ok g') ↔ ∃ g', edges.foldlM addEdge g = .ok g') ∧
      ∀ g₁ g₂, edges.foldlM addEdge g = .ok g₁ → edges'.foldlM addEdge g = .ok g₂ →
        ∀ path, g₂.producer? path = g₁.producer? path) ∧
    (∀ output first second, edges.foldlM addEdge g = .error (.duplicateOutput output first second) →
      ∃ front e back mid, edges = front ++ e :: back ∧ front.foldlM addEdge g = .ok mid ∧
        second = e.rule ∧ mid.MadeBefore e output first) := by
  intro g
  have hg : g.WellFormed := wellFormed_empty.afterCalls calls
  refine ⟨hg.exists_foldlM_addEdge_iff_new, fun edges' hperm => ⟨?_, ?_⟩, fun output first second h => ?_⟩
  · exact hg.exists_foldlM_addEdge_perm hperm
  · exact fun g₁ g₂ h₁ h₂ path => hg.producer?_perm hperm h₁ h₂ path
  · obtain ⟨front, e, back, mid, hedges, hfront, hrefused⟩ := exists_of_foldlM_addEdge_error h
    exact ⟨front, e, back, mid, hedges, hfront, madeBefore_of_addEdge hrefused⟩

end BuildGraph

end AssetPipeline
