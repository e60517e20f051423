/-! What a pipeline description declares: rules, which are named command templates, and builders,
which say which files become which outputs. -/

namespace AssetPipeline

/-- Variables of an edge: values by key, in the order of the keys. -/
structure Assignments where
  entries : List (String × String)
  ascending : entries.Pairwise fun a b => a.1 < b.1
  deriving DecidableEq

namespace Assignments

def empty : Assignments := ⟨[], .nil⟩

/-- Entries with `value` under `key`, kept in order. -/
def put (key value : String) : List (String × String) → List (String × String)
  | [] => [(key, value)]
  | (k, v) :: entries =>
    if key < k then (key, value) :: (k, v) :: entries
    else if key = k then (key, value) :: entries
    else (k, v) :: put key value entries

theorem mem_put {key value : String} {entries : List (String × String)} {e : String × String}
    (h : e ∈ put key value entries) : e = (key, value) ∨ e ∈ entries := by
  induction entries with
  | nil => simpa [put] using h
  | cons head tail ih =>
    obtain ⟨k, v⟩ := head
    simp only [put] at h
    split at h
    · exact List.mem_cons.1 h
    · split at h
      · rcases List.mem_cons.1 h with h | h
        · exact .inl h
        · exact .inr (List.mem_cons_of_mem _ h)
      · rcases List.mem_cons.1 h with h | h
        · exact .inr (h ▸ List.mem_cons_self)
        · exact (ih h).imp_right (List.mem_cons_of_mem _)

theorem put_ascending (key value : String) {entries : List (String × String)}
    (h : entries.Pairwise fun a b => a.1 < b.1) :
    (put key value entries).Pairwise fun a b => a.1 < b.1 := by
  induction entries with
  | nil => simp [put]
  | cons head tail ih =>
    obtain ⟨k, v⟩ := head
    obtain ⟨hhead, htail⟩ := List.pairwise_cons.1 h
    simp only [put]
    split
    · rename_i hlt
      refine List.pairwise_cons.2 ⟨fun e he => ?_, h⟩
      rcases List.mem_cons.1 he with rfl | he
      · exact hlt
      · exact String.lt_trans hlt (hhead e he)
    · split
      · rename_i heq
        exact List.pairwise_cons.2 ⟨fun e he => heq ▸ hhead e he, htail⟩
      · rename_i hle hne
        refine List.pairwise_cons.2 ⟨fun e he => ?_, ih htail⟩
        rcases mem_put he with rfl | he
        · exact Std.lt_of_le_of_ne (String.not_lt.1 hle) (Ne.symm hne)
        · exact hhead e he

/-- A later value under a key replaces an earlier one. -/
def insert (a : Assignments) (key value : String) : Assignments :=
  ⟨put key value a.entries, put_ascending key value a.ascending⟩

end Assignments

/-- A named shell command template. -/
structure RuleDecl where
  name : String
  command : Option String := none
  deriving DecidableEq

/-- One output per file that `pattern` matches. -/
structure Single where
  pattern : String
  buildRelative : Bool := false
  target : Option String := none
  assignments : Assignments := .empty
  rule : Option String := none
  deriving DecidableEq

/-- All files that `pattern` matches feed one edge with the outputs `targets`. -/
structure Bundle where
  pattern : String
  buildRelative : Bool := false
  targets : List String := []
  assignments : Assignments := .empty
  rule : Option String := none
  deriving DecidableEq

/-! What a description can say of a rule or a builder; the last word on each point counts. -/

namespace RuleDecl

def withCommand (r : RuleDecl) (command : String) : RuleDecl :=
  { r with command := some command }

end RuleDecl

namespace Single

/-- Stands in a target for the stem of the matched file. -/
def stemToken : List Char := "$filename".toList

def fromBuild (s : Single) (flag : Bool) : Single :=
  { s with buildRelative := flag }

def withTarget (s : Single) (target : String) : Single :=
  { s with target := some target }

/-- A target with the stem of the matched file and the given extension. -/
def withExtension (s : Single) (ext : String) : Single :=
  s.withTarget (String.ofList stemToken ++ ext)

def assign (s : Single) (key value : String) : Single :=
  { s with assignments := s.assignments.insert key value }

def withRule (s : Single) (rule : String) : Single :=
  { s with rule := some rule }

/-- `text` with every token replaced by `stem`, from left to right. -/
def expand (stem : List Char) : List Char → List Char
  | [] => []
  | c :: text =>
    if stemToken.isPrefixOf (c :: text) then stem ++ expand stem (text.drop (stemToken.length - 1))
    else c :: expand stem text
termination_by text => text.length
decreasing_by all_goals simp only [List.length_cons, List.length_drop]; omega

/-- Output name for a matched file with the given stem. -/
def outputName (s : Single) (stem : String) : Option String :=
  s.target.map fun target => String.ofList (expand stem.toList target.toList)

end Single

namespace Bundle

def fromBuild (b : Bundle) (flag : Bool) : Bundle :=
  { b with buildRelative := flag }

/-- More targets, after those there are. -/
def addTargets (b : Bundle) (targets : List String) : Bundle :=
  { b with targets := b.targets ++ targets }

def assign (b : Bundle) (key value : String) : Bundle :=
  { b with assignments := b.assignments.insert key value }

def withRule (b : Bundle) (rule : String) : Bundle :=
  { b with rule := some rule }

end Bundle

/-- Either kind of builder. -/
inductive Builder where
  | single (s : Single)
  | bundle (b : Bundle)
  deriving DecidableEq

namespace Builder

def pattern : Builder → String
  | single s => s.pattern
  | bundle b => b.pattern

def buildRelative : Builder → Bool
  | single s => s.buildRelative
  | bundle b => b.buildRelative

def rule : Builder → Option String
  | single s => s.rule
  | bundle b => b.rule

def assignments : Builder → Assignments
  | single s => s.assignments
  | bundle b => b.assignments

/-- Declared targets; a single has at most one. -/
def targets : Builder → List String
  | single s => s.target.toList
  | bundle b => b.targets

/-- The verb that declares a builder of this kind. -/
def verb : Builder → String
  | single _ => "single"
  | bundle _ => "bundle"

end Builder

/-- All that a description declares, in the order of declaration. -/
structure Declarations where
  rules : List RuleDecl := []
  singles : List Single := []
  bundles : List Bundle := []
  deriving DecidableEq

/-- Singles first, then bundles: the order in which edges are emitted. -/
def Declarations.builders (d : Declarations) : List Builder :=
  d.singles.map .single ++ d.bundles.map .bundle

end AssetPipeline
