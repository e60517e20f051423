import AssetPipeline.Ninja.BuildFile
import Mathlib.Data.List.Basic

/-! A reader of build files. It splits the text into lines, tells the lines apart by how they begin,
hangs variables on the line above them, and refuses a file with any line that it has no use for. -/

namespace AssetPipeline.Ninja

/-- What a build file says. -/
structure Content where
  rules : List Rule := []
  edges : List Edge := []
  defaults : List String := []
  deriving DecidableEq

def Content.ofGraph (g : BuildGraph) : Content :=
  ⟨g.rules, g.edges, g.defaults⟩

/-- A character on a line of paths, with the escapes undone. Spaces and colons are those that stand
unescaped. -/
inductive Glyph where
  | char (c : Char)
  | space
  | colon
  deriving DecidableEq

/-- The glyphs of a text. A dollar sign must escape another one, a space or a colon. -/
def scan : List Char → Option (List Glyph)
  | [] => some []
  | '$' :: text =>
    match text with
    | c :: text => if c = '$' ∨ c = ' ' ∨ c = ':' then (scan text).map (.char c :: ·) else none
    | [] => none
  | ' ' :: text => (scan text).map (.space :: ·)
  | ':' :: text => (scan text).map (.colon :: ·)
  | c :: text => (scan text).map (.char c :: ·)

theorem scan_escape {c : Char} (text : List Char) (hc : c = '$' ∨ c = ' ' ∨ c = ':') :
    scan ('$' :: c :: text) = (scan text).map (.char c :: ·) := by
  simp only [scan, if_pos hc]

theorem scan_char {c : Char} (text : List Char) (hc : ¬ (c = '$' ∨ c = ' ' ∨ c = ':')) :
    scan (c :: text) = (scan text).map (.char c :: ·) := by
  push Not at hc
  rw [scan]
  · exact fun h => absurd h hc.1
  · exact hc.2.1
  · exact hc.2.2

def Glyph.char? : Glyph → Option Char
  | .char c => some c
  | _ => none

/-- Paths with single spaces between them. -/
def paths? (glyphs : List Glyph) : Option (List String) :=
  (glyphs.splitOn .space).mapM fun path => (path.mapM Glyph.char?).map String.ofList

inductive Line where
  | header
  | blank
  | rule (name : String)
  | binding (key value : String)
  | build (outputs : List String) (rule : String) (inputs : List String)
  | default (paths : List String)
  deriving DecidableEq

namespace Line

/-- What stands before and after the first equals sign with spaces around it. -/
def cutEquals? : List Char → Option (List Char × List Char)
  | [] => none
  | c :: text =>
    match (c :: text).dropPrefix? " = ".toList with
    | some value => some ([], value)
    | none => (cutEquals? text).map fun (key, value) => (c :: key, value)

def binding? (text : List Char) : Option Line :=
  (cutEquals? text).map fun (key, value) => .binding (String.ofList key) (String.ofList value)

/-- Outputs up to the first colon, then the rule, then the inputs. -/
def build? (text : List Char) : Option Line := do
  let glyphs ← scan text
  match glyphs.dropWhile (· ≠ .colon) with
  | .colon :: .space :: rest =>
    match ← paths? rest with
    | name :: inputs => return .build (← paths? (glyphs.takeWhile (· ≠ .colon))) name inputs
    | [] => none
  | _ => none

def default? (text : List Char) : Option Line := do
  return .default (← paths? (← scan text))

def ofText? (text : List Char) : Option Line :=
  if text = [] then some .blank
  else if text = Ninja.header.toList then some .header
  else
    match text.dropPrefix? "rule ".toList with
    | some name => some (.rule (String.ofList name))
    | none =>
      match text.dropPrefix? "  ".toList with
      | some text => binding? text
      | none =>
        match text.dropPrefix? "build ".toList with
        | some text => build? text
        | none => (text.dropPrefix? "default ".toList).bind default?

/-! What begins a line tells its kind, and by its first character already. -/

theorem toList_rule : "rule ".toList = 'r' :: "ule ".toList := by decide

theorem toList_indent : "  ".toList = ' ' :: " ".toList := by decide

theorem toList_build : "build ".toList = 'b' :: "uild ".toList := by decide

theorem toList_default : "default ".toList = 'd' :: "efault ".toList := by decide

theorem cons_ne_header {c : Char} (hc : c ≠ '#') (text : List Char) :
    c :: text ≠ Ninja.header.toList := by
  have hheader : Ninja.header.toList.head? = some '#' := by decide
  intro h
  rw [← h, List.head?_cons] at hheader
  exact hc (Option.some.inj hheader)

theorem dropPrefix?_append (front text : List Char) : (front ++ text).dropPrefix? front = some text :=
  List.dropPrefix?_append_of_beq _ (beq_self_eq_true front)

theorem dropPrefix?_of_ne {c d : Char} (h : c ≠ d) (front text : List Char) :
    (c :: text).dropPrefix? (d :: front) = none := by
  rw [List.dropPrefix?, if_neg]
  rwa [beq_iff_eq]

theorem ofText?_rule_append (name : List Char) :
    ofText? ("rule ".toList ++ name) = some (.rule (String.ofList name)) := by
  rw [ofText?, dropPrefix?_append, toList_rule, List.cons_append, if_neg (List.cons_ne_nil _ _),
    if_neg (cons_ne_header (by decide) _)]

theorem ofText?_indent_append (text : List Char) : ofText? ("  ".toList ++ text) = binding? text := by
  rw [ofText?, dropPrefix?_append, toList_rule, toList_indent, List.cons_append,
    if_neg (List.cons_ne_nil _ _), if_neg (cons_ne_header (by decide) _),
    dropPrefix?_of_ne (by decide)]

theorem ofText?_build_append (text : List Char) : ofText? ("build ".toList ++ text) = build? text := by
  rw [ofText?, dropPrefix?_append, toList_rule, toList_indent, toList_build, List.cons_append,
    if_neg (List.cons_ne_nil _ _), if_neg (cons_ne_header (by decide) _),
    dropPrefix?_of_ne (by decide), dropPrefix?_of_ne (by decide)]

example : ofText? "build a$ b: phony c$:".toList = some (.build ["a b"] "phony" ["c:"]) := by
  decide

theorem ofText?_default_append (text : List Char) :
    ofText? ("default ".toList ++ text) = default? text := by
  rw [ofText?, dropPrefix?_append, toList_rule, toList_indent, toList_build, toList_default,
    List.cons_append, if_neg (List.cons_ne_nil _ _), if_neg (cons_ne_header (by decide) _),
    dropPrefix?_of_ne (by decide), dropPrefix?_of_ne (by decide), dropPrefix?_of_ne (by decide)]
  rfl

end Line

/-- Variables on the lines below, and the line that they belong to. -/
abbrev Block := Line × List (String × String)

/-- Each line with the variables below it, and before all of them the variables that no line stands
above. -/
def blocks : List Line → List (String × String) × List Block
  | [] => ([], [])
  | .binding key value :: lines =>
    let (above, rest) := blocks lines
    ((key, value) :: above, rest)
  | line :: lines =>
    let (below, rest) := blocks lines
    ([], (line, below) :: rest)

/-- A rule by its variables. Each must be one that a rule can have. -/
def rule? (name : String) (bindings : List (String × String)) : Option Rule := do
  guard (bindings.all fun b => ["command", "description", "generator", "restat"].contains b.1)
  return {
    name
    command := ← bindings.lookup "command"
    description := bindings.lookup "description"
    generator := bindings.lookup "generator" = some "1"
    restat := bindings.lookup "restat" = some "1" }

namespace Content

/-- The content with one more block. -/
def add? (content : Content) : Block → Option Content
  | (.blank, []) => some content
  | (.rule name, bindings) => do
    return { content with rules := content.rules ++ [← rule? name bindings] }
  | (.build outputs rule inputs, bindings) =>
    some { content with edges := content.edges ++ [{ rule, outputs, inputs, bindings }] }
  | (.default paths, []) => if content.defaults = [] then some { content with defaults := paths } else none
  | _ => none

/-- The content of the lines of a file, of which the first is the header. -/
def ofLines? (lines : List Line) : Option Content :=
  match blocks lines with
  | ([], (.header, []) :: rest) => rest.foldlM add? {}
  | _ => none

end Content

/-- The lines of a text in which every line is ended by a line feed. -/
def textLines? (text : String) : Option (List (List Char)) :=
  let pieces := text.toList.splitOn '\n'
  if pieces.getLast? = some [] then some pieces.dropLast else none

/-- The content of a build file. -/
def read? (text : String) : Option Content := do
  Content.ofLines? (← (← textLines? text).mapM Line.ofText?)

end AssetPipeline.Ninja
