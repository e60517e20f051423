import AssetPipeline.Graph
import Mathlib.Data.List.TakeWhile
import Mathlib.Tactic.SplitIfs

/-! Commands as the executor runs them: the command of the edge's rule, with each dollar escape and each
variable in it replaced. Escaped text expands to itself, so it reaches the shell as it was. -/

namespace AssetPipeline

namespace Ninja

/-- Characters of a variable's name where the name is not in braces. -/
def isReferenceChar (c : Char) : Bool :=
  c.isAlphanum || c = '_' || c = '-'

/-- A text with its escapes undone and its variables replaced. It makes no sense with a dollar sign
before anything else; names in braces are not followed. -/
def expand? (value? : String → Option String) : List Char → Option (List Char)
  | [] => some []
  | ['$'] => none
  | '$' :: c :: text =>
    if c = '$' ∨ c = ' ' ∨ c = ':' then (expand? value? text).map (c :: ·)
    else if isReferenceChar c then do
      let value ← value? (String.ofList (c :: text.takeWhile isReferenceChar))
      let rest ← expand? value? (text.dropWhile isReferenceChar)
      return value.toList ++ rest
    else none
  | c :: text => (expand? value? text).map (c :: ·)
termination_by text => text.length
decreasing_by
  · simp only [List.length_cons]
    omega
  · have := (List.dropWhile_sublist isReferenceChar (l := text)).length_le
    simp only [List.length_cons]
    omega
  · simp only [List.length_cons]
    omega

end Ninja

/-- What a variable stands for on an edge. A shell gets the paths quoted by `quote`; the edge's own
bindings may hold escapes, but no variables. -/
def Edge.value? (quote : String → String) (e : Edge) (name : String) : Option String :=
  if name = "out" then some (" ".intercalate (e.outputs.map quote))
  else if name = "in" then some (" ".intercalate (e.inputs.map quote))
  else
    match e.bindings.lookup name with
    | some text => (Ninja.expand? (fun _ => none) text.toList).map String.ofList
    | none => some ""

/-- The command by which the executor makes an edge with this rule. -/
def Edge.command? (quote : String → String) (r : Rule) (e : Edge) : Option String :=
  (Ninja.expand? (e.value? quote) r.command.toList).map String.ofList

namespace Ninja

variable {value? : String → Option String} {rest : List Char}

theorem expand?_char {c : Char} (hc : c ≠ '$') (text : List Char) :
    expand? value? (c :: text) = (expand? value? text).map (c :: ·) := by
  rw [expand?]
  · exact fun h _ => hc h
  · exact fun _ _ h _ => hc h

theorem expand?_dollars (text : List Char) :
    expand? value? ('$' :: '$' :: text) = (expand? value? text).map ('$' :: ·) := by
  rw [expand?, if_pos (Or.inl rfl)]

/-- Text without dollar signs stands for itself. -/
theorem expand?_append {text : List Char} (h : '$' ∉ text) (rest : List Char) :
    expand? value? (text ++ rest) = (expand? value? rest).map (text ++ ·) := by
  induction text with
  | nil => exact Option.map_id'.symm
  | cons c text ih =>
      rw [List.mem_cons, not_or] at h
      rw [List.cons_append, expand?_char (Ne.symm h.1), ih h.2, Option.map_map]
      rfl

/-- So does escaped text. -/
theorem expand?_escapeValue (value : String) (rest : List Char) :
    expand? value? ((escapeValue value).toList ++ rest) =
      (expand? value? rest).map (value.toList ++ ·) := by
  rw [escapeValue, String.toList_ofList]
  induction value.toList with
  | nil => exact Option.map_id'.symm
  | cons c text ih =>
      rw [List.flatMap_cons, List.append_assoc]
      split_ifs with hc
      · rw [hc, List.cons_append, List.singleton_append, expand?_dollars, ih, Option.map_map]
        rfl
      · rw [List.singleton_append, expand?_char hc, ih, Option.map_map]
        rfl

theorem expand?_escaped (value : String) :
    (expand? value? (escapeValue value).toList).map String.ofList = some value := by
  have hread : expand? value? ((escapeValue value).toList ++ []) = _ := expand?_escapeValue value []
  rw [List.append_nil, expand?] at hread
  rw [hread, Option.map_some, Option.map_some, List.append_nil, String.ofList_toList]

/-- A variable is replaced by its value; its name ends where another character follows. -/
theorem expand?_reference {c : Char} {name : List Char} {value : String}
    (hname : (c :: name).all isReferenceChar = true) (hrest : rest.head?.any isReferenceChar = false)
    (hvalue : value? (String.ofList (c :: name)) = some value) :
    expand? value? ('$' :: c :: (name ++ rest)) = (expand? value? rest).map (value.toList ++ ·) := by
  rw [List.all_eq_true, List.forall_mem_cons] at hname
  have hescape : ¬ (c = '$' ∨ c = ' ' ∨ c = ':') := by
    rintro (rfl | rfl | rfl) <;> exact absurd hname.1 (by decide)
  have hends : rest.takeWhile isReferenceChar = [] ∧ rest.dropWhile isReferenceChar = rest := by
    cases rest with
    | nil => exact ⟨rfl, rfl⟩
    | cons d rest =>
        have hd : ¬ isReferenceChar d = true := by
          rw [show isReferenceChar d = false from hrest]
          exact Bool.false_ne_true
        exact ⟨List.takeWhile_cons_of_neg hd, List.dropWhile_cons_of_neg hd⟩
  rw [expand?, if_neg hescape, if_pos hname.1, List.takeWhile_append_of_pos hname.2, hends.1,
    List.append_nil, hvalue, List.dropWhile_append_of_pos hname.2, hends.2]
  cases expand? value? rest <;> rfl

end Ninja

end AssetPipeline
