import AssetPipeline.CommandLine.Arguments
import Mathlib.Data.List.Basic
import Mathlib.Tactic.SplitIfs

/-! Arguments that are never taken for options, and the refreshing command line: it means what its texts
say exactly if all of them are such arguments. Nothing else can keep them apart, since no `--` stands
before the patterns. -/

namespace AssetPipeline

namespace CommandLine

/-- A text that is never taken for an option: it does not begin with a hyphen, or is nothing but one. -/
def IsOperand (text : String) : Prop :=
  text.toList.head? = some '-' → text = "-"

instance (text : String) : Decidable (IsOperand text) :=
  inferInstanceAs (Decidable (_ → _))

theorem Argument.ofString_eq_plain_iff {text value : String} :
    Argument.ofString text = .plain value ↔ value = text ∧ IsOperand text := by
  have hhyphen : text = "-" ↔ text.toList = ['-'] := by
    rw [← String.toList_inj]
    rfl
  rw [IsOperand, hhyphen, ofString]
  split
  · rename_i htext
    simp [htext]
  · rename_i rest hrest htext
    rw [htext]
    constructor
    · intro h
      dsimp only at h
      split at h <;> cases h
    · rintro ⟨-, hplain⟩
      cases hplain rfl
  · rename_i flag flags _ htext
    simp [htext]
  · rename_i hends hlong hshort
    have hplain : text.toList.head? = some '-' → text.toList = ['-'] := by
      intro hhead
      obtain ⟨rest, htext⟩ := List.head?_eq_some_iff.mp hhead
      cases rest with
      | nil => exact htext
      | cons flag flags => exact absurd htext (hshort flag flags)
    rw [Argument.plain.injEq]
    exact ⟨fun h => ⟨h.symm, hplain⟩, fun h => h.1.symm⟩

/-- What flags ask for at once is help or the version. -/
theorem answer_of_readFlags {onHelp : Request} {onVersion : Option Request} {verbose : Bool}
    {flags : List Char} {request : Request}
    (h : readFlags onHelp onVersion verbose flags = some (.answer request)) :
    request = onHelp ∨ onVersion = some request := by
  fun_induction readFlags onHelp onVersion verbose flags with
  | case1 => cases h
  | case2 =>
      cases h
      exact Or.inl rfl
  | case3 =>
      obtain ⟨_, hversion, h⟩ := Option.map_eq_some_iff.mp h
      cases h
      exact Or.inr hversion
  | case4 => cases h
  | case5 verbose flags _ ih => exact ih h
  | case6 => cases h

theorem answer_of_readFlagArgument {onHelp : Request} {onVersion : Option Request} {verbose : Bool}
    {argument : Argument} {request : Request}
    (h : readFlagArgument onHelp onVersion verbose argument = some (.answer request)) :
    request = onHelp ∨ onVersion = some request := by
  cases argument with
  | short flags => exact answer_of_readFlags h
  | long name value =>
      cases value with
      | none =>
          obtain ⟨flag, -, h⟩ := Option.bind_eq_some_iff.mp h
          exact answer_of_readFlags h
      | some value => cases h
  | endOfOptions => cases h
  | plain text => cases h

namespace RefreshArguments

variable {a a' : RefreshArguments} {args : List String}

theorem setOption?_eq_some {name value : String} (h : a.setOption? name value = some a') :
    a'.patterns = a.patterns ∧ (a.output ≠ some "" → a'.output ≠ some "") := by
  rw [setOption?] at h
  split_ifs at h with hempty hroot houtput
  · cases h
    exact ⟨rfl, id⟩
  · cases h
    refine ⟨rfl, fun _ heq => hempty ?_⟩
    exact Option.some.inj heq

theorem read_operands (h : ∀ text ∈ args, IsOperand text) (a : RefreshArguments) :
    read a args = finish { a with patterns := a.patterns ++ args } := by
  induction args generalizing a with
  | nil =>
      rw [read, List.append_nil]
  | cons text args ih =>
      rw [List.forall_mem_cons] at h
      rw [read, Argument.ofString_eq_plain_iff.mpr ⟨rfl, h.1⟩]
      dsimp only
      rw [ih h.2, List.append_assoc, List.singleton_append]

/-- An option takes the next argument for its value, if that is an operand. -/
theorem read_option {flag name value : String} (hflag : Argument.ofString flag = .long name none)
    (hname : name = "root" ∨ name = "output") (a : RefreshArguments) (rest : List String) :
    read a (flag :: value :: rest) =
      if IsOperand value then (a.setOption? name value).bind (read · rest) else none := by
  rw [read, hflag]
  dsimp only
  rw [if_pos hname]
  by_cases hvalue : IsOperand value
  · rw [Argument.ofString_eq_plain_iff.mpr ⟨rfl, hvalue⟩, if_pos hvalue]
    rfl
  · rw [if_neg hvalue]
    split
    · rename_i hplain
      exact absurd (Argument.ofString_eq_plain_iff.mp hplain).2 hvalue
    · rfl

theorem finish_eq_some {root output : String} {patterns : List String}
    (h : a.finish = some (.run (.refresh root output patterns))) :
    a.output = some output ∧ a.patterns = patterns := by
  rw [finish] at h
  obtain ⟨-, -, h⟩ := Option.bind_eq_some_iff.mp h
  obtain ⟨root', -, h⟩ := Option.bind_eq_some_iff.mp h
  obtain ⟨output', houtput, h⟩ := Option.bind_eq_some_iff.mp h
  cases h
  exact ⟨houtput, rfl⟩

/-- How a request follows from what has been read and the arguments left: each of these makes one pattern
at most, and one each only if they all are operands. -/
structure Yields (a : RefreshArguments) (args : List String) (output : String) (patterns : List String) :
    Prop where
  length_le : patterns.length ≤ a.patterns.length + args.length
  operands : patterns.length = a.patterns.length + args.length → ∀ text ∈ args, IsOperand text
  output_ne : a.output ≠ some "" → output ≠ ""

/-- Arguments that add no pattern leave fewer patterns than arguments. -/
theorem Yields.skip {rest : List String} {output : String} {patterns : List String}
    (h : a'.Yields rest output patterns) (hpatterns : a'.patterns = a.patterns)
    (houtput : a.output ≠ some "" → a'.output ≠ some "") (hlt : rest.length < args.length) :
    a.Yields args output patterns := by
  have hle := h.length_le
  rw [hpatterns] at hle
  exact ⟨by omega, fun heq => by omega, h.output_ne ∘ houtput⟩

theorem yields_of_read {root output : String} {patterns : List String}
    (h : read a args = some (.run (.refresh root output patterns))) : a.Yields args output patterns := by
  fun_induction read a args with
  | case1 a =>
      obtain ⟨houtput, rfl⟩ := finish_eq_some h
      exact ⟨Nat.le_add_right _ _, fun _ => List.forall_mem_nil _, fun hne heq => hne (heq ▸ houtput)⟩
  | case2 a text rest hends =>
      obtain ⟨houtput, rfl⟩ := finish_eq_some h
      refine ⟨?_, fun heq => ?_, fun hne heq => hne (heq ▸ houtput)⟩
      · rw [List.length_append, List.length_cons]
        omega
      · rw [List.length_append, List.length_cons] at heq
        omega
  | case3 a text rest pattern hplain ih =>
      obtain ⟨-, hoperand⟩ := Argument.ofString_eq_plain_iff.mp hplain
      obtain ⟨hle, hoperands, houtput⟩ := ih h
      simp only [List.length_append, List.length_singleton] at hle hoperands
      refine ⟨by rw [List.length_cons]; omega, fun heq => ?_, houtput⟩
      rw [List.length_cons] at heq
      exact List.forall_mem_cons.mpr ⟨hoperand, hoperands (by omega)⟩
  -- An option with a value of its own, then one whose value is the next argument.
  | case4 a text name hname value rest hlong ih =>
      obtain ⟨a', hset, h⟩ := Option.bind_eq_some_iff.mp h
      obtain ⟨hpatterns, houtput⟩ := setOption?_eq_some hset
      exact (ih a' h).skip hpatterns houtput (Nat.lt_succ_self _)
  | case5 a text name hname next rest value hplain hlong ih =>
      obtain ⟨a', hset, h⟩ := Option.bind_eq_some_iff.mp h
      obtain ⟨hpatterns, houtput⟩ := setOption?_eq_some hset
      exact (ih a' h).skip hpatterns houtput (Nat.lt_succ_of_lt (Nat.lt_succ_self _))
  | case6 => cases h
  | case7 => cases h
  -- Flags, by their names and by their letters: an answer to them asks for help.
  | case8 a text rest name value hlong hname request hflags =>
      cases h
      cases (answer_of_readFlagArgument hflags).resolve_right nofun
  | case9 a text rest name value hlong hname verbose hflags ih =>
      exact (ih h).skip rfl id (Nat.lt_succ_self _)
  | case10 => cases h
  | case11 a text rest flags hshort request hflags =>
      cases h
      cases (answer_of_readFlags hflags).resolve_right nofun
  | case12 a text rest flags hshort verbose hflags ih => exact (ih h).skip rfl id (Nat.lt_succ_self _)
  | case13 => cases h

end RefreshArguments

theorem output_ne_of_parse {args : List String} {root output : String} {patterns : List String}
    (h : parse (refreshCommand :: args) = some (.run (.refresh root output patterns))) : output ≠ "" := by
  rw [parse, if_pos rfl] at h
  exact (RefreshArguments.yields_of_read h).output_ne nofun

/-- A refreshing command line is understood as it is meant exactly if its texts are operands and the
output has a name. -/
theorem parse_refresh_iff {root output : String} {patterns : List String} (hroot : root ≠ "")
    (hpatterns : patterns ≠ []) :
    parse (refreshCommand :: "--root" :: root :: "--output" :: output :: patterns) =
        some (.run (.refresh root output patterns)) ↔
      IsOperand root ∧ output ≠ "" ∧ IsOperand output ∧ ∀ pattern ∈ patterns, IsOperand pattern := by
  have hrootOption : Argument.ofString "--root" = .long "root" none := by decide
  have houtputOption : Argument.ofString "--output" = .long "output" none := by decide
  constructor
  · intro h
    have houtput := output_ne_of_parse h
    rw [parse, if_pos rfl, RefreshArguments.read_option hrootOption (Or.inl rfl)] at h
    split_ifs at h with hrootOperand
    obtain ⟨a, hset, h⟩ := Option.bind_eq_some_iff.mp h
    rw [RefreshArguments.read_option houtputOption (Or.inr rfl)] at h
    split_ifs at h with houtputOperand
    obtain ⟨a', hset', h⟩ := Option.bind_eq_some_iff.mp h
    have hnone : a'.patterns = [] := by
      rw [(RefreshArguments.setOption?_eq_some hset').1, (RefreshArguments.setOption?_eq_some hset).1]
    refine ⟨hrootOperand, houtput, houtputOperand, (RefreshArguments.yields_of_read h).operands ?_⟩
    rw [hnone, List.length_nil, Nat.zero_add]
  · rintro ⟨hrootOperand, houtput, houtputOperand, hoperands⟩
    have hset : ({} : RefreshArguments).setOption? "root" root = some { root := some root } := by
      rw [RefreshArguments.setOption?, if_neg hroot, if_pos ⟨rfl, rfl⟩]
    have hset' : ({ root := some root } : RefreshArguments).setOption? "output" output =
        some { root := some root, output := some output } := by
      rw [RefreshArguments.setOption?, if_neg houtput, if_neg (by simp), if_pos ⟨rfl, rfl⟩]
    rw [parse, if_pos rfl, RefreshArguments.read_option hrootOption (Or.inl rfl),
      if_pos hrootOperand, hset, Option.bind_some, RefreshArguments.read_option houtputOption (Or.inr rfl),
      if_pos houtputOperand, hset', Option.bind_some, RefreshArguments.read_operands hoperands,
      RefreshArguments.finish, List.nil_append, guard, if_pos hpatterns]
    rfl

/-! ### Generating -/

/-- One operand names the directory to make a build file for, unless it is the name of a subcommand. -/
theorem parse_operand_iff {text path : String} (htext : text ≠ "") (hoperand : IsOperand text) :
    parse [text] = some (.run (.generate path)) ↔
      path = text ∧ text ≠ refreshCommand ∧ text ≠ "help" := by
  rw [parse]
  split_ifs with hrefresh hhelp
  · constructor
    · intro h
      cases h
    · rintro ⟨-, hne, -⟩
      exact absurd hrefresh hne
  · constructor
    · intro h
      cases h
    · rintro ⟨-, -, hne⟩
      exact absurd hhelp hne
  · have hread : GenerateArguments.read {} [text] = some (.run (.generate text)) := by
      rw [GenerateArguments.read, Argument.ofString_eq_plain_iff.mpr ⟨rfl, hoperand⟩]
      simp [GenerateArguments.setPath?, htext, GenerateArguments.read, GenerateArguments.finish]
    rw [hread]
    simp [hrefresh, hhelp, eq_comm]

/-- What looks like an option names no directory. -/
theorem path_of_parse_singleton {text path : String} (htext : ¬ IsOperand text)
    (h : parse [text] = some (.run (.generate path))) : path = "." := by
  have hplain : ∀ value, Argument.ofString text ≠ .plain value :=
    fun value hvalue => htext (Argument.ofString_eq_plain_iff.mp hvalue).2
  rw [parse] at h
  split_ifs at h with hrefresh hhelp
  · cases h
  · cases h
  · rw [GenerateArguments.read] at h
    split at h
    · cases h
      rfl
    · rename_i hvalue
      exact absurd hvalue (hplain _)
    · split at h
      · rename_i hflags
        cases h
        rcases answer_of_readFlagArgument hflags with hanswer | hanswer <;> cases hanswer
      · cases h
        rfl
      · cases h

end CommandLine

end AssetPipeline
