import AssetPipeline.Proofs.Script.Evaluating
import AssetPipeline.Proofs.Script.Handles

/-! The calls in a program. What an argument or an operand has to be holds no handle, and a value without
handles does not come from a call. So calls stand where only lists and receivers lead to, they are made in
the order in which they stand there, and each declares one thing with the text that it is given. -/

namespace AssetPipeline

namespace Script

/-- A call of a function, as it stands in a program. -/
structure Call where
  function : String
  args : List Expr

def Call.verb? (call : Call) : Option Verb :=
  Verb.ofName? call.function

/-- The step gives the same result whatever has been declared, and declares nothing. -/
def Steady {α : Type} (step : Evaluation α) (result : α) : Prop :=
  ∀ d, step d = .ok (result, d)

/-- The text is the one argument of the call. -/
def Call.Gives (bindings : Bindings) (call : Call) (text : String) : Prop :=
  Steady (evalAll bindings call.args) [.string text]

namespace Expr

mutual

/-- The calls in an expression from left to right, those in a receiver first and those in arguments before
what the arguments are for. -/
def calls : Expr → List Call
  | text _ _ => []
  | number _ _ => []
  | boolean _ _ => []
  | reference _ _ => []
  | list _ items => callsOfAll items
  | call _ function args => callsOfAll args ++ [⟨function, args⟩]
  | method _ receiver _ args => receiver.calls ++ callsOfAll args
  | sum _ left right => left.calls ++ right.calls

def callsOfAll : List Expr → List Call
  | [] => []
  | item :: items => item.calls ++ callsOfAll items

end

mutual

/-- No call stands in an argument or in an operand of a sum. -/
def CallsOutside : Expr → Prop
  | text _ _ => True
  | number _ _ => True
  | boolean _ _ => True
  | reference _ _ => True
  | list _ items => AllCallsOutside items
  | call _ _ args => callsOfAll args = []
  | method _ receiver _ args => receiver.CallsOutside ∧ callsOfAll args = []
  | sum _ left right => left.calls = [] ∧ right.calls = []

def AllCallsOutside : List Expr → Prop
  | [] => True
  | item :: items => item.CallsOutside ∧ AllCallsOutside items

end

end Expr

/-- The calls in a program in their order, each with what is bound when its statement is run. -/
def placedCalls (bindings : Bindings) (d : Declarations) : List Stmt → List (Bindings × Call)
  | [] => []
  | stmt :: rest =>
    stmt.value.calls.map (bindings, ·) ++
      match eval bindings stmt.value d with
      | .ok (value, d') => placedCalls (stmt.bindings bindings value) d' rest
      | .error _ => []

/-! ### Values without handles -/

namespace Value

/-- Texts, numbers and booleans can be added, and nothing that holds a handle. -/
theorem handles_of_add_operands {left right value : Value} (h : left.add right = .ok value) :
    left.handles = [] ∧ right.handles = [] := by
  cases left <;> cases right <;> first | exact ⟨rfl, rfl⟩ | cases h

theorem handles_of_scalarText? {value : Value} {text : String} (h : value.scalarText? = some text) :
    value.handles = [] := by
  cases value <;> first | rfl | cases h

end Value

namespace Arguments

variable {function text : String} {value : Value} {args : List Value}

theorem one_eq_ok_iff : one function args = .ok value ↔ args = [value] := by
  constructor
  · intro h
    unfold one at h
    split at h <;> cases h
    rfl
  · rintro rfl
    rfl

theorem string_eq_ok_iff : string function value = .ok text ↔ value = .string text := by
  constructor
  · intro h
    cases value <;> cases h
    rfl
  · rintro rfl
    rfl

theorem oneString_eq_ok_iff : oneString function args = .ok text ↔ args = [.string text] := by
  simp only [oneString, bind_eq_ok_iff, one_eq_ok_iff, string_eq_ok_iff, exists_eq_right]

theorem handlesOfAll_of_oneBoolean {flag : Bool} (h : oneBoolean function args = .ok flag) :
    Value.handlesOfAll args = [] := by
  obtain ⟨value, hone, hflag⟩ := bind_eq_ok_iff.mp h
  rw [one_eq_ok_iff.mp hone]
  cases value <;> cases hflag
  rfl

theorem handlesOfAll_of_strings {texts : List String} (h : strings function args = .ok texts) :
    Value.handlesOfAll args = [] := by
  induction args generalizing texts with
  | nil => rfl
  | cons value values ih =>
      obtain ⟨text, htext, h⟩ := bind_eq_ok_iff.mp h
      obtain ⟨rest, hrest, -⟩ := bind_eq_ok_iff.mp h
      rw [string_eq_ok_iff.mp htext, Value.handlesOfAll, ih hrest]
      rfl

theorem handlesOfAll_of_targets {texts : List String} (h : targets args = .ok texts) :
    Value.handlesOfAll args = [] := by
  obtain ⟨value, hone, h⟩ := bind_eq_ok_iff.mp h
  rw [one_eq_ok_iff.mp hone, Value.handlesOfAll, Value.handlesOfAll, List.append_nil]
  cases value with
  | string text => rfl
  | list items => exact handlesOfAll_of_strings h
  | _ => cases h

theorem handlesOfAll_of_assignment {entry : String × String} (h : assignment args = .ok entry) :
    Value.handlesOfAll args = [] := by
  unfold assignment at h
  split at h
  · rename_i key value
    obtain ⟨text, htext, h⟩ := bind_eq_ok_iff.mp h
    have hvalue : value.handles = [] := by
      split at h
      · rename_i hscalar
        exact Value.handles_of_scalarText? hscalar
      · cases h
    rw [string_eq_ok_iff.mp htext, Value.handlesOfAll, Value.handlesOfAll, hvalue]
    rfl
  · cases h

end Arguments

end Script

open Script (Value Arguments.handlesOfAll_of_oneBoolean Arguments.handlesOfAll_of_targets
  Arguments.handlesOfAll_of_assignment Arguments.oneString_eq_ok_iff)

theorem RuleDecl.handlesOfAll_of_call {r r' : RuleDecl} {method : String} {args : List Value}
    (h : r.call method args = .ok r') : Value.handlesOfAll args = [] := by
  unfold RuleDecl.call at h
  split at h
  · obtain ⟨command, hcommand, -⟩ := bind_eq_ok_iff.mp h
    rw [Arguments.oneString_eq_ok_iff.mp hcommand]
    rfl
  · cases h

theorem Single.handlesOfAll_of_call {s s' : Single} {method : String} {args : List Value}
    (h : s.call method args = .ok s') : Value.handlesOfAll args = [] := by
  unfold Single.call at h
  split at h
  case h_1 =>
    obtain ⟨flag, hflag, -⟩ := bind_eq_ok_iff.mp h
    exact Arguments.handlesOfAll_of_oneBoolean hflag
  case h_4 =>
    obtain ⟨entry, hentry, -⟩ := bind_eq_ok_iff.mp h
    exact Arguments.handlesOfAll_of_assignment hentry
  case h_6 => cases h
  all_goals
    obtain ⟨text, htext, -⟩ := bind_eq_ok_iff.mp h
    rw [Arguments.oneString_eq_ok_iff.mp htext]
    rfl

theorem Bundle.handlesOfAll_of_call {b b' : Bundle} {method : String} {args : List Value}
    (h : b.call method args = .ok b') : Value.handlesOfAll args = [] := by
  unfold Bundle.call at h
  split at h
  case h_1 =>
    obtain ⟨flag, hflag, -⟩ := bind_eq_ok_iff.mp h
    exact Arguments.handlesOfAll_of_oneBoolean hflag
  case h_2 =>
    obtain ⟨texts, htexts, -⟩ := bind_eq_ok_iff.mp h
    exact Arguments.handlesOfAll_of_targets htexts
  case h_3 =>
    obtain ⟨entry, hentry, -⟩ := bind_eq_ok_iff.mp h
    exact Arguments.handlesOfAll_of_assignment hentry
  case h_4 =>
    obtain ⟨text, htext, -⟩ := bind_eq_ok_iff.mp h
    rw [Arguments.oneString_eq_ok_iff.mp htext]
    rfl
  case h_5 => cases h

/-- No method takes an argument that holds a handle. -/
theorem Declared.handlesOfAll_of_call {x x' : Declared} {method : String} {args : List Value}
    (h : x.call method args = .ok x') : Value.handlesOfAll args = [] := by
  cases x with
  | rule r =>
      obtain ⟨r', hr, -⟩ := map_eq_ok_iff.mp h
      exact RuleDecl.handlesOfAll_of_call hr
  | single s =>
      obtain ⟨s', hs, -⟩ := map_eq_ok_iff.mp h
      exact Single.handlesOfAll_of_call hs
  | bundle b =>
      obtain ⟨b', hb, -⟩ := map_eq_ok_iff.mp h
      exact Bundle.handlesOfAll_of_call hb

namespace Script

theorem callMethod_receiver {receiver value : Value} {method : String} {args : List Value}
    {d d' : Declarations} (h : callMethod receiver method args d = .ok (value, d')) :
    value = receiver ∧ ∃ handle, receiver.handle? = some handle := by
  cases hhandle : receiver.handle? with
  | none =>
      rw [callMethod_of_handle?_eq_none hhandle] at h
      cases h
  | some handle =>
      refine ⟨?_, handle, rfl⟩
      cases receiver <;> cases hhandle <;>
        (obtain ⟨items, -, h⟩ := bind_eq_ok_iff.mp h; cases h; rfl)

theorem Steady.eq_of_ok {α : Type} {step : Evaluation α} {result result' : α} {d d' : Declarations}
    (h : Steady step result) (h' : step d = .ok (result', d')) : d' = d := by
  rw [h d] at h'
  cases h'
  rfl

mutual

/-- A value without handles does not come from a call. -/
theorem steady_of_eval (bindings : Bindings) {d d' : Declarations} {value : Value} (e : Expr)
    (h : eval bindings e d = .ok (value, d')) (hvalue : value.handles = []) :
    e.calls = [] ∧ Steady (eval bindings e) value := by
  match e with
  | .text _ _ | .number _ _ | .boolean _ _ =>
      cases h
      exact ⟨rfl, fun _ => rfl⟩
  | .reference _ name =>
      obtain ⟨hfind, -⟩ := atOffset_eq_ok_iff.mp h
      exact ⟨rfl, fun d => atOffset_eq_ok_iff.mpr ⟨hfind, rfl⟩⟩
  | .list _ items =>
      obtain ⟨values, hitems, rfl⟩ := eval_list_eq_ok_iff.mp h
      obtain ⟨hcalls, heval⟩ := steady_of_evalAll bindings items hitems hvalue
      exact ⟨hcalls, fun d => eval_list_eq_ok_iff.mpr ⟨values, heval d, rfl⟩⟩
  | .sum _ left right =>
      obtain ⟨a, d₁, b, ha, hb, hadd⟩ := eval_sum_eq_ok_iff.mp h
      obtain ⟨hleft, hright⟩ := Value.handles_of_add_operands hadd
      obtain ⟨hcalls, heval⟩ := steady_of_eval bindings left ha hleft
      obtain ⟨hcalls', heval'⟩ := steady_of_eval bindings right hb hright
      refine ⟨by rw [Expr.calls, hcalls, hcalls', List.append_nil], fun d => ?_⟩
      exact eval_sum_eq_ok_iff.mpr ⟨a, d, b, heval d, heval' d, hadd⟩
  | .call _ function args =>
      obtain ⟨verb, values, d₁, text, -, -, -, hdeclare⟩ := eval_call_eq_ok_iff.mp h
      obtain ⟨handle, hhandle, heq⟩ := Declarations.declare_eq verb text d₁
      rw [heq] at hdeclare
      cases hdeclare
      rw [Value.handles_of_handle? hhandle] at hvalue
      cases hvalue
  | .method _ receiver name args =>
      obtain ⟨target, d₁, values, d₂, -, -, hcall⟩ := eval_method_eq_ok_iff.mp h
      obtain ⟨rfl, handle, hhandle⟩ := callMethod_receiver hcall
      rw [Value.handles_of_handle? hhandle] at hvalue
      cases hvalue

theorem steady_of_evalAll (bindings : Bindings) {d d' : Declarations} {values : List Value}
    (items : List Expr) (h : evalAll bindings items d = .ok (values, d'))
    (hvalues : Value.handlesOfAll values = []) :
    Expr.callsOfAll items = [] ∧ Steady (evalAll bindings items) values := by
  match items with
  | [] =>
      cases h
      exact ⟨rfl, fun _ => rfl⟩
  | item :: items =>
      obtain ⟨value, d₁, rest, hitem, hrest, rfl⟩ := evalAll_cons_eq_ok_iff.mp h
      obtain ⟨hvalue, hvalues⟩ := List.append_eq_nil_iff.mp hvalues
      obtain ⟨hcalls, heval⟩ := steady_of_eval bindings item hitem hvalue
      obtain ⟨hcalls', heval'⟩ := steady_of_evalAll bindings items hrest hvalues
      refine ⟨by rw [Expr.callsOfAll, hcalls, hcalls', List.append_nil], fun d => ?_⟩
      exact evalAll_cons_eq_ok_iff.mpr ⟨value, d, rest, heval d, heval' d, rfl⟩

end

/-! ### What calls declare -/

/-- Each of the calls, in their order, has declared one thing, with the text that it is given; nothing else
has been declared between `d` and `d'`. -/
structure Declares (d : Declarations) (placed : List (Bindings × Call)) (d' : Declarations) : Prop where
  verb_known : ∀ p ∈ placed, ∃ verb, p.2.verb? = some verb
  texts : ∀ verb, ∃ texts, d'.texts verb = d.texts verb ++ texts ∧
    List.Forall₂ (fun p text => p.2.Gives p.1 text) (placed.filter (·.2.verb? = some verb)) texts

namespace Declares

variable {d d' d'' : Declarations} {placed placed' : List (Bindings × Call)}

theorem of_texts_eq (h : d'.texts = d.texts) : Declares d [] d' :=
  ⟨nofun, fun verb => ⟨[], by rw [h, List.append_nil], .nil⟩⟩

theorem trans (h : Declares d placed d') (h' : Declares d' placed' d'') :
    Declares d (placed ++ placed') d'' := by
  refine ⟨fun p hp => (List.mem_append.mp hp).elim (h.verb_known p) (h'.verb_known p), fun verb => ?_⟩
  obtain ⟨texts, htexts, hgives⟩ := h.texts verb
  obtain ⟨texts', htexts', hgives'⟩ := h'.texts verb
  refine ⟨texts ++ texts', by rw [htexts', htexts, List.append_assoc], ?_⟩
  rw [List.filter_append]
  exact List.rel_append hgives hgives'

theorem growsTo (h : Declares d placed d') : d.GrowsTo d' := by
  intro verb
  obtain ⟨texts, htexts, -⟩ := h.texts verb
  exact ⟨texts, htexts.symm⟩

theorem add {bindings : Bindings} (call : Call) {verb : Verb} {text : String}
    (hverb : call.verb? = some verb) (hgives : call.Gives bindings text) (d : Declarations) :
    Declares d [(bindings, call)] (d.add (.fresh text verb)) := by
  refine ⟨fun p hp => ⟨verb, List.mem_singleton.mp hp ▸ hverb⟩, fun other => ?_⟩
  rw [Declarations.texts_add, Declared.verb_fresh, Declared.text_fresh]
  by_cases hother : other = verb
  · subst hother
    exact ⟨[text], by rw [if_pos rfl], by simpa [hverb] using hgives⟩
  · exact ⟨[], by rw [if_neg hother, List.append_nil], by simp [hverb, Ne.symm hother]⟩

end Declares

mutual

theorem declares_eval (bindings : Bindings) {d d' : Declarations} {value : Value} (e : Expr)
    (hbindings : d.Holds bindings.handles) (h : eval bindings e d = .ok (value, d')) :
    Declares d (e.calls.map (bindings, ·)) d' ∧ d'.Holds value.handles ∧ e.CallsOutside := by
  match e with
  | .text _ _ | .number _ _ | .boolean _ _ =>
      cases h
      exact ⟨.of_texts_eq rfl, nofun, trivial⟩
  | .reference _ name =>
      obtain ⟨hfind, rfl⟩ := atOffset_eq_ok_iff.mp h
      have hvalue : d'.Holds value.handles := fun handle hmem =>
        hbindings handle (Bindings.handles_subset hfind hmem)
      exact ⟨.of_texts_eq rfl, hvalue, trivial⟩
  | .list _ items =>
      obtain ⟨values, hitems, rfl⟩ := eval_list_eq_ok_iff.mp h
      exact declares_evalAll bindings items hbindings hitems
  | .sum _ left right =>
      obtain ⟨a, d₁, b, ha, hb, hadd⟩ := eval_sum_eq_ok_iff.mp h
      obtain ⟨hleft, hright⟩ := Value.handles_of_add_operands hadd
      obtain ⟨hcalls, hsteady⟩ := steady_of_eval bindings left ha hleft
      obtain ⟨hcalls', hsteady'⟩ := steady_of_eval bindings right hb hright
      obtain rfl := hsteady.eq_of_ok ha
      obtain rfl := hsteady'.eq_of_ok hb
      rw [Expr.calls, hcalls, hcalls', Value.handles_of_add hadd]
      exact ⟨.of_texts_eq rfl, nofun, hcalls, hcalls'⟩
  | .call _ function args =>
      obtain ⟨verb, values, d₁, text, hverb, hargs, htext, hdeclare⟩ := eval_call_eq_ok_iff.mp h
      obtain rfl := Arguments.oneString_eq_ok_iff.mp htext
      obtain ⟨hcalls, hsteady⟩ := steady_of_evalAll bindings args hargs rfl
      obtain rfl := hsteady.eq_of_ok hargs
      obtain ⟨handle, hhandle, heq⟩ := Declarations.declare_eq verb text d₁
      rw [heq] at hdeclare
      cases hdeclare
      have hdeclares := Declares.add ⟨function, args⟩ hverb hsteady d₁
      rw [Expr.calls, hcalls]
      refine ⟨hdeclares, fun other hmem => ?_, hcalls⟩
      rw [Value.handles_of_handle? hhandle, List.mem_singleton] at hmem
      rw [hmem]
      exact Declarations.lt_count_add_fresh verb text d₁
  | .method _ receiver name args =>
      obtain ⟨target, d₁, values, d₂, htarget, hargs, hcall⟩ := eval_method_eq_ok_iff.mp h
      obtain ⟨rfl, handle, hhandle⟩ := callMethod_receiver hcall
      obtain ⟨hdeclares, hheld, houtside⟩ := declares_eval bindings receiver hbindings htarget
      -- The arguments are only looked at where the receiver names something, so it has to be in range.
      have hgrows := hdeclares.growsTo
      have hgrows' := (declares_evalAll bindings args (hgrows.holds hbindings) hargs).1.growsTo
      have hheld' := hgrows'.holds hheld
      rw [Value.handles_of_handle? hhandle] at hheld'
      obtain ⟨x, hx⟩ := Declarations.exists_at? (hheld' handle List.mem_cons_self)
      rw [callMethod_of_at? hhandle hx, map_eq_ok_iff] at hcall
      obtain ⟨x', hx', hput⟩ := hcall
      cases hput
      obtain ⟨hcalls, hsteady⟩ :=
        steady_of_evalAll bindings args hargs (Declared.handlesOfAll_of_call hx')
      obtain rfl := hsteady.eq_of_ok hargs
      obtain ⟨hverb, htext⟩ := Declared.call_keeps hx'
      rw [Expr.calls, hcalls, List.append_nil]
      refine ⟨?_, (Declarations.growsTo_put hx hx').holds hheld, houtside, hcalls⟩
      rw [← List.append_nil (receiver.calls.map _)]
      exact hdeclares.trans (.of_texts_eq (Declarations.texts_put hx hverb htext))

theorem declares_evalAll (bindings : Bindings) {d d' : Declarations} {values : List Value}
    (items : List Expr) (hbindings : d.Holds bindings.handles)
    (h : evalAll bindings items d = .ok (values, d')) :
    Declares d ((Expr.callsOfAll items).map (bindings, ·)) d' ∧ d'.Holds (Value.handlesOfAll values) ∧
      Expr.AllCallsOutside items := by
  match items with
  | [] =>
      cases h
      exact ⟨.of_texts_eq rfl, nofun, trivial⟩
  | item :: items =>
      obtain ⟨value, d₁, rest, hitem, hrest, rfl⟩ := evalAll_cons_eq_ok_iff.mp h
      obtain ⟨hdeclares, hvalue, houtside⟩ := declares_eval bindings item hbindings hitem
      obtain ⟨hdeclares', hvalues, houtside'⟩ :=
        declares_evalAll bindings items (hdeclares.growsTo.holds hbindings) hrest
      rw [Expr.callsOfAll, List.map_append]
      refine ⟨hdeclares.trans hdeclares', fun handle hmem => ?_, houtside, houtside'⟩
      exact (List.mem_append.mp hmem).elim (hdeclares'.growsTo.holds hvalue handle) (hvalues handle)

end

/-- A run declares what its calls declare, in their order, and it makes all calls of the program. -/
theorem declares_run {bindings : Bindings} {d d' : Declarations} {program : List Stmt}
    (hbindings : d.Holds bindings.handles) (h : run bindings program d = .ok ((), d')) :
    Declares d (placedCalls bindings d program) d' ∧
      (placedCalls bindings d program).map (·.2) = program.flatMap (·.value.calls) ∧
      ∀ stmt ∈ program, stmt.value.CallsOutside := by
  induction program generalizing bindings d with
  | nil =>
      cases h
      exact ⟨.of_texts_eq rfl, rfl, nofun⟩
  | cons stmt rest ih =>
      obtain ⟨value, d₁, heval, hrest⟩ := run_cons_eq_ok_iff.mp h
      obtain ⟨hdeclares, hvalue, houtside⟩ := declares_eval bindings stmt.value hbindings heval
      have hheld := hdeclares.growsTo.holds hbindings
      have hbound : d₁.Holds (stmt.bindings bindings value).handles := by
        cases stmt with
        | bind name e =>
            exact fun handle hmem => (List.mem_append.mp hmem).elim (hvalue handle) (hheld handle)
        | expr e => exact hheld
      obtain ⟨hdeclares', hcalls, houtsideAll⟩ := ih hbound hrest
      have hplaced : placedCalls bindings d (stmt :: rest) = stmt.value.calls.map (bindings, ·) ++
          placedCalls (stmt.bindings bindings value) d₁ rest := by
        rw [placedCalls, heval]
      rw [hplaced]
      refine ⟨hdeclares.trans hdeclares', ?_, List.forall_mem_cons.mpr ⟨houtside, houtsideAll⟩⟩
      rw [List.map_append, hcalls, List.flatMap_cons, List.map_map]
      exact congrArg (· ++ _) (List.map_id _)

/-- In a program that succeeds each call is one of a verb, and none stands in an argument or in an operand
of a sum. Of each verb there are as many declarations as calls, and they have been made with the texts
that the calls are given, in the order in which the calls stand in the program. -/
theorem declarations_calls {program : List Stmt} {declared : Declarations}
    (h : declarations program = .ok declared) :
    (placedCalls [] {} program).map (·.2) = program.flatMap (·.value.calls) ∧
      (∀ call ∈ program.flatMap (·.value.calls), ∃ verb, call.verb? = some verb) ∧
      (∀ stmt ∈ program, stmt.value.CallsOutside) ∧
      ∀ verb,
        declared.count verb = (program.flatMap (·.value.calls)).countP (·.verb? = some verb) ∧
        List.Forall₂ (fun placed text => placed.2.Gives placed.1 text)
          ((placedCalls [] {} program).filter (·.2.verb? = some verb)) (declared.texts verb) := by
  obtain ⟨⟨⟨⟩, d'⟩, hrun, hresult⟩ := bind_eq_ok_iff.mp h
  obtain rfl : d' = declared := Except.ok.inj hresult
  have hempty : ({} : Declarations).Holds (Bindings.handles []) := nofun
  obtain ⟨hdeclares, hcalls, houtside⟩ := declares_run hempty hrun
  have hgives : ∀ verb, List.Forall₂ (fun placed text => placed.2.Gives placed.1 text)
      ((placedCalls [] {} program).filter (·.2.verb? = some verb)) (d'.texts verb) := by
    intro verb
    obtain ⟨texts, htexts, hgives⟩ := hdeclares.texts verb
    have hnone : ({} : Declarations).texts verb = [] := by cases verb <;> rfl
    rw [hnone, List.nil_append] at htexts
    exact htexts ▸ hgives
  refine ⟨hcalls, fun call hcall => ?_, houtside, fun verb => ⟨?_, hgives verb⟩⟩
  · rw [← hcalls] at hcall
    obtain ⟨p, hp, rfl⟩ := List.mem_map.mp hcall
    exact hdeclares.verb_known p hp
  · rw [Declarations.count_eq_length_texts, ← (hgives verb).length_eq, ← hcalls, List.countP_map,
      List.countP_eq_length_filter]
    rfl

/-- Two builders in a list before the rule that one of them uses. -/
def listedProgram : List Stmt :=
  [.bind "name" (.text 0 "shrink"),
   .expr (.list 1
     [.method 2 (.call 2 "single" [.text 3 "*.png"]) "using" [.reference 4 "name"],
      .call 5 "single" [.text 6 "*.jpg"]]),
   .expr (.method 7 (.call 7 "rule" [.reference 8 "name"]) "command" [.text 9 "tool"])]

def listedDeclarations : Declarations where
  rules := [{ name := "shrink", command := some "tool" }]
  singles := [{ pattern := "*.png", rule := some "shrink" }, { pattern := "*.jpg" }]

theorem declarations_calls_listed :
    declarations listedProgram = .ok listedDeclarations ∧
      listedDeclarations.count .single = (listedProgram.flatMap (·.value.calls)).countP
        (·.verb? = some .single) ∧
      List.Forall₂ (fun placed text => placed.2.Gives placed.1 text)
        ((placedCalls [] {} listedProgram).filter (·.2.verb? = some .single)) ["*.png", "*.jpg"] := by
  have hprogram : declarations listedProgram = .ok listedDeclarations := rfl
  obtain ⟨-, -, -, hverbs⟩ := declarations_calls hprogram
  exact ⟨hprogram, hverbs .single⟩

end Script

end AssetPipeline
