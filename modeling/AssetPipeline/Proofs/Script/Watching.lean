import AssetPipeline.Proofs.Script.Handles

/-! A run under watch. The watched interpreter does what the interpreter does, notes each value and each
method call, and looks a handle up before it is used, so that one out of range would be seen. -/

namespace AssetPipeline.Script

/-- What is noted of a run: that an expression has a value, and that a declaration has taken a method
call. -/
inductive Event where
  | value (value : Value)
  | call (handle : Handle) (method : String) (args : List Value)

/-- An event, with what is bound and declared then. -/
structure Moment where
  bindings : Bindings
  declared : Declarations
  event : Event

/-- The declarations so far, and the moments so far in their order. -/
structure Watch where
  declared : Declarations := {}
  moments : List Moment := []

/-- What ends a watched run: a fault of the program, or a handle that names nothing. -/
inductive Stop where
  | fault (fault : Fault)
  | outOfRange

abbrev Watched := EStateM Stop Watch

namespace Watched

def atOffset {α : Type} (offset : Nat) (step : Except Problem α) : Watched α :=
  match step with
  | .ok value => pure value
  | .error problem => throw (.fault ⟨offset, problem⟩)

def note (bindings : Bindings) (event : Event) : Watched Unit :=
  modify fun w => { w with moments := w.moments ++ [⟨bindings, w.declared, event⟩] }

/-- The value of an expression, noted. -/
def yield (bindings : Bindings) (value : Value) : Watched Value := do
  note bindings (.value value)
  return value

def declare (verb : Verb) (text : String) : Watched Value := do
  let (handle, declared) := verb.declare text (← get).declared
  modify ({ · with declared := declared })
  return handle

/-- A method call on what the receiver names. -/
def callMethod (bindings : Bindings) (offset : Nat) (receiver : Value) (method : String)
    (args : List Value) : Watched Value :=
  match receiver.handle? with
  | none => throw (.fault ⟨offset, .noMethods receiver.type method⟩)
  | some handle => do
    match (← get).declared.at? handle with
    | none => throw .outOfRange
    | some x =>
      let x ← atOffset offset (x.call method args)
      modify fun w => { w with declared := w.declared.put handle.index x }
      note bindings (.call handle method args)
      return receiver

mutual

def eval (bindings : Bindings) : Expr → Watched Value
  | .text _ value => yield bindings (.string value)
  | .number _ value => yield bindings (.number value)
  | .boolean _ value => yield bindings (.boolean value)
  | .reference offset name => do yield bindings (← atOffset offset (bindings.find name))
  | .list _ items => do yield bindings (.list (← evalAll bindings items))
  | .sum offset left right => do
    let left ← eval bindings left
    let right ← eval bindings right
    yield bindings (← atOffset offset (left.add right))
  | .call offset function args =>
    match Verb.ofName? function with
    | none => throw (.fault ⟨offset, .unknownFunction function⟩)
    | some verb => do
      let args ← evalAll bindings args
      let text ← atOffset offset (Arguments.oneString function args)
      yield bindings (← declare verb text)
  | .method offset receiver name args => do
    let receiver ← eval bindings receiver
    let args ← evalAll bindings args
    yield bindings (← callMethod bindings offset receiver name args)

def evalAll (bindings : Bindings) : List Expr → Watched (List Value)
  | [] => pure []
  | item :: items => return (← eval bindings item) :: (← evalAll bindings items)

end

def run (bindings : Bindings) : List Stmt → Watched Unit
  | [] => pure ()
  | .bind name value :: rest => do
    let value ← eval bindings value
    run ((name, value) :: bindings) rest
  | .expr value :: rest => do
    let _ ← eval bindings value
    run bindings rest

end Watched

/-- A watched program: what it declares, or what ended the run, and all moments until then. -/
def observe (program : List Stmt) : Except Stop Declarations × List Moment :=
  match Watched.run [] program {} with
  | .ok _ w => (.ok w.declared, w.moments)
  | .error stop w => (.error stop, w.moments)

/-! ### What the notes say -/

def Event.handles : Event → List Handle
  | value found => found.handles
  | call handle _ args => handle :: Value.handlesOfAll args

/-- All handles about: in bindings, in lists, in the value or the call. -/
def Moment.handles (m : Moment) : List Handle :=
  m.bindings.handles ++ m.event.handles

/-- The method call, with its arguments, if it is one on the given handle. -/
def Event.callOn? (handle : Handle) : Event → Option (String × List Value)
  | value _ => none
  | call receiver method args => if receiver = handle then some (method, args) else none

/-- The method calls on a handle, in their order. -/
def callsOn (handle : Handle) (moments : List Moment) : List (String × List Value) :=
  moments.filterMap (·.event.callOn? handle)

/-- A fresh declaration with the text of `x`, and on it the calls that were made on `handle`. -/
def rebuilt (handle : Handle) (x : Declared) (moments : List Moment) : Except Problem Declared :=
  (callsOn handle moments).foldlM (fun x call => x.call call.1 call.2) (.fresh x.text handle.verb)

/-- Whatever has been noted, handles named something then and name the same thing now, and all that is
declared is as the calls on its handle have made it. -/
structure Watch.Sound (w : Watch) : Prop where
  inRange : ∀ m ∈ w.moments, m.declared.Holds m.handles
  ordered : w.moments.Pairwise fun m m' => m.declared.GrowsTo m'.declared
  current : ∀ m ∈ w.moments, m.declared.GrowsTo w.declared
  filled : ∀ handle x, w.declared.at? handle = some x → rebuilt handle x w.moments = .ok x

namespace Watch

variable {w w' : Watch} {bindings : Bindings} {handle : Handle}

theorem sound_empty : Sound {} where
  inRange := nofun
  ordered := .nil
  current := nofun
  filled handle x h := by
    obtain ⟨verb, index⟩ := handle
    cases verb <;> cases h

/-- Calls have only been made on what is declared. -/
theorem Sound.callsOn_eq_nil (hw : w.Sound) (h : w.declared.count handle.verb ≤ handle.index) :
    callsOn handle w.moments = [] := by
  rw [callsOn, List.filterMap_eq_nil_iff]
  intro m hm
  cases hevent : m.event with
  | value found => rfl
  | call receiver method args =>
      rw [Event.callOn?, if_neg]
      rintro rfl
      have hmem : receiver ∈ m.handles := by
        rw [Moment.handles, hevent, Event.handles]
        exact List.mem_append_right _ List.mem_cons_self
      have hlt := (hw.current m hm).holds (hw.inRange m hm) receiver hmem
      exact absurd hlt (Nat.not_lt.mpr h)

/-- A moment is noted, with declarations that grow from the ones before. -/
theorem Sound.note (hw : w.Sound) {declared : Declarations} {event : Event}
    (hgrows : w.declared.GrowsTo declared) (hbindings : declared.Holds bindings.handles)
    (hevent : declared.Holds event.handles)
    (hfilled : ∀ handle x, declared.at? handle = some x →
      rebuilt handle x (w.moments ++ [⟨bindings, declared, event⟩]) = .ok x) :
    Sound ⟨declared, w.moments ++ [⟨bindings, declared, event⟩]⟩ := by
  have hcurrent : ∀ m ∈ w.moments, m.declared.GrowsTo declared := fun m hm =>
    (hw.current m hm).trans hgrows
  refine ⟨fun m hm => ?_, ?_, fun m hm => ?_, hfilled⟩
  · rcases List.mem_append.mp hm with hm | hm
    · exact hw.inRange m hm
    · cases List.mem_singleton.mp hm
      intro handle hmem
      exact (List.mem_append.mp hmem).elim (hbindings handle) (hevent handle)
  · refine List.pairwise_append.mpr ⟨hw.ordered, List.pairwise_singleton _ _, fun m hm m' hm' => ?_⟩
    cases List.mem_singleton.mp hm'
    exact hcurrent m hm
  · rcases List.mem_append.mp hm with hm | hm
    · exact hcurrent m hm
    · cases List.mem_singleton.mp hm
      exact .refl _

theorem Sound.note_value (hw : w.Sound) (hbindings : w.declared.Holds bindings.handles) {found : Value}
    (hfound : w.declared.Holds found.handles) :
    Sound { w with moments := w.moments ++ [⟨bindings, w.declared, .value found⟩] } := by
  refine hw.note (.refl _) hbindings hfound fun handle x hx => ?_
  have hcalls : callsOn handle (w.moments ++ [⟨bindings, w.declared, .value found⟩]) =
      callsOn handle w.moments := by
    rw [callsOn, List.filterMap_append]
    exact List.append_nil _
  rw [rebuilt, hcalls]
  exact hw.filled handle x hx

/-- A call changes what it is made on and nothing else. -/
theorem Sound.note_call (hw : w.Sound) (hbindings : w.declared.Holds bindings.handles)
    {args : List Value} (hargs : w.declared.Holds (Value.handlesOfAll args)) {x x' : Declared}
    (hx : w.declared.at? handle = some x) {method : String} (hcall : x.call method args = .ok x') :
    Sound ⟨w.declared.put handle.index x',
      w.moments ++ [⟨bindings, w.declared.put handle.index x', .call handle method args⟩]⟩ := by
  obtain ⟨hverb, htext⟩ := Declared.call_keeps hcall
  have hgrows := Declarations.growsTo_put hx hcall
  have hevent : w.declared.Holds (handle :: Value.handlesOfAll args) :=
    List.forall_mem_cons.mpr ⟨Declarations.lt_count_of_at? hx, hargs⟩
  refine hw.note hgrows (hgrows.holds hbindings) (hgrows.holds hevent) fun other y hy => ?_
  rw [Declarations.at?_put hx hverb] at hy
  rw [rebuilt, callsOn, List.filterMap_append, List.foldlM_append]
  split_ifs at hy with hsame
  · cases hy
    rw [hsame, htext]
    refine bind_eq_ok_iff.mpr ⟨x, hw.filled handle x hx, ?_⟩
    simp [Event.callOn?, hcall]
  · refine bind_eq_ok_iff.mpr ⟨y, hw.filled other y hy, ?_⟩
    simp [Event.callOn?, Ne.symm hsame, pure, Except.pure]

theorem Sound.declare (hw : w.Sound) (verb : Verb) (text : String) :
    Sound { w with declared := w.declared.add (.fresh text verb) } := by
  have hgrows := w.declared.growsTo_add (.fresh text verb)
  refine ⟨hw.inRange, hw.ordered, fun m hm => (hw.current m hm).trans hgrows, fun handle x hx => ?_⟩
  rw [Declarations.at?_add] at hx
  split_ifs at hx with hlast
  · cases hx
    rw [Declared.verb_fresh] at hlast
    subst hlast
    rw [rebuilt, hw.callsOn_eq_nil (Nat.le_refl _), Declared.text_fresh]
    rfl
  · exact hw.filled handle x hx

end Watch

/-! ### Steps -/

/-- A watched step ends as the step does, never out of range, and with a sound watch. What it gives has
the property `P` of what is declared then. -/
inductive Follows {α : Type} (step : Evaluation α) (watched : Watched α) (P : Declarations → α → Prop)
    (w : Watch) : Prop
  | ok (result : α) (w' : Watch) (hwatched : watched w = .ok result w')
      (hstep : step w.declared = .ok (result, w'.declared)) (hsound : w'.Sound)
      (hgrows : w.declared.GrowsTo w'.declared) (hresult : P w'.declared result)
  | fault (fault : Fault) (w' : Watch) (hwatched : watched w = .error (.fault fault) w')
      (hstep : step w.declared = .error fault) (hsound : w'.Sound)

/-- A method call under watch, on what there is. -/
theorem Watched.callMethod_of_at? {receiver : Value} {handle : Handle} {w : Watch} {x : Declared}
    (hhandle : receiver.handle? = some handle) (hx : w.declared.at? handle = some x)
    (bindings : Bindings) (offset : Nat) (method : String) (args : List Value) :
    callMethod bindings offset receiver method args w =
      (do
        let x ← atOffset offset (x.call method args)
        modify fun w => { w with declared := w.declared.put handle.index x }
        note bindings (.call handle method args)
        return receiver : Watched Value) w := by
  rw [callMethod, hhandle]
  change EStateM.bind _ _ w = _
  rw [EStateM.bind]
  dsimp only [get, getThe, MonadStateOf.get, EStateM.get]
  rw [hx]

/-- A method call as the interpreter makes it. -/
theorem callMethod_step (offset : Nat) (receiver : Value) (method : String) (args : List Value)
    (d : Declarations) :
    (do
      let (value, declared) ← atOffset offset (callMethod receiver method args (← get))
      set declared
      return value : Evaluation Value) d =
      (callMethod receiver method args d).mapError (Fault.mk offset) := by
  change StateT.run (_ >>= _) d = _
  rw [StateT.run_bind, StateT.run_get, pure_bind, StateT.run_bind]
  cases callMethod receiver method args d <;> rfl

namespace Follows

variable {α β : Type} {step : Evaluation α} {watched : Watched α} {P : Declarations → α → Prop}
  {w : Watch} {bindings : Bindings}

theorem bind {next : α → Evaluation β} {watchedNext : α → Watched β} {Q : Declarations → β → Prop}
    (h : Follows step watched P w)
    (hnext : ∀ result w', w'.Sound → w.declared.GrowsTo w'.declared → P w'.declared result →
      Follows (next result) (watchedNext result) Q w') :
    Follows (step >>= next) (watched >>= watchedNext) Q w := by
  cases h with
  | ok result w' hwatched hstep hsound hgrows hresult =>
      have hstepped : (step >>= next) w.declared = next result w'.declared := by
        change (step w.declared >>= _) = _
        rw [hstep]
        rfl
      have hwatchedStepped : (watched >>= watchedNext) w = watchedNext result w' := by
        change EStateM.bind watched watchedNext w = _
        rw [EStateM.bind, hwatched]
      cases hnext result w' hsound hgrows hresult with
      | ok result' w'' hwatched' hstep' hsound' hgrows' hresult' =>
          exact .ok result' w'' (hwatchedStepped.trans hwatched') (hstepped.trans hstep') hsound'
            (hgrows.trans hgrows') hresult'
      | fault fault w'' hwatched' hstep' hsound' =>
          exact .fault fault w'' (hwatchedStepped.trans hwatched') (hstepped.trans hstep') hsound'
  | fault fault w' hwatched hstep hsound =>
      refine .fault fault w' ?_ ?_ hsound
      · change EStateM.bind watched watchedNext w = _
        rw [EStateM.bind, hwatched]
      · change (step w.declared >>= _) = _
        rw [hstep]
        rfl

theorem pure (hw : w.Sound) {result : α} (hresult : P w.declared result) :
    Follows (pure result) (pure result) P w :=
  .ok result w rfl rfl hw (.refl _) hresult

theorem atOffset (hw : w.Sound) (offset : Nat) {step : Except Problem α}
    (hstep : ∀ result, step = .ok result → P w.declared result) :
    Follows (Script.atOffset offset step) (Watched.atOffset offset step) P w := by
  cases hresult : step with
  | ok result => exact .pure hw (hstep result hresult)
  | error problem => exact .fault ⟨offset, problem⟩ w rfl rfl hw

/-- What is noted makes no difference to a value. -/
theorem yield (hw : w.Sound) (hbindings : w.declared.Holds bindings.handles) {found : Value}
    (hfound : w.declared.Holds found.handles) :
    Follows (Pure.pure found) (Watched.yield bindings found) (fun d value => d.Holds value.handles) w :=
  .ok found _ rfl rfl (hw.note_value hbindings hfound) (.refl _) hfound

theorem noted {step : Evaluation Value} {watched : Watched Value}
    (h : Follows step watched (fun d value => d.Holds value.handles) w)
    (hbindings : w.declared.Holds bindings.handles) :
    Follows step (do Watched.yield bindings (← watched)) (fun d value => d.Holds value.handles) w := by
  have hyield := h.bind fun value w' hw' hgrows hvalue =>
    Follows.yield hw' (hgrows.holds hbindings) hvalue
  rwa [bind_pure] at hyield

theorem declare (hw : w.Sound) (verb : Verb) (text : String) :
    Follows
      (do
        let (handle, declared) := verb.declare text (← get)
        set declared
        return handle)
      (Watched.declare verb text) (fun d value => d.Holds value.handles) w := by
  obtain ⟨value, hvalue, hdeclare⟩ := Declarations.declare_eq verb text w.declared
  have hwatched : Watched.declare verb text w = .ok (verb.declare text w.declared).1
      { w with declared := (verb.declare text w.declared).2 } := rfl
  rw [hdeclare] at hwatched
  refine .ok value _ hwatched (congrArg Except.ok hdeclare) (hw.declare verb text)
    (w.declared.growsTo_add _) fun handle hmem => ?_
  rw [Value.handles_of_handle? hvalue, List.mem_singleton] at hmem
  rw [hmem]
  exact Declarations.lt_count_add_fresh verb text w.declared

theorem callMethod (hw : w.Sound) (hbindings : w.declared.Holds bindings.handles) (offset : Nat)
    {receiver : Value} (hreceiver : w.declared.Holds receiver.handles) (method : String)
    {args : List Value} (hargs : w.declared.Holds (Value.handlesOfAll args)) :
    Follows
      (do
        let (value, declared) ← Script.atOffset offset (Script.callMethod receiver method args (← get))
        set declared
        return value)
      (Watched.callMethod bindings offset receiver method args)
      (fun d value => d.Holds value.handles) w := by
  cases hhandle : receiver.handle? with
  | none =>
      refine .fault ⟨offset, .noMethods receiver.type method⟩ w ?_ ?_ hw
      · rw [Watched.callMethod, hhandle]
        rfl
      · rw [callMethod_step, callMethod_of_handle?_eq_none hhandle]
        rfl
  | some handle =>
      rw [Value.handles_of_handle? hhandle] at hreceiver
      obtain ⟨x, hx⟩ := Declarations.exists_at? (hreceiver handle List.mem_cons_self)
      have hcall := callMethod_of_at? hhandle hx method args
      have hwatched := Watched.callMethod_of_at? hhandle hx bindings offset method args
      cases hx' : x.call method args with
      | error problem =>
          rw [hx'] at hcall hwatched
          refine .fault ⟨offset, problem⟩ w hwatched ?_ hw
          rw [callMethod_step, hcall]
          rfl
      | ok x' =>
          rw [hx'] at hcall hwatched
          have hgrows := Declarations.growsTo_put hx hx'
          refine .ok receiver _ hwatched ?_ (hw.note_call hbindings hargs hx hx') hgrows ?_
          · rw [callMethod_step, hcall]
            rfl
          · rw [Value.handles_of_handle? hhandle]
            exact hgrows.holds hreceiver

end Follows

mutual

theorem follows_eval (bindings : Bindings) (w : Watch) (hw : w.Sound)
    (hbindings : w.declared.Holds bindings.handles) : (e : Expr) →
    Follows (eval bindings e) (Watched.eval bindings e) (fun d value => d.Holds value.handles) w
  | .text _ value => .yield hw hbindings nofun
  | .number _ value => .yield hw hbindings nofun
  | .boolean _ value => .yield hw hbindings nofun
  | .reference offset name => by
      rw [eval, Watched.eval]
      refine (Follows.atOffset hw offset fun value hvalue => ?_).noted hbindings
      exact fun handle hmem => hbindings handle (Bindings.handles_subset hvalue hmem)
  | .list _ items => by
      rw [eval, Watched.eval]
      exact (follows_evalAll bindings w hw hbindings items).bind fun values w' hw' hgrows hvalues =>
        .yield hw' (hgrows.holds hbindings) hvalues
  | .sum offset left right => by
      rw [eval, Watched.eval]
      refine (follows_eval bindings w hw hbindings left).bind fun a w₁ hw₁ hgrows₁ _ => ?_
      have hbindings₁ := hgrows₁.holds hbindings
      refine (follows_eval bindings w₁ hw₁ hbindings₁ right).bind fun b w₂ hw₂ hgrows₂ _ => ?_
      refine (Follows.atOffset hw₂ offset fun value hvalue => ?_).noted (hgrows₂.holds hbindings₁)
      rw [Value.handles_of_add hvalue]
      exact nofun
  | .call offset function args => by
      rw [eval, Watched.eval]
      cases Verb.ofName? function with
      | none => exact .fault _ w rfl rfl hw
      | some verb =>
          refine (follows_evalAll bindings w hw hbindings args).bind fun values w₁ hw₁ hgrows₁ _ => ?_
          have htext : Follows (atOffset offset (Arguments.oneString function values))
              (Watched.atOffset offset (Arguments.oneString function values)) (fun _ _ => True) w₁ :=
            .atOffset hw₁ offset fun _ _ => trivial
          refine htext.bind fun text w₂ hw₂ hgrows₂ _ => ?_
          exact (Follows.declare hw₂ verb text).noted ((hgrows₁.trans hgrows₂).holds hbindings)
  | .method offset receiver name args => by
      rw [eval, Watched.eval]
      refine (follows_eval bindings w hw hbindings receiver).bind fun value w₁ hw₁ hgrows₁ hvalue => ?_
      have hbindings₁ := hgrows₁.holds hbindings
      refine (follows_evalAll bindings w₁ hw₁ hbindings₁ args).bind fun values w₂ hw₂ hgrows₂ hvalues => ?_
      have hbindings₂ := hgrows₂.holds hbindings₁
      exact (Follows.callMethod hw₂ hbindings₂ offset (hgrows₂.holds hvalue) name hvalues).noted hbindings₂

theorem follows_evalAll (bindings : Bindings) (w : Watch) (hw : w.Sound)
    (hbindings : w.declared.Holds bindings.handles) : (items : List Expr) →
    Follows (evalAll bindings items) (Watched.evalAll bindings items)
      (fun d values => d.Holds (Value.handlesOfAll values)) w
  | [] => .pure hw nofun
  | item :: items => by
      rw [evalAll, Watched.evalAll]
      refine (follows_eval bindings w hw hbindings item).bind fun value w₁ hw₁ hgrows₁ hvalue => ?_
      have hbindings₁ := hgrows₁.holds hbindings
      refine (follows_evalAll bindings w₁ hw₁ hbindings₁ items).bind fun values w₂ hw₂ hgrows₂ hvalues => ?_
      refine .pure hw₂ fun handle hmem => ?_
      exact (List.mem_append.mp hmem).elim (hgrows₂.holds hvalue handle) (hvalues handle)

end

theorem follows_run {bindings : Bindings} {w : Watch} (hw : w.Sound)
    (hbindings : w.declared.Holds bindings.handles) (program : List Stmt) :
    Follows (run bindings program) (Watched.run bindings program) (fun _ _ => True) w := by
  induction program generalizing bindings w with
  | nil => exact .pure hw trivial
  | cons stmt rest ih =>
      cases stmt with
      | bind name value =>
          rw [run, Watched.run]
          refine (follows_eval bindings w hw hbindings value).bind fun found w₁ hw₁ hgrows hfound => ?_
          refine ih hw₁ fun handle hmem => ?_
          exact (List.mem_append.mp hmem).elim (hfound handle) (hgrows.holds hbindings handle)
      | expr value =>
          rw [run, Watched.run]
          refine (follows_eval bindings w hw hbindings value).bind fun found w₁ hw₁ hgrows _ => ?_
          exact ih hw₁ (hgrows.holds hbindings)

/-- Observing a program leaves a sound watch, of which the outcome is that of the program. -/
theorem observe_sound (program : List Stmt) : ∃ w : Watch, w.Sound ∧ (observe program).2 = w.moments ∧
    (observe program).1 = (declarations program).mapError .fault ∧
    ∀ declared, declarations program = .ok declared → w.declared = declared := by
  have hbindings : ({} : Watch).declared.Holds (Bindings.handles []) := nofun
  cases follows_run Watch.sound_empty hbindings program with
  | ok result w hwatched hstep hsound =>
      have hdeclared : declarations program = .ok w.declared := by
        rw [declarations, StateT.run, hstep]
        rfl
      refine ⟨w, hsound, ?_, ?_, fun declared h => ?_⟩
      · rw [observe, hwatched]
      · rw [observe, hwatched, hdeclared]
        rfl
      · rw [hdeclared] at h
        exact Except.ok.inj h
  | fault fault w hwatched hstep hsound =>
      have hfault : declarations program = .error fault := by
        rw [declarations, StateT.run, hstep]
        rfl
      refine ⟨w, hsound, ?_, ?_, fun declared h => ?_⟩
      · rw [observe, hwatched]
      · rw [observe, hwatched, hfault]
        rfl
      · rw [hfault] at h
        cases h

theorem Arguments.one_eq (function : String) (args : List Value) : one function args =
    if h : args.length = 1 then .ok args[0] else .error (.wrongCount function 1 args.length) := by
  rcases args with _ | ⟨value, _ | ⟨next, rest⟩⟩ <;> rfl

theorem Arguments.assignment_eq (args : List Value) : assignment args =
    if h : args.length = 2 then assignment [args[0], args[1]]
    else .error (.wrongCount "assign" 2 args.length) := by
  rcases args with _ | ⟨key, _ | ⟨value, _ | ⟨next, rest⟩⟩⟩ <;> rfl

/-- A watched program declares what the program declares or has its fault, and never comes upon a handle
that is out of range: not in what is bound, in a list or in a value on the way. What has been declared
stays in its place with the name or the pattern it has. In the end each declaration is what the calls on
its handle make of a fresh one, whatever is called on others in between. Arguments are only looked at
when there are as many as there should be. -/
theorem observe_run (program : List Stmt) :
    (observe program).1 = (declarations program).mapError .fault ∧
    (∀ m ∈ (observe program).2, ∀ handle ∈ m.handles, handle.index < m.declared.count handle.verb) ∧
    (observe program).2.Pairwise (fun earlier later => earlier.declared.GrowsTo later.declared) ∧
    (∀ declared, declarations program = .ok declared →
      (∀ m ∈ (observe program).2, m.declared.GrowsTo declared) ∧
      ∀ handle x, declared.at? handle = some x → rebuilt handle x (observe program).2 = .ok x) ∧
    (∀ function args, Arguments.one function args =
      if h : args.length = 1 then .ok args[0] else .error (.wrongCount function 1 args.length)) ∧
    (∀ args, Arguments.assignment args =
      if h : args.length = 2 then Arguments.assignment [args[0], args[1]]
      else .error (.wrongCount "assign" 2 args.length)) := by
  obtain ⟨w, hsound, hmoments, houtcome, hdeclared⟩ := observe_sound program
  rw [hmoments]
  refine ⟨houtcome, hsound.inRange, hsound.ordered, fun declared h => ?_, Arguments.one_eq,
    Arguments.assignment_eq⟩
  rw [← hdeclared declared h]
  exact ⟨hsound.current, hsound.filled⟩

/-- A builder that is bound twice, with a method called under each name and another builder in
between. -/
def aliasedProgram : List Stmt :=
  [.bind "a" (.call 0 "single" [.text 0 "*.psd"]), .bind "b" (.reference 0 "a"),
    .expr (.method 0 (.reference 0 "b") "to" [.text 0 "x"]),
    .expr (.method 0 (.call 0 "single" [.text 0 "*.png"]) "to" [.text 0 "y"]),
    .expr (.method 0 (.reference 0 "a") "using" [.text 0 "r"])]

theorem observe_run_aliased :
    declarations aliasedProgram = .ok
        { singles := [{ pattern := "*.psd", target := some "x", rule := some "r" },
            { pattern := "*.png", target := some "y" }] } ∧
      callsOn ⟨.single, 0⟩ (observe aliasedProgram).2 =
        [("to", [.string "x"]), ("using", [.string "r"])] ∧
      rebuilt ⟨.single, 0⟩ (.single { pattern := "*.psd", target := some "x", rule := some "r" })
          (observe aliasedProgram).2 =
        .ok (.single { pattern := "*.psd", target := some "x", rule := some "r" }) :=
  ⟨rfl, rfl, ((observe_run aliasedProgram).2.2.2.1 _ rfl).2 _ _ rfl⟩

end AssetPipeline.Script
