import AssetPipeline.Proofs.Script.Writing

/-! A description that was written down declares what it was written for. The statements are run as the
sentences they say; those of one rule or builder add it to what is declared, and leave `b` bound to it
until the next one is declared. -/

namespace AssetPipeline

namespace Script

/-- What a statement does to the value of `b` and to what is declared. -/
def Sentence.apply (state : Except Problem Value × Declarations) :
    Sentence → Except Problem (Except Problem Value × Declarations)
  | declare verb text =>
    let (handle, declared) := verb.declare text state.2
    return (.ok handle, declared)
  | fill field => do
    let receiver ← state.1
    let (_, declared) ← callMethod receiver field.method field.values state.2
    return (state.1, declared)

theorem evalAll_of_says {bindings : Bindings} {arguments : List Argument} {args : List Expr}
    (h : List.Forall₂ Argument.Says arguments args) :
    evalAll bindings args = pure (arguments.map Argument.value) := by
  induction h with
  | nil => rfl
  | cons hargument _ ih =>
      rw [evalAll, ih]
      cases hargument <;> rfl

theorem Verb.ofName?_name (verb : Verb) : Verb.ofName? verb.name = some verb := by
  cases verb <;> rfl

theorem run_eval_method {bindings : Bindings} {field : Field} {args : List Expr}
    {receiver value : Value} {d declared : Declarations} (hargs : List.Forall₂ Argument.Says field.arguments args)
    (hreceiver : bindings.find "b" = .ok receiver)
    (hcall : callMethod receiver field.method field.values d = .ok (value, declared))
    (offset start : Nat) :
    (eval bindings (.method offset (.reference start "b") field.method args)).run d =
      .ok (value, declared) := by
  rw [Field.values] at hcall
  rw [eval, eval, hreceiver, evalAll_of_says hargs]
  simp only [atOffset, pure_bind, StateT.run_bind, StateT.run_get, hcall]
  rfl

/-- Statements run as what they say, and the offsets in them make no difference. -/
theorem run_of_says {sentences : List Sentence} {stmts : List Stmt}
    (h : List.Forall₂ Sentence.Says sentences stmts) {bindings : Bindings} {d : Declarations}
    {state : Except Problem Value × Declarations}
    (happly : sentences.foldlM Sentence.apply (bindings.find "b", d) = .ok state) :
    (run bindings stmts).run d = .ok ((), state.2) := by
  induction h generalizing bindings d with
  | nil =>
      cases happly
      rfl
  | cons hsentence _ ih =>
      rw [List.foldlM_cons] at happly
      obtain ⟨next, hstep, hrest⟩ := bind_eq_ok_iff.mp happly
      cases hsentence with
      | declare verb text offset inside =>
          cases hstep
          have heval : (eval bindings (.call offset verb.name [.text inside text])).run d =
              .ok (verb.declare text d) := by
            rw [eval, verb.ofName?_name]
            rfl
          rw [run, StateT.run_bind, heval]
          exact ih hrest
      | fill offset start hargs =>
          obtain ⟨receiver, hreceiver, hstep⟩ := bind_eq_ok_iff.mp hstep
          obtain ⟨⟨value, declared⟩, hcall, hstep⟩ := bind_eq_ok_iff.mp hstep
          cases hstep
          rw [run, StateT.run_bind, run_eval_method hargs hreceiver hcall]
          exact ih hrest

/-! ### One declaration after another -/

theorem updateAt_last {α ε : Type} {f : α → Except ε α} {x x' : α} (h : f x = .ok x')
    (items : List α) :
    updateAt f (items ++ [x]) items.length = .ok (items ++ [x']) := by
  induction items with
  | nil =>
      rw [List.nil_append, List.length_nil, updateAt, h]
      rfl
  | cons item items ih =>
      rw [List.cons_append, List.length_cons, updateAt, ih]
      rfl

/-- What calls that set these fields make of a rule or of a builder. -/
def filled {α : Type} (call : α → String → List Value → Except Problem α) (fields : List Field)
    (x : α) : Except Problem α :=
  fields.foldlM (fun x field => call x field.method field.values) x

theorem filled_append {α : Type} {call : α → String → List Value → Except Problem α}
    {front back : List Field} {x y z : α} (hfront : filled call front x = .ok y)
    (hback : filled call back y = .ok z) : filled call (front ++ back) x = .ok z := by
  rw [filled, List.foldlM_append]
  exact bind_eq_ok_iff.mpr ⟨y, hfront, hback⟩

theorem filled_map {α β : Type} {call : α → String → List Value → Except Problem α}
    {field : β → Field} (step : α → β → α)
    (h : ∀ x y, call x (field y).method (field y).values = .ok (step x y)) (items : List β) (x : α) :
    filled call (items.map field) x = .ok (items.foldl step x) := by
  induction items generalizing x with
  | nil => rfl
  | cons y items ih =>
      rw [List.map_cons, List.foldl_cons]
      exact bind_eq_ok_iff.mpr ⟨step x y, h x y, ih (step x y)⟩

/-- Where calls on `b` change what `put` puts among the declarations, its fields are filled in. -/
theorem foldlM_fill {α : Type} {receiver : Value} (put : α → Declarations)
    {call : α → String → List Value → Except Problem α}
    (hcall : ∀ x method args x', call x method args = .ok x' →
      callMethod receiver method args (put x) = .ok (receiver, put x'))
    {fields : List Field} {x x' : α} (h : filled call fields x = .ok x') :
    (fields.map Sentence.fill).foldlM Sentence.apply (.ok receiver, put x) =
      .ok (.ok receiver, put x') := by
  induction fields generalizing x with
  | nil =>
      cases h
      rfl
  | cons field fields ih =>
      obtain ⟨next, hnext, h⟩ := bind_eq_ok_iff.mp h
      have hfilled := hcall x field.method field.values next hnext
      rw [List.map_cons, List.foldlM_cons]
      refine bind_eq_ok_iff.mpr ⟨(.ok receiver, put next), ?_, ih h⟩
      exact bind_eq_ok_iff.mpr ⟨receiver, rfl, bind_eq_ok_iff.mpr ⟨_, hfilled, rfl⟩⟩

end Script

open Script (Field Sentence Problem Value filled filled_append filled_map foldlM_fill updateAt_last)

/-! ### Fields put a declaration together again -/

namespace Assignments

theorem put_last {key value : String} {entries : List (String × String)}
    (h : ∀ entry ∈ entries, entry.1 < key) : put key value entries = entries ++ [(key, value)] := by
  induction entries with
  | nil => rfl
  | cons entry entries ih =>
      obtain ⟨hentry, hentries⟩ := List.forall_mem_cons.mp h
      rw [put, if_neg (String.lt_asymm hentry), if_neg (String.ne_of_lt hentry).symm, ih hentries,
        List.cons_append]

theorem foldl_put {front back : List (String × String)}
    (h : (front ++ back).Pairwise fun a b => a.1 < b.1) :
    back.foldl (fun entries entry => put entry.1 entry.2 entries) front = front ++ back := by
  induction back generalizing front with
  | nil => rw [List.foldl_nil, List.append_nil]
  | cons entry back ih =>
      have hlast : ∀ e ∈ front, e.1 < entry.1 := fun e he =>
        (List.pairwise_append.mp h).2.2 e he entry List.mem_cons_self
      rw [List.append_cons] at h ⊢
      rw [List.foldl_cons, put_last hlast, ih h]

def insertAll (a : Assignments) (entries : List (String × String)) : Assignments :=
  entries.foldl (fun a entry => a.insert entry.1 entry.2) a

theorem entries_insertAll (a : Assignments) (entries : List (String × String)) :
    (a.insertAll entries).entries =
      entries.foldl (fun entries entry => put entry.1 entry.2 entries) a.entries := by
  induction entries generalizing a with
  | nil => rfl
  | cons entry entries ih => exact ih (a.insert entry.1 entry.2)

/-- Entries that are inserted in their order are all there. -/
theorem insertAll_entries (a : Assignments) : insertAll .empty a.entries = a := by
  obtain ⟨entries, hascending⟩ := a
  have hall := (entries_insertAll .empty entries).trans (foldl_put hascending)
  generalize insertAll .empty entries = b at hall ⊢
  cases b
  cases hall
  rfl

end Assignments

theorem Single.foldl_assign (entries : List (String × String)) (s : Single) :
    entries.foldl (fun (s : Single) entry => s.assign entry.1 entry.2) s =
      { s with assignments := s.assignments.insertAll entries } := by
  induction entries generalizing s with
  | nil => rfl
  | cons entry entries ih => exact ih (s.assign entry.1 entry.2)

theorem Bundle.foldl_assign (entries : List (String × String)) (b : Bundle) :
    entries.foldl (fun (b : Bundle) entry => b.assign entry.1 entry.2) b =
      { b with assignments := b.assignments.insertAll entries } := by
  induction entries generalizing b with
  | nil => rfl
  | cons entry entries ih => exact ih (b.assign entry.1 entry.2)

theorem Bundle.foldl_addTargets (targets : List String) (b : Bundle) :
    targets.foldl (fun (b : Bundle) target => b.addTargets [target]) b = b.addTargets targets := by
  induction targets generalizing b with
  | nil => rw [List.foldl_nil, Bundle.addTargets, List.append_nil]
  | cons target targets ih =>
      rw [List.foldl_cons, ih]
      simp only [Bundle.addTargets, List.append_assoc, List.singleton_append]

theorem RuleDecl.filled_fields (r : RuleDecl) :
    filled RuleDecl.call (r.command.toList.map Field.command) { name := r.name } = .ok r := by
  obtain ⟨name, command⟩ := r
  cases command <;> rfl

theorem Single.filled_fields (s : Single) :
    filled Single.call (Builder.single s).fields { pattern := s.pattern } = .ok s := by
  obtain ⟨pattern, relative, target, assignments, rule⟩ := s
  have hrelative : filled Single.call (if relative then [.fromBuild] else []) { pattern := pattern } =
      .ok { pattern := pattern, buildRelative := relative } := by
    cases relative <;> rfl
  have htarget : filled Single.call (target.toList.map .target)
      { pattern := pattern, buildRelative := relative } =
        .ok { pattern := pattern, buildRelative := relative, target := target } := by
    cases target <;> rfl
  have hassignments : filled Single.call
      (assignments.entries.map fun entry => .assignment entry.1 entry.2)
      { pattern := pattern, buildRelative := relative, target := target } =
        .ok ⟨pattern, relative, target, assignments, none⟩ := by
    rw [filled_map (fun (s : Single) entry => s.assign entry.1 entry.2) fun _ _ => rfl,
      Single.foldl_assign, assignments.insertAll_entries]
  have hrule : filled Single.call (rule.toList.map .rule)
      ⟨pattern, relative, target, assignments, none⟩ =
        .ok ⟨pattern, relative, target, assignments, rule⟩ := by
    cases rule <;> rfl
  exact filled_append (filled_append (filled_append hrelative htarget) hassignments) hrule

theorem Bundle.filled_fields (b : Bundle) :
    filled Bundle.call (Builder.bundle b).fields { pattern := b.pattern } = .ok b := by
  obtain ⟨pattern, relative, targets, assignments, rule⟩ := b
  have hrelative : filled Bundle.call (if relative then [.fromBuild] else []) { pattern := pattern } =
      .ok { pattern := pattern, buildRelative := relative } := by
    cases relative <;> rfl
  have htargets : filled Bundle.call (targets.map .target)
      { pattern := pattern, buildRelative := relative } =
        .ok { pattern := pattern, buildRelative := relative, targets := targets } := by
    rw [filled_map (fun (b : Bundle) target => b.addTargets [target]) fun _ _ => rfl,
      Bundle.foldl_addTargets]
    rfl
  have hassignments : filled Bundle.call
      (assignments.entries.map fun entry => .assignment entry.1 entry.2)
      { pattern := pattern, buildRelative := relative, targets := targets } =
        .ok ⟨pattern, relative, targets, assignments, none⟩ := by
    rw [filled_map (fun (b : Bundle) entry => b.assign entry.1 entry.2) fun _ _ => rfl,
      Bundle.foldl_assign, assignments.insertAll_entries]
  have hrule : filled Bundle.call (rule.toList.map .rule)
      ⟨pattern, relative, targets, assignments, none⟩ =
        .ok ⟨pattern, relative, targets, assignments, rule⟩ := by
    cases rule <;> rfl
  exact filled_append (filled_append (filled_append hrelative htargets) hassignments) hrule

/-! ### Declarations put together again -/

namespace Declarations

def withRule (d : Declarations) (r : RuleDecl) : Declarations :=
  { d with rules := d.rules ++ [r] }

def withBuilder (d : Declarations) : Builder → Declarations
  | .single s => { d with singles := d.singles ++ [s] }
  | .bundle b => { d with bundles := d.bundles ++ [b] }

theorem foldl_withRule (rules : List RuleDecl) (d : Declarations) :
    rules.foldl withRule d = { d with rules := d.rules ++ rules } := by
  induction rules generalizing d with
  | nil => rw [List.foldl_nil, List.append_nil]
  | cons r rules ih => rw [List.foldl_cons, ih, withRule, List.append_assoc, List.singleton_append]

theorem foldl_singles (singles : List Single) (d : Declarations) :
    (singles.map Builder.single).foldl withBuilder d = { d with singles := d.singles ++ singles } := by
  induction singles generalizing d with
  | nil => rw [List.map_nil, List.foldl_nil, List.append_nil]
  | cons s singles ih =>
      rw [List.map_cons, List.foldl_cons, ih, withBuilder, List.append_assoc, List.singleton_append]

theorem foldl_bundles (bundles : List Bundle) (d : Declarations) :
    (bundles.map Builder.bundle).foldl withBuilder d = { d with bundles := d.bundles ++ bundles } := by
  induction bundles generalizing d with
  | nil => rw [List.map_nil, List.foldl_nil, List.append_nil]
  | cons b bundles ih =>
      rw [List.map_cons, List.foldl_cons, ih, withBuilder, List.append_assoc, List.singleton_append]

/-- Nothing else is declared than rules, singles and bundles. -/
theorem foldl_all (d : Declarations) :
    d.builders.foldl withBuilder (d.rules.foldl withRule {}) = d := by
  rw [builders, List.foldl_append, foldl_withRule, foldl_singles, foldl_bundles]
  rfl

end Declarations

theorem RuleDecl.foldlM_sentences (r : RuleDecl) (bound : Except Problem Value) (d : Declarations) :
    ∃ bound', r.sentences.foldlM Sentence.apply (bound, d) = .ok (bound', d.withRule r) := by
  refine ⟨.ok (.rule d.rules.length), bind_eq_ok_iff.mpr ⟨_, rfl, ?_⟩⟩
  refine foldlM_fill d.withRule (fun x method args x' h => ?_) r.filled_fields
  rw [Script.callMethod, Declarations.withRule, updateAt_last h]
  rfl

theorem Builder.foldlM_sentences (b : Builder) (bound : Except Problem Value) (d : Declarations) :
    ∃ bound', b.sentences.foldlM Sentence.apply (bound, d) = .ok (bound', d.withBuilder b) := by
  cases b with
  | single s =>
      refine ⟨.ok (.single d.singles.length), bind_eq_ok_iff.mpr ⟨_, rfl, ?_⟩⟩
      refine foldlM_fill (d.withBuilder ∘ .single) (fun x method args x' h => ?_) s.filled_fields
      rw [Script.callMethod, Function.comp_apply, Declarations.withBuilder, updateAt_last h]
      rfl
  | bundle b =>
      refine ⟨.ok (.bundle d.bundles.length), bind_eq_ok_iff.mpr ⟨_, rfl, ?_⟩⟩
      refine foldlM_fill (d.withBuilder ∘ .bundle) (fun x method args x' h => ?_) b.filled_fields
      rw [Script.callMethod, Function.comp_apply, Declarations.withBuilder, updateAt_last h]
      rfl

/-- The sentences of some items declare the items, one after another. -/
theorem foldlM_flatMap_sentences {α : Type} {sentences : α → List Sentence}
    {add : Declarations → α → Declarations}
    (h : ∀ x bound d, ∃ bound', (sentences x).foldlM Sentence.apply (bound, d) = .ok (bound', add d x))
    (items : List α) (bound : Except Problem Value) (d : Declarations) :
    ∃ bound', (items.flatMap sentences).foldlM Sentence.apply (bound, d) =
      .ok (bound', items.foldl add d) := by
  induction items generalizing bound d with
  | nil => exact ⟨bound, rfl⟩
  | cons x items ih =>
      obtain ⟨bound₁, hx⟩ := h x bound d
      obtain ⟨bound₂, hitems⟩ := ih bound₁ (add d x)
      refine ⟨bound₂, ?_⟩
      rw [List.flatMap_cons, List.foldlM_append, List.foldl_cons]
      exact bind_eq_ok_iff.mpr ⟨_, hx, hitems⟩

theorem Declarations.foldlM_sentences (d : Declarations) (bound : Except Problem Value) :
    ∃ bound', d.sentences.foldlM Sentence.apply (bound, {}) = .ok (bound', d) := by
  obtain ⟨bound₁, hrules⟩ := foldlM_flatMap_sentences RuleDecl.foldlM_sentences d.rules bound {}
  obtain ⟨bound₂, hbuilders⟩ := foldlM_flatMap_sentences Builder.foldlM_sentences d.builders bound₁
    (d.rules.foldl Declarations.withRule {})
  refine ⟨bound₂, ?_⟩
  rw [Declarations.sentences, List.foldlM_append]
  refine bind_eq_ok_iff.mpr ⟨_, hrules, ?_⟩
  rw [hbuilders, d.foldl_all]

/-- Declarations can be written down, whatever texts they hold, and evaluating what is written down
declares them. Any blanks, or none, may stand after the statements. -/
theorem evaluate_written (d : Declarations) {gap : String}
    (hgap : gap.toList.all Script.Lexeme.isBlank = true) :
    Script.evaluate (d.written gap) = .ok d := by
  obtain ⟨stmts, hparse, hsays⟩ := Script.parse_written hgap d
  obtain ⟨bound, happly⟩ := d.foldlM_sentences (Script.Bindings.find [] "b")
  have hdeclared : Script.parse (d.written gap) >>= Script.declarations = .ok d := by
    refine bind_eq_ok_iff.mpr ⟨stmts, hparse, ?_⟩
    rw [Script.declarations, Script.run_of_says hsays happly]
    rfl
  rw [Script.evaluate, hdeclared]

theorem evaluate_written_awkward :
    "\n".toList.all Script.Lexeme.isBlank = true ∧
      Script.evaluate (Declarations.written "\n"
        { rules := [{ name := "it's", command := some "a\\b\n'c'" }]
          bundles := [{ pattern := "*.ö", targets := ["'", "\\"] }] }) =
        .ok { rules := [{ name := "it's", command := some "a\\b\n'c'" }]
              bundles := [{ pattern := "*.ö", targets := ["'", "\\"] }] } :=
  ⟨by decide, evaluate_written _ (by decide)⟩

end AssetPipeline
