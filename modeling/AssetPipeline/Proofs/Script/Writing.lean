import AssetPipeline.Proofs.Script.Parsing
import AssetPipeline.Proofs.Script.Scanning
import AssetPipeline.Script.Evaluation

/-! Declarations written down as a description. Each rule and each builder is bound to `b`, which hides
the one before, and is then filled in by one statement for each of its fields that is set. Whatever
texts the declarations hold, scanning and parsing the description yields these statements. -/

namespace AssetPipeline

namespace Script

inductive Argument where
  | text (text : String)
  | yes

namespace Argument

def written : Argument → String
  | text t => quoted t
  | yes => "true"

def value : Argument → Value
  | text t => .string t
  | yes => .boolean true

def listed : List Argument → String
  | [] => ""
  | [argument] => argument.written
  | argument :: others => argument.written ++ ", " ++ listed others

end Argument

/-- A field of a rule or of a builder that is set. -/
inductive Field where
  | command (text : String)
  | fromBuild
  | target (text : String)
  | assignment (key value : String)
  | rule (name : String)

namespace Field

/-- The method that sets the field. -/
def method : Field → String
  | command _ => "command"
  | fromBuild => "fromBuild"
  | target _ => "to"
  | assignment _ _ => "assign"
  | rule _ => "using"

def arguments : Field → List Argument
  | command text => [.text text]
  | fromBuild => [.yes]
  | target text => [.text text]
  | assignment key value => [.text key, .text value]
  | rule name => [.text name]

def values (field : Field) : List Value :=
  field.arguments.map Argument.value

end Field

def Verb.name : Verb → String
  | rule => "rule"
  | single => "single"
  | bundle => "bundle"

/-- The statements that are written. -/
inductive Sentence where
  | declare (verb : Verb) (text : String)
  | fill (field : Field)

def Sentence.written : Sentence → String
  | declare verb text => "var b = " ++ verb.name ++ "(" ++ quoted text ++ ");"
  | fill field => "b." ++ field.method ++ "(" ++ Argument.listed field.arguments ++ ");"

end Script

open Script (Field Sentence Verb)

def RuleDecl.sentences (r : RuleDecl) : List Sentence :=
  .declare .rule r.name :: (r.command.toList.map Field.command).map .fill

namespace Builder

def fields (b : Builder) : List Field :=
  (if b.buildRelative then [.fromBuild] else []) ++ b.targets.map .target ++
    b.assignments.entries.map (fun entry => .assignment entry.1 entry.2) ++ b.rule.toList.map .rule

def declaredBy : Builder → Verb
  | single _ => .single
  | bundle _ => .bundle

def sentences (b : Builder) : List Sentence :=
  .declare b.declaredBy b.pattern :: b.fields.map .fill

end Builder

namespace Declarations

def sentences (d : Declarations) : List Sentence :=
  d.rules.flatMap RuleDecl.sentences ++ d.builders.flatMap Builder.sentences

/-- A description of these declarations, with `gap` after each statement. -/
def written (gap : String) (d : Declarations) : String :=
  String.join (d.sentences.map fun sentence => sentence.written ++ gap)

end Declarations

namespace Script

/-! ### Tokens and statements -/

/-- The expression is what the argument is read as, at some place. -/
inductive Argument.Says : Argument → Expr → Prop where
  | text (text : String) (offset : Nat) : Says (.text text) (.text offset text)
  | yes (offset : Nat) : Says .yes (.boolean offset true)

/-- The statement is what the sentence is read as, at some place. -/
inductive Sentence.Says : Sentence → Stmt → Prop where
  | declare (verb : Verb) (text : String) (offset inside : Nat) :
    Says (.declare verb text) (.bind "b" (.call offset verb.name [.text inside text]))
  | fill {field : Field} {args : List Expr} (offset start : Nat)
    (hargs : List.Forall₂ Argument.Says field.arguments args) :
    Says (.fill field) (.expr (.method offset (.reference start "b") field.method args))

variable {rest : List Char} {P : List Token → Prop}

theorem Scans.argument (h : Scans rest P) (argument : Argument)
    (hrest : ∀ c ∈ rest.head?, Lexeme.isNamePart c = false) :
    Scans (argument.written.toList ++ rest) fun tokens => ∃ tail e, P tail ∧ argument.Says e ∧
      ∀ levels, levels + 1 ≤ maxDepth → Grammar.Expression levels tokens tail e := by
  cases argument with
  | text text =>
      refine (h.literal text).mono ?_
      rintro _ ⟨t, tail, rfl, hkind, htext, hP⟩
      refine ⟨tail, .text t.start (Literal.unquote t.text), hP, ?_, fun levels hlevels =>
        .operands hlevels (.first (.receiver (.text hkind)))⟩
      rw [htext, String.ofList_toList, unquote_quoted]
      exact .text text t.start
  | yes =>
      refine (h.word "true".toList (by decide) hrest).mono ?_
      rintro _ ⟨t, tail, rfl, hkind, -, hP⟩
      exact ⟨tail, .boolean t.start true, hP, .yes t.start, fun levels hlevels =>
        .operands hlevels (.first (.receiver (.yes hkind)))⟩

theorem Scans.arguments (h : Scans rest P) (arguments : List Argument)
    (hrest : ∀ c ∈ rest.head?, Lexeme.isNamePart c = false) :
    Scans ((Argument.listed arguments).toList ++ rest) fun tokens => ∃ tail args, P tail ∧
      List.Forall₂ Argument.Says arguments args ∧
      ∀ levels, levels + 1 ≤ maxDepth → Grammar.Items levels tokens tail args := by
  induction arguments with
  | nil => exact h.mono fun tokens hP => ⟨tokens, [], hP, .nil, fun levels _ => .none⟩
  | cons argument others ih =>
      cases others with
      | nil =>
          refine (h.argument argument hrest).mono ?_
          rintro tokens ⟨tail, e, hP, hsays, hread⟩
          exact ⟨tail, [e], hP, .cons hsays .nil, fun levels hlevels =>
            .some (.last (hread levels hlevels))⟩
      | cons next others =>
          have hothers := (ih.blank (c := ' ') rfl).punctuation (c := ',') rfl
          have hall := hothers.argument argument (head_notNamePart rfl _)
          rw [Argument.listed, String.toList_append, String.toList_append, List.append_assoc,
            List.append_assoc]
          · refine hall.mono ?_
            rintro tokens
              ⟨_, e, ⟨comma, mid, rfl, hcomma, -, tail, args, hP, hargs, hread⟩, hsays, hfirst⟩
            exact ⟨tail, e :: args, hP, .cons hsays hargs, fun levels hlevels =>
              .cons (hfirst levels hlevels) hcomma (hread levels hlevels)⟩
          · simp

theorem Verb.isWord_name (verb : Verb) : isWord verb.name.toList = true := by
  cases verb <;> decide

theorem Verb.wordKind_name (verb : Verb) : Lexeme.wordKind verb.name.toList = .name := by
  cases verb <;> decide

theorem Field.isWord_method (field : Field) : isWord field.method.toList = true := by
  cases field <;> simp only [Field.method] <;> decide

theorem Field.wordKind_method (field : Field) : Lexeme.wordKind field.method.toList = .name := by
  cases field <;> simp only [Field.method] <;> decide

theorem Scans.declare (h : Scans rest P) (verb : Verb) (text : String) :
    Scans ((Sentence.declare verb text).written.toList ++ rest) fun tokens => ∃ tail stmt, P tail ∧
      (Sentence.declare verb text).Says stmt ∧ Grammar.Statement tokens tail stmt := by
  have hend := (h.punctuation (c := ';') rfl).punctuation (c := ')') rfl
  have hargs := (hend.arguments [.text text] (head_notNamePart rfl _)).punctuation (c := '(') rfl
  have hcall := hargs.word verb.name.toList verb.isWord_name (head_notNamePart rfl _)
  have hvalue := ((hcall.blank (c := ' ') rfl).punctuation (c := '=') rfl).blank (c := ' ') rfl
  have hname := (hvalue.word ['b'] (by decide) (head_notNamePart rfl _)).blank (c := ' ') rfl
  have hall := hname.word "var".toList (by decide) (head_notNamePart rfl _)
  have htext : (Sentence.declare verb text).written.toList ++ rest = "var".toList ++ ' ' ::
      (['b'] ++ ' ' :: '=' :: ' ' :: (verb.name.toList ++ '(' ::
        ((Argument.listed [.text text]).toList ++ ')' :: ';' :: rest))) := by
    simp [Sentence.written, Argument.listed, Argument.written]
  rw [htext]
  refine hall.mono ?_
  rintro _ ⟨declare, _, rfl, hdeclare, -, name, _, rfl, hname, hb, equals, _, rfl, hequals, -,
    function, _, rfl, hfunction, hverb, opening, _, rfl, hopening, -, _, args,
    ⟨closing, _, rfl, hclosing, -, semicolon, tail, rfl, hsemicolon, -, hP⟩, hargs, hread⟩
  rw [verb.wordKind_name] at hfunction
  rw [String.ofList_toList] at hverb
  refine ⟨tail, .bind name.text (.call function.start function.text args), hP, ?_, ?_⟩
  · obtain _ | ⟨⟨-, inside⟩, ⟨⟩⟩ := hargs
    rw [hb, hverb]
    exact .declare verb text function.start inside
  · refine .ended (.bind hdeclare hname hequals ?_) hsemicolon
    exact .operands (by decide) (.first (.receiver
      (.call hfunction hopening (hread 1 (by decide)) hclosing)))

theorem Scans.fill (h : Scans rest P) (field : Field) :
    Scans ((Sentence.fill field).written.toList ++ rest) fun tokens => ∃ tail stmt, P tail ∧
      (Sentence.fill field).Says stmt ∧ Grammar.Statement tokens tail stmt := by
  have hend := (h.punctuation (c := ';') rfl).punctuation (c := ')') rfl
  have hargs := (hend.arguments field.arguments (head_notNamePart rfl _)).punctuation (c := '(') rfl
  have hmethod := (hargs.word field.method.toList field.isWord_method
    (head_notNamePart rfl _)).punctuation (c := '.') rfl
  have hall := hmethod.word ['b'] (by decide) (head_notNamePart rfl _)
  have htext : (Sentence.fill field).written.toList ++ rest = ['b'] ++ '.' ::
      (field.method.toList ++ '(' :: ((Argument.listed field.arguments).toList ++
        ')' :: ';' :: rest)) := by
    simp [Sentence.written]
  rw [htext]
  refine hall.mono ?_
  rintro _ ⟨name, _, rfl, hname, hb, dot, _, rfl, hdot, -, method, _, rfl, hmethod, hfield,
    opening, _, rfl, hopening, -, _, args,
    ⟨closing, _, rfl, hclosing, -, semicolon, tail, rfl, hsemicolon, -, hP⟩, hargs, hread⟩
  rw [field.wordKind_method] at hmethod
  rw [String.ofList_toList] at hfield
  refine ⟨tail, .expr (.method method.start (.reference name.start name.text) method.text args), hP,
    ?_, ?_⟩
  · rw [hb, hfield]
    exact .fill method.start name.start hargs
  · have hdotAhead := Grammar.notAhead_of_kind hdot (by decide : TokenKind.dot ≠ .parenOpen)
    exact .ended (.expr (.operands (by decide) (.first (.method
      (.receiver (.reference hname (hdotAhead _))) hdot (by decide) hmethod hopening
      (hread 2 (by decide)) hclosing)))) hsemicolon

/-- Whatever is written, it is read as statements that say it. -/
theorem scans_sentences {gap : List Char} (hgap : gap.all Lexeme.isBlank = true)
    (sentences : List Sentence) :
    Scans (sentences.flatMap fun sentence => sentence.written.toList ++ gap) fun tokens =>
      ∃ stmts, List.Forall₂ Sentence.Says sentences stmts ∧ Grammar.Program tokens stmts := by
  induction sentences with
  | nil => exact scans_nil ⟨[], .nil, .nil⟩
  | cons sentence sentences ih =>
      have hrest := ih.blanks hgap
      have hread : Scans (sentence.written.toList ++ (gap ++ sentences.flatMap fun sentence =>
          sentence.written.toList ++ gap)) fun tokens => ∃ tail stmt,
            (∃ stmts, List.Forall₂ Sentence.Says sentences stmts ∧ Grammar.Program tail stmts) ∧
              sentence.Says stmt ∧ Grammar.Statement tokens tail stmt := by
        cases sentence with
        | declare verb text => exact hrest.declare verb text
        | fill field => exact hrest.fill field
      rw [List.flatMap_cons, List.append_assoc]
      refine hread.mono ?_
      rintro tokens ⟨tail, stmt, ⟨stmts, hsays, hprogram⟩, hstmt, hstatement⟩
      exact ⟨stmt :: stmts, .cons hstmt hsays, .statement hstatement hprogram⟩

theorem parse_written {gap : String} (hgap : gap.toList.all Lexeme.isBlank = true)
    (d : Declarations) :
    ∃ stmts, parse (d.written gap) = .ok stmts ∧ List.Forall₂ Sentence.Says d.sentences stmts := by
  obtain ⟨tokens, htokens, stmts, hsays, hprogram⟩ := scans_sentences hgap d.sentences 0
  refine ⟨stmts, ?_, hsays⟩
  have hsource : tokenize (d.written gap) = .ok tokens := by
    rw [tokenize_eq_ok_iff, ← htokens, Declarations.written, String.toList_join, List.flatMap_map]
    simp only [String.toList_append]
  rw [parse, hsource]
  exact Parser.ok_of_program hprogram

end Script

end AssetPipeline
