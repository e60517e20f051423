import AssetPipeline.Script.Parser

/-! The grammar of descriptions. Each of the relations holds between tokens, the tokens that are left
behind a phrase at their front, and what the phrase stands for:

    program   := (';' | statement)*
    statement := (declare name '=' expr | expr) ';'?
    expr      := chain ('+' chain)*
    chain     := primary ('.' name '(' list ')')*
    primary   := text | number | boolean | name | name '(' list ')' | '[' list ']' | '(' expr ')'
    list      := (expr (',' expr)* ','?)?

A name with an opening parenthesis after it is always a call, and a semicolon after a statement always
belongs to the statement. Apart from that a phrase may end wherever the grammar lets it.

The first number of a relation is the number of levels around the phrase: of the expressions that are
open there, of the plus signs read so far in each of these, and of the dots read so far in each of the
chains that are open. -/

namespace AssetPipeline.Script.Grammar

/-- The next token, if there is one, is of another kind. -/
def NotAhead (kind : TokenKind) (tokens : List Token) : Prop :=
  ∀ t ∈ tokens.head?, t.kind ≠ kind

instance (kind : TokenKind) (tokens : List Token) : Decidable (NotAhead kind tokens) :=
  inferInstanceAs (Decidable (∀ t ∈ tokens.head?, t.kind ≠ kind))

theorem notAhead_of_kind {kind found : TokenKind} {t : Token} (ht : t.kind = found)
    (h : found ≠ kind) (tail : List Token) : NotAhead kind (t :: tail) := by
  intro first hfirst
  cases hfirst
  rw [ht]
  exact h

mutual

/-- An expression counts as open from its start. -/
inductive Expression : Nat → List Token → List Token → Expr → Prop where
  | operands {levels pluses : Nat} {tokens rest : List Token} {e : Expr}
    (hlevels : levels + 1 ≤ maxDepth) (h : Operands (levels + 1) pluses tokens rest e) :
    Expression levels tokens rest e

/-- Operands with plus signs between them, whose number is the second one. They nest to the left. -/
inductive Operands : Nat → Nat → List Token → List Token → Expr → Prop where
  | first {levels dots : Nat} {tokens rest : List Token} {e : Expr}
    (h : Chain levels dots tokens rest e) : Operands levels 0 tokens rest e
  | plus {levels pluses dots : Nat} {tokens tail rest : List Token} {plus : Token} {left right : Expr}
    (hleft : Operands levels pluses tokens (plus :: tail) left) (hplus : plus.kind = .plus)
    (hlevels : levels + (pluses + 1) ≤ maxDepth)
    (hright : Chain (levels + (pluses + 1)) dots tail rest right) :
    Operands levels (pluses + 1) tokens rest (.sum left.offset left right)

/-- A receiver with method calls after it; the second number is that of the dots. -/
inductive Chain : Nat → Nat → List Token → List Token → Expr → Prop where
  | receiver {levels : Nat} {tokens rest : List Token} {e : Expr}
    (h : Primary levels tokens rest e) : Chain levels 0 tokens rest e
  | method {levels dots : Nat} {tokens tail rest : List Token} {dot name opening closing : Token}
    {receiver : Expr} {args : List Expr}
    (hreceiver : Chain levels dots tokens (dot :: name :: opening :: tail) receiver)
    (hdot : dot.kind = .dot) (hlevels : levels + (dots + 1) ≤ maxDepth) (hname : name.kind = .name)
    (hopening : opening.kind = .parenOpen)
    (hargs : Items (levels + (dots + 1)) tail (closing :: rest) args)
    (hclosing : closing.kind = .parenClose) :
    Chain levels (dots + 1) tokens rest (.method name.start receiver name.text args)

inductive Primary : Nat → List Token → List Token → Expr → Prop where
  | text {levels : Nat} {t : Token} {rest : List Token} (ht : t.kind = .text) :
    Primary levels (t :: rest) rest (.text t.start (Literal.unquote t.text))
  | number {levels : Nat} {t : Token} {rest : List Token} (ht : t.kind = .number) :
    Primary levels (t :: rest) rest (.number t.start (Literal.number t.text))
  | yes {levels : Nat} {t : Token} {rest : List Token} (ht : t.kind = .yes) :
    Primary levels (t :: rest) rest (.boolean t.start true)
  | no {levels : Nat} {t : Token} {rest : List Token} (ht : t.kind = .no) :
    Primary levels (t :: rest) rest (.boolean t.start false)
  | reference {levels : Nat} {t : Token} {rest : List Token} (ht : t.kind = .name)
    (hrest : NotAhead .parenOpen rest) :
    Primary levels (t :: rest) rest (.reference t.start t.text)
  | call {levels : Nat} {t opening closing : Token} {tail rest : List Token} {args : List Expr}
    (ht : t.kind = .name) (hopening : opening.kind = .parenOpen)
    (hargs : Items levels tail (closing :: rest) args) (hclosing : closing.kind = .parenClose) :
    Primary levels (t :: opening :: tail) rest (.call t.start t.text args)
  | list {levels : Nat} {t closing : Token} {tail rest : List Token} {items : List Expr}
    (ht : t.kind = .bracketOpen) (hitems : Items levels tail (closing :: rest) items)
    (hclosing : closing.kind = .bracketClose) :
    Primary levels (t :: tail) rest (.list t.start items)
  | group {levels : Nat} {t closing : Token} {tail rest : List Token} {inner : Expr}
    (ht : t.kind = .parenOpen) (hinner : Expression levels tail (closing :: rest) inner)
    (hclosing : closing.kind = .parenClose) :
    Primary levels (t :: tail) rest (inner.withOffset t.start)

/-- What may stand between brackets, and between the parentheses of a call. -/
inductive Items : Nat → List Token → List Token → List Expr → Prop where
  | none {levels : Nat} {rest : List Token} : Items levels rest rest []
  | some {levels : Nat} {tokens rest : List Token} {items : List Expr}
    (h : Separated levels tokens rest items) : Items levels tokens rest items
  | trailing {levels : Nat} {tokens rest : List Token} {comma : Token} {items : List Expr}
    (h : Separated levels tokens (comma :: rest) items) (hcomma : comma.kind = .comma) :
    Items levels tokens rest items

/-- Expressions with commas between them. -/
inductive Separated : Nat → List Token → List Token → List Expr → Prop where
  | last {levels : Nat} {tokens rest : List Token} {item : Expr}
    (h : Expression levels tokens rest item) : Separated levels tokens rest [item]
  | more {levels : Nat} {tokens tail rest : List Token} {comma : Token} {item : Expr}
    {items : List Expr} (hitem : Expression levels tokens (comma :: tail) item)
    (hcomma : comma.kind = .comma) (h : Separated levels tail rest items) :
    Separated levels tokens rest (item :: items)

end

/-- A statement without the semicolon that may end it. -/
inductive Bare : List Token → List Token → Stmt → Prop where
  | bind {declare name equals : Token} {tokens rest : List Token} {value : Expr}
    (hdeclare : declare.kind = .declare) (hname : name.kind = .name) (hequals : equals.kind = .equals)
    (hvalue : Expression 0 tokens rest value) :
    Bare (declare :: name :: equals :: tokens) rest (.bind name.text value)
  | expr {tokens rest : List Token} {value : Expr} (hvalue : Expression 0 tokens rest value) :
    Bare tokens rest (.expr value)

inductive Statement : List Token → List Token → Stmt → Prop where
  | ended {tokens rest : List Token} {semicolon : Token} {stmt : Stmt}
    (h : Bare tokens (semicolon :: rest) stmt) (hsemicolon : semicolon.kind = .semicolon) :
    Statement tokens rest stmt
  | unended {tokens rest : List Token} {stmt : Stmt} (h : Bare tokens rest stmt)
    (hrest : NotAhead .semicolon rest) : Statement tokens rest stmt

inductive Program : List Token → List Stmt → Prop where
  | nil : Program [] []
  | semicolon {t : Token} {tokens : List Token} {stmts : List Stmt} (ht : t.kind = .semicolon)
    (h : Program tokens stmts) : Program (t :: tokens) stmts
  | statement {tokens rest : List Token} {stmt : Stmt} {stmts : List Stmt}
    (hstmt : Statement tokens rest stmt) (h : Program rest stmts) : Program tokens (stmt :: stmts)

/-! ### First tokens -/

/-- Kinds of the tokens that an expression can begin with. -/
def begins : TokenKind → Bool
  | .text | .number | .yes | .no | .name | .bracketOpen | .parenOpen => true
  | _ => false

theorem Primary.begins {levels : Nat} {tokens rest : List Token} {e : Expr} :
    Primary levels tokens rest e → ∃ t tail, tokens = t :: tail ∧ Grammar.begins t.kind = true
  | .text ht => ⟨_, _, rfl, by rw [ht]; rfl⟩
  | .number ht => ⟨_, _, rfl, by rw [ht]; rfl⟩
  | .yes ht => ⟨_, _, rfl, by rw [ht]; rfl⟩
  | .no ht => ⟨_, _, rfl, by rw [ht]; rfl⟩
  | .reference ht _ => ⟨_, _, rfl, by rw [ht]; rfl⟩
  | .call ht _ _ _ => ⟨_, _, rfl, by rw [ht]; rfl⟩
  | .list ht _ _ => ⟨_, _, rfl, by rw [ht]; rfl⟩
  | .group ht _ _ => ⟨_, _, rfl, by rw [ht]; rfl⟩

theorem Chain.begins {levels dots : Nat} {tokens rest : List Token} {e : Expr} :
    Chain levels dots tokens rest e → ∃ t tail, tokens = t :: tail ∧ Grammar.begins t.kind = true
  | .receiver h => h.begins
  | .method hreceiver _ _ _ _ _ _ => Chain.begins hreceiver

theorem Operands.begins {levels pluses : Nat} {tokens rest : List Token} {e : Expr} :
    Operands levels pluses tokens rest e → ∃ t tail, tokens = t :: tail ∧ Grammar.begins t.kind = true
  | .first h => h.begins
  | .plus hleft _ _ _ => Operands.begins hleft

theorem Expression.begins {levels : Nat} {tokens rest : List Token} {e : Expr} :
    Expression levels tokens rest e → ∃ t tail, tokens = t :: tail ∧ Grammar.begins t.kind = true
  | .operands _ h => h.begins

/-- No expression begins with a token of a kind that an expression cannot begin with. -/
theorem Expression.notAhead {levels : Nat} {tokens rest : List Token} {e : Expr}
    (h : Expression levels tokens rest e) {kind : TokenKind} (hkind : Grammar.begins kind = false) :
    NotAhead kind tokens := by
  obtain ⟨t, tail, rfl, ht⟩ := h.begins
  intro first hfirst heq
  cases hfirst
  rw [heq, hkind] at ht
  cases ht

/-- Kinds of the tokens that a program can begin with. -/
def beginsProgram (kind : TokenKind) : Bool :=
  begins kind || kind = .declare || kind = .semicolon

theorem Bare.begins {tokens rest : List Token} {stmt : Stmt} (h : Bare tokens rest stmt) :
    ∃ t tail, tokens = t :: tail ∧ (Grammar.begins t.kind = true ∨ t.kind = .declare) := by
  cases h with
  | bind hdeclare _ _ _ => exact ⟨_, _, rfl, Or.inr hdeclare⟩
  | expr hvalue =>
      obtain ⟨t, tail, htokens, ht⟩ := hvalue.begins
      exact ⟨t, tail, htokens, Or.inl ht⟩

theorem Statement.begins {tokens rest : List Token} {stmt : Stmt} (h : Statement tokens rest stmt) :
    ∃ t tail, tokens = t :: tail ∧ (Grammar.begins t.kind = true ∨ t.kind = .declare) := by
  cases h with
  | ended h _ => exact h.begins
  | unended h _ => exact h.begins

theorem Program.notAhead {tokens : List Token} {stmts : List Stmt} (h : Program tokens stmts)
    {kind : TokenKind} (hkind : beginsProgram kind = false) : NotAhead kind tokens := by
  rw [beginsProgram, Bool.or_eq_false_iff, Bool.or_eq_false_iff] at hkind
  obtain ⟨⟨hexpr, hdeclare⟩, hsemicolon⟩ := hkind
  intro first hfirst heq
  cases h with
  | nil => cases hfirst
  | semicolon ht _ =>
      cases hfirst
      simp [← heq, ht] at hsemicolon
  | statement hstmt _ =>
      obtain ⟨t, tail, rfl, ht⟩ := hstmt.begins
      cases hfirst
      rw [heq] at ht
      rcases ht with ht | ht
      · rw [hexpr] at ht
        cases ht
      · simp [ht] at hdeclare

/-! ### Phrases with more tokens behind them -/

/-- More tokens behind those that are left open no call: a name at the very end stays a name. -/
def Extends (rest more : List Token) : Prop :=
  rest = [] → NotAhead .parenOpen more

theorem extends_cons (t : Token) (rest more : List Token) : Extends (t :: rest) more :=
  fun h => absurd h (List.cons_ne_nil t rest)

theorem NotAhead.append {rest more : List Token} (h : NotAhead .parenOpen rest)
    (hmore : Extends rest more) : NotAhead .parenOpen (rest ++ more) := by
  cases rest with
  | nil => exact hmore rfl
  | cons t rest => exact h

mutual

theorem Expression.append {levels : Nat} {tokens rest more : List Token} {e : Expr}
    (hmore : Extends rest more) :
    Expression levels tokens rest e → Expression levels (tokens ++ more) (rest ++ more) e
  | .operands hlevels h => .operands hlevels (Operands.append hmore h)

theorem Operands.append {levels pluses : Nat} {tokens rest more : List Token} {e : Expr}
    (hmore : Extends rest more) :
    Operands levels pluses tokens rest e → Operands levels pluses (tokens ++ more) (rest ++ more) e
  | .first h => .first (Chain.append hmore h)
  | .plus hleft hplus hlevels hright =>
      .plus (Operands.append (extends_cons _ _ more) hleft) hplus hlevels (Chain.append hmore hright)

theorem Chain.append {levels dots : Nat} {tokens rest more : List Token} {e : Expr}
    (hmore : Extends rest more) :
    Chain levels dots tokens rest e → Chain levels dots (tokens ++ more) (rest ++ more) e
  | .receiver h => .receiver (Primary.append hmore h)
  | .method hreceiver hdot hlevels hname hopening hargs hclosing =>
      .method (Chain.append (extends_cons _ _ more) hreceiver) hdot hlevels hname hopening
        (Items.append (extends_cons _ _ more) hargs) hclosing

theorem Primary.append {levels : Nat} {tokens rest more : List Token} {e : Expr}
    (hmore : Extends rest more) :
    Primary levels tokens rest e → Primary levels (tokens ++ more) (rest ++ more) e
  | .text ht => .text ht
  | .number ht => .number ht
  | .yes ht => .yes ht
  | .no ht => .no ht
  | .reference ht hrest => .reference ht (hrest.append hmore)
  | .call ht hopening hargs hclosing =>
      .call ht hopening (Items.append (extends_cons _ _ more) hargs) hclosing
  | .list ht hitems hclosing => .list ht (Items.append (extends_cons _ _ more) hitems) hclosing
  | .group ht hinner hclosing => .group ht (Expression.append (extends_cons _ _ more) hinner) hclosing

theorem Items.append {levels : Nat} {tokens rest more : List Token} {items : List Expr}
    (hmore : Extends rest more) :
    Items levels tokens rest items → Items levels (tokens ++ more) (rest ++ more) items
  | .none => .none
  | .some h => .some (Separated.append hmore h)
  | .trailing h hcomma => .trailing (Separated.append (extends_cons _ _ more) h) hcomma

theorem Separated.append {levels : Nat} {tokens rest more : List Token} {items : List Expr}
    (hmore : Extends rest more) :
    Separated levels tokens rest items → Separated levels (tokens ++ more) (rest ++ more) items
  | .last h => .last (Expression.append hmore h)
  | .more hitem hcomma h =>
      .more (Expression.append (extends_cons _ _ more) hitem) hcomma (Separated.append hmore h)

end

theorem Bare.append {tokens rest more : List Token} {stmt : Stmt} (hmore : Extends rest more)
    (h : Bare tokens rest stmt) : Bare (tokens ++ more) (rest ++ more) stmt := by
  cases h with
  | bind hdeclare hname hequals hvalue => exact .bind hdeclare hname hequals (hvalue.append hmore)
  | expr hvalue => exact .expr (hvalue.append hmore)

/-! ### Phrases of any length -/

theorem Items.cons {levels : Nat} {tokens tail rest : List Token} {comma : Token} {item : Expr}
    {items : List Expr} (hitem : Expression levels tokens (comma :: tail) item)
    (hcomma : comma.kind = .comma) (h : Items levels tail rest items) :
    Items levels tokens rest (item :: items) := by
  cases h with
  | none => exact .trailing (.last hitem) hcomma
  | some h => exact .some (.more hitem hcomma h)
  | trailing h hlast => exact .trailing (.more hitem hcomma h) hlast

/-- Any number of expressions, each with a comma behind it, are a list. -/
theorem items_flatMap {levels : Nat} {parts : List (List Token × Expr)}
    (h : ∀ part ∈ parts, ∃ comma : Token, comma.kind = .comma ∧
      Expression levels part.1 [comma] part.2) :
    Items levels (parts.flatMap (·.1)) [] (parts.map (·.2)) := by
  induction parts with
  | nil => exact .none
  | cons part parts ih =>
      rw [List.forall_mem_cons] at h
      obtain ⟨⟨comma, hcomma, hpart⟩, hparts⟩ := h
      exact .cons (hpart.append (extends_cons comma [] _)) hcomma (ih hparts)

/-- Any number of statements, each with a semicolon behind it, are a program. -/
theorem program_flatMap {parts : List (List Token × Stmt)}
    (h : ∀ part ∈ parts, ∃ semicolon : Token, semicolon.kind = .semicolon ∧
      Bare part.1 [semicolon] part.2) :
    Program (parts.flatMap (·.1)) (parts.map (·.2)) := by
  induction parts with
  | nil => exact .nil
  | cons part parts ih =>
      rw [List.forall_mem_cons] at h
      obtain ⟨⟨semicolon, hsemicolon, hpart⟩, hparts⟩ := h
      exact .statement (.ended (hpart.append (extends_cons semicolon [] _)) hsemicolon) (ih hparts)

end AssetPipeline.Script.Grammar
