import AssetPipeline.Proofs.Outcome
import AssetPipeline.Proofs.Script.Grammar

/-! The parser, one equation for each decision it takes. They are stated without the proofs that it gets
on, which its own definition carries along, and hold as far as the next tokens decide. -/

namespace AssetPipeline.Script

namespace Parser

variable {α : Type} {tokens rest tail : List Token} {stop depth : Nat} {e left receiver : Expr}

/-- What was read and what is left, without the proof that it is less. -/
def taken (x : Except Fault (Read tokens α)) : Except Fault (α × List Token) :=
  x.map fun read => (read.value, read.rest)

def takenMany (x : Except Fault (ReadMany tokens α)) : Except Fault (α × List Token) :=
  x.map fun read => (read.value, read.rest)

theorem length_lt_of_taken {x : Except Fault (Read tokens α)} {a : α} (h : taken x = .ok (a, rest)) :
    rest.length < tokens.length := by
  cases x with
  | error fault => cases h
  | ok read =>
      obtain ⟨value, left, hshorter⟩ := read
      cases h
      exact hshorter

/-! ### Tokens -/

theorem enter_eq_ok_iff {offset next : Nat} :
    enter depth offset = .ok next ↔ depth + 1 ≤ maxDepth ∧ next = depth + 1 := by
  rw [enter]
  split_ifs with hdeep
  · simp only [false_iff, not_and]
    omega
  · simp only [Except.ok.injEq]
    omega

theorem take?_cons_of_eq {kind : TokenKind} {t : Token} (ht : t.kind = kind) (tail : List Token) :
    take? kind (t :: tail) = some ⟨t, tail, Nat.lt_succ_self tail.length⟩ := by
  rw [take?, if_pos ht]

theorem take?_of_notAhead {kind : TokenKind} (h : Grammar.NotAhead kind tokens) :
    take? kind tokens = none := by
  cases tokens with
  | nil => rfl
  | cons t tail => rw [take?, if_neg (h t rfl)]

/-- The next token is of the wanted kind or it is not. -/
theorem ahead_or_notAhead (kind : TokenKind) (tokens : List Token) :
    (∃ t tail, tokens = t :: tail ∧ t.kind = kind) ∨ Grammar.NotAhead kind tokens := by
  cases tokens with
  | nil => exact Or.inr fun t ht => absurd ht (by simp)
  | cons t tail =>
      by_cases ht : t.kind = kind
      · exact Or.inl ⟨t, tail, rfl, ht⟩
      · refine Or.inr fun first hfirst => ?_
        cases hfirst
        exact ht

theorem taken_expect_eq_ok_iff {kind : TokenKind} {wanted : Expectation} {t : Token} :
    taken (expect stop kind wanted tokens) = .ok (t, rest) ↔ tokens = t :: rest ∧ t.kind = kind := by
  rw [expect]
  rcases ahead_or_notAhead kind tokens with ⟨t', tail, rfl, ht'⟩ | hnot
  · rw [take?_cons_of_eq ht']
    constructor
    · intro h
      cases h
      exact ⟨rfl, ht'⟩
    · rintro ⟨h, -⟩
      cases h
      rfl
  · rw [take?_of_notAhead hnot]
    constructor
    · intro h
      cases h
    · rintro ⟨rfl, ht⟩
      exact absurd ht (hnot t rfl)

/-! ### Equations -/

theorem taken_expr : taken (expr stop depth tokens) = (do
    let depth ← enter depth (nextOffset stop tokens)
    let first ← taken (chain stop depth tokens)
    takenMany (summands stop depth first.1 first.2)) := by
  rw [expr]
  refine map_bind fun depth => map_bind_map fun read => ?_
  obtain ⟨first, mid, hmid⟩ := read
  dsimp only
  cases summands stop depth first mid <;> rfl

theorem takenMany_summands_plus {plus : Token} (hplus : plus.kind = .plus) :
    takenMany (summands stop depth left (plus :: tail)) = (do
      let depth ← enter depth left.offset
      let right ← taken (chain stop depth tail)
      takenMany (summands stop depth (.sum left.offset left right.1) right.2)) := by
  obtain ⟨kind, text, start⟩ := plus
  cases hplus
  rw [summands]
  refine map_bind fun depth => map_bind_map fun read => ?_
  obtain ⟨right, mid, hmid⟩ := read
  dsimp only
  cases summands stop depth (.sum left.offset left right) mid <;> rfl

theorem takenMany_summands_end (h : Grammar.NotAhead .plus tokens) :
    takenMany (summands stop depth left tokens) = .ok (left, tokens) := by
  rw [summands]
  · rfl
  · rintro text start tail rfl
    exact h _ rfl rfl

theorem taken_chain : taken (chain stop depth tokens) = (do
    let receiver ← taken (primary stop depth tokens)
    takenMany (links stop depth receiver.1 receiver.2)) := by
  rw [chain]
  refine map_bind_map fun read => ?_
  obtain ⟨receiver, mid, hmid⟩ := read
  dsimp only
  cases links stop depth receiver mid <;> rfl

theorem takenMany_links_dot {dot : Token} (hdot : dot.kind = .dot) :
    takenMany (links stop depth receiver (dot :: tail)) = (do
      let depth ← enter depth receiver.offset
      let method ← taken (expect stop .name .methodName tail)
      let opening ← taken (expect stop .parenOpen .argumentsOfMethod method.2)
      let args ← taken (items stop depth .parenClose opening.2)
      takenMany (links stop depth (.method method.1.start receiver method.1.text args.1) args.2)) := by
  obtain ⟨kind, text, start⟩ := dot
  cases hdot
  rw [links]
  refine map_bind fun depth => map_bind_map fun method => ?_
  obtain ⟨method, rest₁, h₁⟩ := method
  refine map_bind_map fun opening => map_bind_map fun args => ?_
  obtain ⟨args, rest₃, h₃⟩ := args
  dsimp only
  cases links stop depth (.method method.start receiver method.text args) rest₃ <;> rfl

theorem takenMany_links_end (h : Grammar.NotAhead .dot tokens) :
    takenMany (links stop depth receiver tokens) = .ok (receiver, tokens) := by
  rw [links]
  · rfl
  · rintro text start tail rfl
    exact h _ rfl rfl

theorem taken_items_close {close : TokenKind} {t : Token} (ht : t.kind = close) :
    taken (items stop depth close (t :: tail)) = .ok ([], tail) := by
  rw [items, take?_cons_of_eq ht]
  rfl

/-- What is read behind an item: the closing token, or a comma and more items. -/
def afterItem (stop depth : Nat) (close : TokenKind) (tokens : List Token) :
    Except Fault (List Expr × List Token) :=
  match take? .comma tokens with
  | some comma => taken (items stop depth close comma.rest)
  | none => do
    let closing ← taken (expect stop close (.token close) tokens)
    return ([], closing.2)

theorem taken_items {close : TokenKind} (h : Grammar.NotAhead close tokens) :
    taken (items stop depth close tokens) = (do
      let first ← taken (expr stop depth tokens)
      let others ← afterItem stop depth close first.2
      return (first.1 :: others.1, others.2)) := by
  rw [items, take?_of_notAhead h]
  refine map_bind_map fun read => ?_
  obtain ⟨first, mid, hmid⟩ := read
  dsimp only
  rw [afterItem]
  cases take? .comma mid with
  | none => cases expect stop close (.token close) mid <;> rfl
  | some comma => exact map_bind_map fun _ => rfl

theorem afterItem_comma {close : TokenKind} {comma : Token} (hcomma : comma.kind = .comma) :
    afterItem stop depth close (comma :: tail) = taken (items stop depth close tail) := by
  rw [afterItem, take?_cons_of_eq hcomma]

theorem afterItem_of_notAhead {close : TokenKind} (h : Grammar.NotAhead .comma tokens) :
    afterItem stop depth close tokens = (do
      let closing ← taken (expect stop close (.token close) tokens)
      return ([], closing.2)) := by
  rw [afterItem, take?_of_notAhead h]

section Primary

variable {t : Token}

theorem taken_primary_text (ht : t.kind = .text) :
    taken (primary stop depth (t :: tail)) = .ok (.text t.start (Literal.unquote t.text), tail) := by
  obtain ⟨kind, text, start⟩ := t
  cases ht
  rw [primary]
  rfl

theorem taken_primary_number (ht : t.kind = .number) :
    taken (primary stop depth (t :: tail)) = .ok (.number t.start (Literal.number t.text), tail) := by
  obtain ⟨kind, text, start⟩ := t
  cases ht
  rw [primary]
  rfl

theorem taken_primary_yes (ht : t.kind = .yes) :
    taken (primary stop depth (t :: tail)) = .ok (.boolean t.start true, tail) := by
  obtain ⟨kind, text, start⟩ := t
  cases ht
  rw [primary]
  rfl

theorem taken_primary_no (ht : t.kind = .no) :
    taken (primary stop depth (t :: tail)) = .ok (.boolean t.start false, tail) := by
  obtain ⟨kind, text, start⟩ := t
  cases ht
  rw [primary]
  rfl

theorem taken_primary_reference (ht : t.kind = .name) (h : Grammar.NotAhead .parenOpen tail) :
    taken (primary stop depth (t :: tail)) = .ok (.reference t.start t.text, tail) := by
  obtain ⟨kind, text, start⟩ := t
  cases ht
  rw [primary]
  · rfl
  · rintro text start tail rfl
    exact h _ rfl rfl

theorem taken_primary_call {opening : Token} (ht : t.kind = .name)
    (hopening : opening.kind = .parenOpen) :
    taken (primary stop depth (t :: opening :: tail)) = (do
      let args ← taken (items stop depth .parenClose tail)
      return (.call t.start t.text args.1, args.2)) := by
  obtain ⟨kind, text, start⟩ := t
  obtain ⟨kind', text', start'⟩ := opening
  cases ht
  cases hopening
  rw [primary]
  exact map_bind_map fun _ => rfl

theorem taken_primary_list (ht : t.kind = .bracketOpen) :
    taken (primary stop depth (t :: tail)) = (do
      let values ← taken (items stop depth .bracketClose tail)
      return (.list t.start values.1, values.2)) := by
  obtain ⟨kind, text, start⟩ := t
  cases ht
  rw [primary]
  exact map_bind_map fun _ => rfl

theorem taken_primary_group (ht : t.kind = .parenOpen) :
    taken (primary stop depth (t :: tail)) = (do
      let inner ← taken (expr stop depth tail)
      let closing ← taken (expect stop .parenClose (.token .parenClose) inner.2)
      return (inner.1.withOffset t.start, closing.2)) := by
  obtain ⟨kind, text, start⟩ := t
  cases ht
  rw [primary]
  exact map_bind_map fun _ => map_bind_map fun _ => rfl

/-- What can be read begins with a token that an expression can begin with. -/
theorem exists_of_taken_primary (h : taken (primary stop depth tokens) = .ok (e, rest)) :
    ∃ t tail, tokens = t :: tail ∧ Grammar.begins t.kind = true := by
  by_contra hnone
  have hbegins : ∀ t tail, tokens = t :: tail → Grammar.begins t.kind ≠ true :=
    fun t tail htokens ht => hnone ⟨t, tail, htokens, ht⟩
  rw [primary] at h
  · cases h
  all_goals
    intros
    rename_i htokens
    exact hbegins _ _ htokens rfl

end Primary

/-! ### Statements and programs -/

theorem taken_bare_declare {declare : Token} (hdeclare : declare.kind = .declare) :
    taken (statement.bare stop (declare :: tail)) = (do
      let name ← taken (expect stop .name .bindingName tail)
      let equals ← taken (expect stop .equals (.token .equals) name.2)
      let value ← taken (expr stop 0 equals.2)
      return (.bind name.1.text value.1, value.2)) := by
  rw [statement.bare, take?_cons_of_eq hdeclare]
  exact map_bind_map fun _ => map_bind_map fun _ => map_bind_map fun _ => rfl

theorem taken_bare_expr (h : Grammar.NotAhead .declare tokens) :
    taken (statement.bare stop tokens) = (do
      let value ← taken (expr stop 0 tokens)
      return (.expr value.1, value.2)) := by
  rw [statement.bare, take?_of_notAhead h]
  exact map_bind_map fun _ => rfl

theorem taken_statement : taken (statement stop tokens) = (do
    let stmt ← taken (statement.bare stop tokens)
    return (stmt.1, match take? .semicolon stmt.2 with
      | some semicolon => semicolon.rest
      | none => stmt.2)) := by
  rw [statement]
  refine map_bind_map fun read => ?_
  obtain ⟨stmt, mid, hmid⟩ := read
  dsimp only
  cases take? .semicolon mid <;> rfl

theorem program_semicolon {t : Token} (ht : t.kind = .semicolon) :
    program stop (t :: tail) = program stop tail := by
  rw [program, if_pos ht]

theorem program_statement {t : Token} (ht : t.kind ≠ .semicolon) :
    program stop (t :: tail) = (do
      let stmt ← taken (statement stop (t :: tail))
      let stmts ← program stop stmt.2
      return stmt.1 :: stmts) := by
  rw [program, if_neg ht]
  cases statement stop (t :: tail) <;> rfl

end Parser

end AssetPipeline.Script
