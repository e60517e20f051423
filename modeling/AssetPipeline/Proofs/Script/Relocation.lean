import AssetPipeline.Proofs.Script.Equations
import AssetPipeline.Script.Evaluation

/-! Descriptions at other places. No step of the parser or of the evaluation looks at an offset; it only
hands it on to an expression or a fault. So where the tokens stand elsewhere, the expressions and the
fault are those at the new places, and all decisions and declarations are the same. -/

namespace AssetPipeline.Script

variable {α β γ δ : Type}

/-! ### Other places -/

def Token.moved (f : Nat → Nat) (t : Token) : Token :=
  { t with start := f t.start }

def Fault.moved (f : Nat → Nat) (fault : Fault) : Fault :=
  { fault with offset := f fault.offset }

mutual

def Expr.moved (f : Nat → Nat) : Expr → Expr
  | .text offset value => .text (f offset) value
  | .number offset value => .number (f offset) value
  | .boolean offset value => .boolean (f offset) value
  | .reference offset name => .reference (f offset) name
  | .list offset items => .list (f offset) (Expr.allMoved f items)
  | .call offset function args => .call (f offset) function (Expr.allMoved f args)
  | .method offset receiver name args =>
    .method (f offset) (receiver.moved f) name (Expr.allMoved f args)
  | .sum offset left right => .sum (f offset) (left.moved f) (right.moved f)

def Expr.allMoved (f : Nat → Nat) : List Expr → List Expr
  | [] => []
  | item :: items => item.moved f :: Expr.allMoved f items

end

def Stmt.moved (f : Nat → Nat) : Stmt → Stmt
  | .bind name value => .bind name (value.moved f)
  | .expr value => .expr (value.moved f)

variable {f : Nat → Nat}

@[simp] theorem Token.kind_moved (t : Token) : (t.moved f).kind = t.kind := rfl

@[simp] theorem Token.text_moved (t : Token) : (t.moved f).text = t.text := rfl

@[simp] theorem Token.start_moved (t : Token) : (t.moved f).start = f t.start := rfl

@[simp] theorem Expr.offset_moved (e : Expr) : (e.moved f).offset = f e.offset := by
  cases e <;> rfl

theorem Expr.moved_withOffset (offset : Nat) (e : Expr) :
    (e.withOffset offset).moved f = (e.moved f).withOffset (f offset) := by
  cases e <;> rfl

/-! ### Outcomes -/

/-- The same outcome at other places: `g` says what becomes of a value. -/
def relocate (f : Nat → Nat) (g : α → β) (x : Except Fault α) : Except Fault β :=
  (x.map g).mapError (Fault.moved f)

@[simp] theorem relocate_ok (g : α → β) (a : α) : relocate f g (.ok a) = .ok (g a) := rfl

@[simp] theorem relocate_error (g : α → β) (fault : Fault) :
    relocate f g (.error fault) = .error (fault.moved f) := rfl

/-- Steps that go together at both places go together one after the other. What the second is given is
what the first yields. -/
theorem bind_eq_relocate {x : Except Fault α} {x' : Except Fault β} {g : α → β}
    {k : α → Except Fault γ} {k' : β → Except Fault δ} {g' : γ → δ} (hx : x' = relocate f g x)
    (hk : ∀ a, x = .ok a → k' (g a) = relocate f g' (k a)) :
    x' >>= k' = relocate f g' (x >>= k) := by
  rw [hx]
  cases x with
  | error fault => rfl
  | ok a => exact hk a rfl

namespace Parser

variable {tokens tail rest : List Token} {stop depth : Nat}

/-- A phrase and the tokens behind it, at other places. -/
def moveTaken (f : Nat → Nat) (g : α → β) : α × List Token → β × List Token :=
  Prod.map g (List.map (Token.moved f))

theorem nextOffset_moved (f : Nat → Nat) (stop : Nat) (tokens : List Token) :
    nextOffset (f stop) (tokens.map (Token.moved f)) = f (nextOffset stop tokens) := by
  cases tokens <;> rfl

theorem unexpected_moved (f : Nat → Nat) (stop : Nat) (wanted : Expectation) (tokens : List Token) :
    unexpected (f stop) wanted (tokens.map (Token.moved f)) =
      (unexpected stop wanted tokens).moved f := by
  cases tokens <;> rfl

theorem enter_moved (f : Nat → Nat) (depth offset : Nat) :
    enter depth (f offset) = relocate f id (enter depth offset) := by
  rw [enter, enter]
  split_ifs <;> rfl

theorem notAhead_moved {kind : TokenKind} (h : Grammar.NotAhead kind tokens) :
    Grammar.NotAhead kind (tokens.map (Token.moved f)) := by
  cases tokens with
  | nil => exact h
  | cons t tail =>
      rw [List.map_cons]
      exact Grammar.notAhead_of_kind (t := t.moved f) rfl (h t rfl) _

theorem taken_expect_of_notAhead {kind : TokenKind} {wanted : Expectation}
    (h : Grammar.NotAhead kind tokens) :
    taken (expect stop kind wanted tokens) = .error (unexpected stop wanted tokens) := by
  rw [expect, take?_of_notAhead h]
  rfl

theorem taken_expect_moved (f : Nat → Nat) (stop : Nat) (kind : TokenKind) (wanted : Expectation)
    (tokens : List Token) :
    taken (expect (f stop) kind wanted (tokens.map (Token.moved f))) =
      relocate f (moveTaken f (Token.moved f)) (taken (expect stop kind wanted tokens)) := by
  rcases ahead_or_notAhead kind tokens with ⟨t, tail, rfl, ht⟩ | hnot
  · rw [taken_expect_eq_ok_iff.mpr ⟨rfl, ht⟩]
    exact taken_expect_eq_ok_iff.mpr ⟨rfl, ht⟩
  · rw [taken_expect_of_notAhead hnot, taken_expect_of_notAhead (notAhead_moved hnot),
      unexpected_moved]
    rfl

theorem taken_primary_unexpected (h : ∀ t ∈ tokens.head?, Grammar.begins t.kind = false) :
    taken (primary stop depth tokens) = .error (unexpected stop .expression tokens) := by
  have hbegins : ∀ t tail, tokens = t :: tail → Grammar.begins t.kind ≠ true := by
    rintro t tail rfl
    rw [h t rfl]
    exact Bool.false_ne_true
  rw [primary]
  · rfl
  all_goals
    intros
    rename_i htokens
    exact hbegins _ _ htokens rfl

/-! ### Expressions -/

mutual

theorem taken_expr_moved (f : Nat → Nat) (stop depth : Nat) (tokens : List Token) :
    taken (expr (f stop) depth (tokens.map (Token.moved f))) =
      relocate f (moveTaken f (Expr.moved f)) (taken (expr stop depth tokens)) := by
  rw [taken_expr, taken_expr, nextOffset_moved]
  refine bind_eq_relocate (enter_moved f depth _) fun next _ => ?_
  refine bind_eq_relocate (taken_chain_moved f stop next tokens) fun read hread => ?_
  have hshorter := length_lt_of_taken hread
  exact takenMany_summands_moved f stop next read.1 read.2
termination_by (tokens.length, 3)

theorem takenMany_summands_moved (f : Nat → Nat) (stop depth : Nat) (left : Expr)
    (tokens : List Token) :
    takenMany (summands (f stop) depth (left.moved f) (tokens.map (Token.moved f))) =
      relocate f (moveTaken f (Expr.moved f)) (takenMany (summands stop depth left tokens)) := by
  rcases ahead_or_notAhead .plus tokens with ⟨plus, tail, htokens, hplus⟩ | hend
  · have htail : tail.length < tokens.length := by simp [htokens]
    have hplus' : (plus.moved f).kind = .plus := hplus
    rw [htokens, List.map_cons, takenMany_summands_plus hplus, takenMany_summands_plus hplus',
      Expr.offset_moved]
    refine bind_eq_relocate (enter_moved f depth _) fun next _ => ?_
    refine bind_eq_relocate (taken_chain_moved f stop next tail) fun read hread => ?_
    have hshorter := length_lt_of_taken hread
    exact takenMany_summands_moved f stop next (.sum left.offset left read.1) read.2
  · rw [takenMany_summands_end hend, takenMany_summands_end (notAhead_moved hend)]
    rfl
termination_by (tokens.length, 0)

theorem taken_chain_moved (f : Nat → Nat) (stop depth : Nat) (tokens : List Token) :
    taken (chain (f stop) depth (tokens.map (Token.moved f))) =
      relocate f (moveTaken f (Expr.moved f)) (taken (chain stop depth tokens)) := by
  rw [taken_chain, taken_chain]
  refine bind_eq_relocate (taken_primary_moved f stop depth tokens) fun read hread => ?_
  have hshorter := length_lt_of_taken hread
  exact takenMany_links_moved f stop depth read.1 read.2
termination_by (tokens.length, 2)

theorem takenMany_links_moved (f : Nat → Nat) (stop depth : Nat) (receiver : Expr)
    (tokens : List Token) :
    takenMany (links (f stop) depth (receiver.moved f) (tokens.map (Token.moved f))) =
      relocate f (moveTaken f (Expr.moved f)) (takenMany (links stop depth receiver tokens)) := by
  rcases ahead_or_notAhead .dot tokens with ⟨dot, tail, htokens, hdot⟩ | hend
  · have htail : tail.length < tokens.length := by simp [htokens]
    have hdot' : (dot.moved f).kind = .dot := hdot
    rw [htokens, List.map_cons, takenMany_links_dot hdot, takenMany_links_dot hdot',
      Expr.offset_moved]
    refine bind_eq_relocate (enter_moved f depth _) fun next _ => ?_
    refine bind_eq_relocate (taken_expect_moved f stop .name .methodName tail) fun method hmethod => ?_
    have hafterName := length_lt_of_taken hmethod
    refine bind_eq_relocate (taken_expect_moved f stop .parenOpen .argumentsOfMethod method.2)
      fun opening hopening => ?_
    have hafterOpening := length_lt_of_taken hopening
    refine bind_eq_relocate (taken_items_moved f stop next .parenClose opening.2) fun args hargs => ?_
    have hafterArgs := length_lt_of_taken hargs
    exact takenMany_links_moved f stop next (.method method.1.start receiver method.1.text args.1) args.2
  · rw [takenMany_links_end hend, takenMany_links_end (notAhead_moved hend)]
    rfl
termination_by (tokens.length, 0)

theorem taken_primary_moved (f : Nat → Nat) (stop depth : Nat) (tokens : List Token) :
    taken (primary (f stop) depth (tokens.map (Token.moved f))) =
      relocate f (moveTaken f (Expr.moved f)) (taken (primary stop depth tokens)) := by
  match tokens with
  | [] =>
      have hnone : ∀ t ∈ ([] : List Token).head?, Grammar.begins t.kind = false := by simp
      rw [List.map_nil, taken_primary_unexpected hnone, taken_primary_unexpected hnone]
      rfl
  | t :: tail =>
      rw [List.map_cons]
      cases hkind : t.kind with
      | text =>
          rw [taken_primary_text hkind, taken_primary_text (t := t.moved f) hkind]
          rfl
      | number =>
          rw [taken_primary_number hkind, taken_primary_number (t := t.moved f) hkind]
          rfl
      | yes =>
          rw [taken_primary_yes hkind, taken_primary_yes (t := t.moved f) hkind]
          rfl
      | no =>
          rw [taken_primary_no hkind, taken_primary_no (t := t.moved f) hkind]
          rfl
      | name =>
          rcases ahead_or_notAhead .parenOpen tail with ⟨opening, inside, rfl, hopening⟩ | hend
          · have hopening' : (opening.moved f).kind = .parenOpen := hopening
            rw [taken_primary_call hkind hopening, List.map_cons,
              taken_primary_call (t := t.moved f) hkind hopening']
            exact bind_eq_relocate (taken_items_moved f stop depth .parenClose inside) fun _ _ => rfl
          · rw [taken_primary_reference hkind hend,
              taken_primary_reference (t := t.moved f) hkind (notAhead_moved hend)]
            rfl
      | bracketOpen =>
          rw [taken_primary_list hkind, taken_primary_list (t := t.moved f) hkind]
          exact bind_eq_relocate (taken_items_moved f stop depth .bracketClose tail) fun _ _ => rfl
      | parenOpen =>
          rw [taken_primary_group hkind, taken_primary_group (t := t.moved f) hkind]
          refine bind_eq_relocate (taken_expr_moved f stop depth tail) fun inner _ => ?_
          refine bind_eq_relocate (taken_expect_moved f stop .parenClose (.token .parenClose) inner.2)
            fun closing _ => ?_
          rw [Token.start_moved, moveTaken, Prod.map_fst, ← Expr.moved_withOffset]
          rfl
      | _ =>
          have hbegins : ∀ u ∈ (t :: tail).head?, Grammar.begins u.kind = false := by
            intro u hu
            cases hu
            rw [hkind]
            rfl
          rw [taken_primary_unexpected hbegins, ← List.map_cons, taken_primary_unexpected,
            unexpected_moved]
          · rfl
          · intro u hu
            cases hu
            exact hbegins t rfl
termination_by (tokens.length, 1)

theorem taken_items_moved (f : Nat → Nat) (stop depth : Nat) (close : TokenKind)
    (tokens : List Token) :
    taken (items (f stop) depth close (tokens.map (Token.moved f))) =
      relocate f (moveTaken f (Expr.allMoved f)) (taken (items stop depth close tokens)) := by
  rcases ahead_or_notAhead close tokens with ⟨closing, tail, rfl, hclosing⟩ | hopen
  · rw [taken_items_close hclosing, List.map_cons, taken_items_close (t := closing.moved f) hclosing]
    rfl
  · rw [taken_items hopen, taken_items (notAhead_moved hopen)]
    refine bind_eq_relocate (taken_expr_moved f stop depth tokens) fun first hfirst => ?_
    have hshorter := length_lt_of_taken hfirst
    rw [moveTaken, Prod.map_snd]
    rcases ahead_or_notAhead .comma first.2 with ⟨comma, tail, htail, hcomma⟩ | hlast
    · have hless : tail.length < tokens.length := by
        rw [htail, List.length_cons] at hshorter
        omega
      have hcomma' : (comma.moved f).kind = .comma := hcomma
      rw [htail, List.map_cons, afterItem_comma hcomma, afterItem_comma hcomma']
      exact bind_eq_relocate (taken_items_moved f stop depth close tail) fun _ _ => rfl
    · rw [afterItem_of_notAhead hlast, afterItem_of_notAhead (notAhead_moved hlast)]
      refine bind_eq_relocate (g := moveTaken f (Expr.allMoved f)) ?_ fun _ _ => rfl
      exact bind_eq_relocate (taken_expect_moved f stop close (.token close) first.2) fun _ _ => rfl
termination_by (tokens.length, 4)

end

/-! ### Statements and programs -/

theorem taken_bare_moved (f : Nat → Nat) (stop : Nat) (tokens : List Token) :
    taken (statement.bare (f stop) (tokens.map (Token.moved f))) =
      relocate f (moveTaken f (Stmt.moved f)) (taken (statement.bare stop tokens)) := by
  rcases ahead_or_notAhead .declare tokens with ⟨declare, tail, rfl, hdeclare⟩ | hexpr
  · have hdeclare' : (declare.moved f).kind = .declare := hdeclare
    rw [List.map_cons, taken_bare_declare hdeclare, taken_bare_declare hdeclare']
    refine bind_eq_relocate (taken_expect_moved f stop .name .bindingName tail) fun name _ => ?_
    refine bind_eq_relocate (taken_expect_moved f stop .equals (.token .equals) name.2)
      fun equals _ => ?_
    exact bind_eq_relocate (taken_expr_moved f stop 0 equals.2) fun _ _ => rfl
  · rw [taken_bare_expr hexpr, taken_bare_expr (notAhead_moved hexpr)]
    exact bind_eq_relocate (taken_expr_moved f stop 0 tokens) fun _ _ => rfl

/-- The tokens behind a statement, without the semicolon that may end it. -/
def dropSemicolon (tokens : List Token) : List Token :=
  match take? .semicolon tokens with
  | some semicolon => semicolon.rest
  | none => tokens

theorem dropSemicolon_moved (f : Nat → Nat) (tokens : List Token) :
    dropSemicolon (tokens.map (Token.moved f)) = (dropSemicolon tokens).map (Token.moved f) := by
  rcases ahead_or_notAhead .semicolon tokens with ⟨semicolon, tail, rfl, hsemicolon⟩ | hend
  · rw [List.map_cons, dropSemicolon, dropSemicolon, take?_cons_of_eq hsemicolon,
      take?_cons_of_eq (t := semicolon.moved f) hsemicolon]
  · rw [dropSemicolon, dropSemicolon, take?_of_notAhead hend, take?_of_notAhead (notAhead_moved hend)]

theorem taken_statement_drop : taken (statement stop tokens) = (do
    let stmt ← taken (statement.bare stop tokens)
    return (stmt.1, dropSemicolon stmt.2)) := by
  rw [taken_statement]
  refine bind_congr fun stmt => ?_
  rw [dropSemicolon]
  cases take? .semicolon stmt.2 <;> rfl

theorem taken_statement_moved (f : Nat → Nat) (stop : Nat) (tokens : List Token) :
    taken (statement (f stop) (tokens.map (Token.moved f))) =
      relocate f (moveTaken f (Stmt.moved f)) (taken (statement stop tokens)) := by
  rw [taken_statement_drop, taken_statement_drop]
  refine bind_eq_relocate (taken_bare_moved f stop tokens) fun read _ => ?_
  rw [moveTaken, Prod.map_snd, dropSemicolon_moved]
  rfl

theorem program_moved (f : Nat → Nat) (stop : Nat) (tokens : List Token) :
    program (f stop) (tokens.map (Token.moved f)) =
      relocate f (List.map (Stmt.moved f)) (program stop tokens) := by
  match tokens with
  | [] =>
      rw [List.map_nil, program, program]
      rfl
  | t :: tail =>
      by_cases ht : t.kind = .semicolon
      · rw [List.map_cons, program_semicolon ht, program_semicolon (t := t.moved f) ht]
        exact program_moved f stop tail
      · rw [List.map_cons, program_statement ht, program_statement (t := t.moved f) ht,
          ← List.map_cons]
        refine bind_eq_relocate (taken_statement_moved f stop (t :: tail)) fun stmt hstmt => ?_
        have hshorter := length_lt_of_taken hstmt
        exact bind_eq_relocate (program_moved f stop stmt.2) fun _ _ => rfl
termination_by tokens.length
decreasing_by
  · exact Nat.lt_succ_self _
  · exact hshorter

end Parser

/-! ### Evaluation -/

theorem atOffset_moved {α : Type} (f : Nat → Nat) (offset : Nat) (step : Except Problem α)
    (d : Declarations) :
    (atOffset (f offset) step).run d = relocate f id ((atOffset offset step).run d) := by
  cases step <;> rfl

mutual

theorem eval_moved (f : Nat → Nat) (bindings : Bindings) (e : Expr) (d : Declarations) :
    (eval bindings (e.moved f)).run d = relocate f id ((eval bindings e).run d) := by
  match e with
  | .text offset value => rw [Expr.moved, eval, eval]; rfl
  | .number offset value => rw [Expr.moved, eval, eval]; rfl
  | .boolean offset value => rw [Expr.moved, eval, eval]; rfl
  | .reference offset name =>
      rw [Expr.moved, eval, eval]
      exact atOffset_moved f offset _ d
  | .list offset items =>
      rw [Expr.moved, eval, eval, StateT.run_bind, StateT.run_bind]
      exact bind_eq_relocate (evalAll_moved f bindings items d) fun _ _ => rfl
  | .sum offset left right =>
      rw [Expr.moved, eval, eval, StateT.run_bind, StateT.run_bind]
      refine bind_eq_relocate (eval_moved f bindings left d) fun first _ => ?_
      refine bind_eq_relocate (eval_moved f bindings right first.2) fun second _ => ?_
      exact atOffset_moved f offset _ _
  | .call offset function args =>
      rw [Expr.moved, eval, eval]
      cases Verb.ofName? function with
      | none => rfl
      | some verb =>
          dsimp only
          rw [StateT.run_bind, StateT.run_bind]
          refine bind_eq_relocate (evalAll_moved f bindings args d) fun values _ => ?_
          exact bind_eq_relocate (atOffset_moved f offset _ values.2) fun _ _ => rfl
  | .method offset receiver name args =>
      rw [Expr.moved, eval, eval, StateT.run_bind, StateT.run_bind]
      refine bind_eq_relocate (eval_moved f bindings receiver d) fun target _ => ?_
      refine bind_eq_relocate (evalAll_moved f bindings args target.2) fun values _ => ?_
      exact bind_eq_relocate (atOffset_moved f offset _ values.2) fun _ _ => rfl

theorem evalAll_moved (f : Nat → Nat) (bindings : Bindings) (items : List Expr) (d : Declarations) :
    (evalAll bindings (Expr.allMoved f items)).run d =
      relocate f id ((evalAll bindings items).run d) := by
  match items with
  | [] => rw [Expr.allMoved, evalAll]; rfl
  | item :: items =>
      rw [Expr.allMoved, evalAll, evalAll, StateT.run_bind, StateT.run_bind]
      refine bind_eq_relocate (eval_moved f bindings item d) fun first _ => ?_
      exact bind_eq_relocate (evalAll_moved f bindings items first.2) fun _ _ => rfl

end

theorem run_moved (f : Nat → Nat) (bindings : Bindings) (stmts : List Stmt) (d : Declarations) :
    (run bindings (stmts.map (Stmt.moved f))).run d = relocate f id ((run bindings stmts).run d) := by
  induction stmts generalizing bindings d with
  | nil => rfl
  | cons stmt stmts ih =>
      cases stmt with
      | bind name value =>
          rw [List.map_cons, Stmt.moved, run, run, StateT.run_bind, StateT.run_bind]
          exact bind_eq_relocate (eval_moved f bindings value d) fun bound _ =>
            ih ((name, bound.1) :: bindings) bound.2
      | expr value =>
          rw [List.map_cons, Stmt.moved, run, run, StateT.run_bind, StateT.run_bind]
          exact bind_eq_relocate (eval_moved f bindings value d) fun bound _ => ih bindings bound.2

/-- What tokens declare that end at byte `stop`. -/
def declared (stop : Nat) (tokens : List Token) : Except Fault Declarations :=
  Parser.program stop tokens >>= declarations

/-- Tokens at other places declare the same, and what is wrong with them is wrong at its new place. -/
theorem declared_moved (f : Nat → Nat) (stop : Nat) (tokens : List Token) :
    declared (f stop) (tokens.map (Token.moved f)) = relocate f id (declared stop tokens) := by
  refine bind_eq_relocate (Parser.program_moved f stop tokens) fun stmts _ => ?_
  exact bind_eq_relocate (run_moved f [] stmts {}) fun _ _ => rfl

/-- What is wrong is wrong at a token or at the end: a fault elsewhere could be moved while all tokens
stay, but what comes of the tokens stays with them. -/
theorem offset_of_declared {stop : Nat} {tokens : List Token} {fault : Fault}
    (h : declared stop tokens = .error fault) :
    fault.offset = stop ∨ ∃ t ∈ tokens, t.start = fault.offset := by
  by_contra hnone
  rw [not_or] at hnone
  obtain ⟨hstop, htokens⟩ := hnone
  let f : Nat → Nat := fun offset => if offset = fault.offset then offset + 1 else offset
  have hfixed : tokens.map (Token.moved f) = tokens := by
    refine (List.map_congr_left fun t ht => ?_).trans (List.map_id tokens)
    have hstart : f t.start = t.start := if_neg fun heq => htokens ⟨t, ht, heq⟩
    rw [Token.moved, hstart]
    rfl
  have hmoved := declared_moved f stop tokens
  have hend : f stop = stop := if_neg (Ne.symm hstop)
  rw [hfixed, hend, h, relocate_error] at hmoved
  have hoffset : fault.offset = f fault.offset := congrArg Fault.offset (Except.error.inj hmoved)
  have hnext : f fault.offset = fault.offset + 1 := if_pos rfl
  omega

end AssetPipeline.Script
