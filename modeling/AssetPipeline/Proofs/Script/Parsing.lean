import AssetPipeline.Proofs.Script.Equations

/-! Parsing reads what the grammar derives, and nothing else. Soundness follows the run of the parser,
which has fewer tokens left at each step; completeness follows the derivation. -/

namespace AssetPipeline.Script

namespace Parser

variable {tokens rest : List Token} {stop depth : Nat}

/-! ### Soundness

The operands and the calls that are read after a first part are put behind what was derived for it. -/

mutual

theorem expression_of_taken {stop depth : Nat} {tokens rest : List Token} {e : Expr}
    (h : taken (expr stop depth tokens) = .ok (e, rest)) :
    Grammar.Expression depth tokens rest e := by
  rw [taken_expr] at h
  obtain ⟨next, hnext, h⟩ := bind_eq_ok_iff.mp h
  obtain ⟨hdepth, rfl⟩ := enter_eq_ok_iff.mp hnext
  obtain ⟨⟨first, mid⟩, hfirst, h⟩ := bind_eq_ok_iff.mp h
  have hshorter := length_lt_of_taken hfirst
  obtain ⟨dots, hchain⟩ := chain_of_taken hfirst
  obtain ⟨pluses, hoperands⟩ := operands_of_taken (.first hchain) h
  exact .operands hdepth hoperands
termination_by (tokens.length, 3)

theorem operands_of_taken {stop levels pluses : Nat} {start tokens rest : List Token} {left e : Expr}
    (hleft : Grammar.Operands levels pluses start tokens left)
    (h : takenMany (summands stop (levels + pluses) left tokens) = .ok (e, rest)) :
    ∃ n, Grammar.Operands levels n start rest e := by
  rcases ahead_or_notAhead .plus tokens with ⟨plus, tail, htokens, hplus⟩ | hend
  · rw [htokens] at hleft
    rw [htokens, takenMany_summands_plus hplus] at h
    obtain ⟨next, hnext, h⟩ := bind_eq_ok_iff.mp h
    obtain ⟨hdepth, rfl⟩ := enter_eq_ok_iff.mp hnext
    obtain ⟨⟨right, mid⟩, hright, h⟩ := bind_eq_ok_iff.mp h
    have htail : tail.length < tokens.length := by simp [htokens]
    have hmid : mid.length < tail.length := length_lt_of_taken hright
    obtain ⟨dots, hchain⟩ := chain_of_taken hright
    exact operands_of_taken (.plus hleft hplus hdepth hchain) h
  · rw [takenMany_summands_end hend] at h
    cases h
    exact ⟨pluses, hleft⟩
termination_by (tokens.length, 0)

theorem chain_of_taken {stop depth : Nat} {tokens rest : List Token} {e : Expr}
    (h : taken (chain stop depth tokens) = .ok (e, rest)) :
    ∃ dots, Grammar.Chain depth dots tokens rest e := by
  rw [taken_chain] at h
  obtain ⟨⟨receiver, mid⟩, hreceiver, h⟩ := bind_eq_ok_iff.mp h
  have hshorter := length_lt_of_taken hreceiver
  exact chain_of_takenMany (.receiver (primary_of_taken hreceiver)) h
termination_by (tokens.length, 2)

theorem chain_of_takenMany {stop levels dots : Nat} {start tokens rest : List Token}
    {receiver e : Expr} (hreceiver : Grammar.Chain levels dots start tokens receiver)
    (h : takenMany (links stop (levels + dots) receiver tokens) = .ok (e, rest)) :
    ∃ n, Grammar.Chain levels n start rest e := by
  rcases ahead_or_notAhead .dot tokens with ⟨dot, afterDot, htokens, hdot⟩ | hend
  · rw [htokens] at hreceiver
    rw [htokens, takenMany_links_dot hdot] at h
    obtain ⟨next, hnext, h⟩ := bind_eq_ok_iff.mp h
    obtain ⟨hdepth, rfl⟩ := enter_eq_ok_iff.mp hnext
    obtain ⟨⟨name, afterName⟩, htaken, h⟩ := bind_eq_ok_iff.mp h
    obtain ⟨hafterDot, hname⟩ := taken_expect_eq_ok_iff.mp htaken
    obtain ⟨⟨opening, tail⟩, htaken, h⟩ := bind_eq_ok_iff.mp h
    obtain ⟨hafterName, hopening⟩ : afterName = opening :: tail ∧ opening.kind = .parenOpen :=
      taken_expect_eq_ok_iff.mp htaken
    obtain ⟨⟨args, mid⟩, hargs, h⟩ := bind_eq_ok_iff.mp h
    have htail : tail.length < tokens.length := by
      rw [htokens, hafterDot, hafterName, List.length_cons, List.length_cons, List.length_cons]
      omega
    have hmid : mid.length < tail.length := length_lt_of_taken hargs
    obtain ⟨closing, hclosing, hitems⟩ := items_of_taken hargs
    rw [hafterDot, hafterName] at hreceiver
    exact chain_of_takenMany (.method hreceiver hdot hdepth hname hopening hitems hclosing) h
  · rw [takenMany_links_end hend] at h
    cases h
    exact ⟨dots, hreceiver⟩
termination_by (tokens.length, 0)

theorem primary_of_taken {stop depth : Nat} {tokens rest : List Token} {e : Expr}
    (h : taken (primary stop depth tokens) = .ok (e, rest)) :
    Grammar.Primary depth tokens rest e := by
  obtain ⟨t, tail, htokens, hbegins⟩ := exists_of_taken_primary h
  have htail : tail.length < tokens.length := by simp [htokens]
  rw [htokens] at h ⊢
  cases hkind : t.kind with
  | text =>
      rw [taken_primary_text hkind] at h
      cases h
      exact .text hkind
  | number =>
      rw [taken_primary_number hkind] at h
      cases h
      exact .number hkind
  | yes =>
      rw [taken_primary_yes hkind] at h
      cases h
      exact .yes hkind
  | no =>
      rw [taken_primary_no hkind] at h
      cases h
      exact .no hkind
  | name =>
      rcases ahead_or_notAhead .parenOpen tail with ⟨opening, inside, hinside, hopening⟩ | hend
      · have : inside.length < tail.length := by simp [hinside]
        rw [hinside] at h ⊢
        rw [taken_primary_call hkind hopening] at h
        obtain ⟨⟨args, mid⟩, hargs, h⟩ := bind_eq_ok_iff.mp h
        cases h
        obtain ⟨closing, hclosing, hitems⟩ := items_of_taken hargs
        exact .call hkind hopening hitems hclosing
      · rw [taken_primary_reference hkind hend] at h
        cases h
        exact .reference hkind hend
  | bracketOpen =>
      rw [taken_primary_list hkind] at h
      obtain ⟨⟨values, mid⟩, hvalues, h⟩ := bind_eq_ok_iff.mp h
      cases h
      obtain ⟨closing, hclosing, hitems⟩ := items_of_taken hvalues
      exact .list hkind hitems hclosing
  | parenOpen =>
      rw [taken_primary_group hkind] at h
      obtain ⟨⟨inner, mid⟩, hinner, h⟩ := bind_eq_ok_iff.mp h
      obtain ⟨⟨closing, rest'⟩, htaken, h⟩ := bind_eq_ok_iff.mp h
      cases h
      obtain ⟨rfl, hclosing⟩ := taken_expect_eq_ok_iff.mp htaken
      exact .group hkind (expression_of_taken hinner) hclosing
  | _ =>
      rw [hkind] at hbegins
      cases hbegins
termination_by (tokens.length, 1)

theorem items_of_taken {stop depth : Nat} {close : TokenKind} {tokens rest : List Token}
    {values : List Expr} (h : taken (items stop depth close tokens) = .ok (values, rest)) :
    ∃ closing : Token, closing.kind = close ∧ Grammar.Items depth tokens (closing :: rest) values := by
  rcases ahead_or_notAhead close tokens with ⟨closing, tail, rfl, hclosing⟩ | hopen
  · rw [taken_items_close hclosing] at h
    cases h
    exact ⟨closing, hclosing, .none⟩
  · rw [taken_items hopen] at h
    obtain ⟨⟨first, mid⟩, hfirst, h⟩ := bind_eq_ok_iff.mp h
    obtain ⟨⟨others, rest'⟩, hothers, h⟩ := bind_eq_ok_iff.mp h
    cases h
    have hshorter := length_lt_of_taken hfirst
    have hexpression := expression_of_taken hfirst
    rcases ahead_or_notAhead .comma mid with ⟨comma, tail, rfl, hcomma⟩ | hlast
    · have htail : tail.length < tokens.length := Nat.lt_of_succ_lt hshorter
      rw [afterItem_comma hcomma] at hothers
      obtain ⟨closing, hclosing, hitems⟩ := items_of_taken hothers
      exact ⟨closing, hclosing, .cons hexpression hcomma hitems⟩
    · rw [afterItem_of_notAhead hlast] at hothers
      obtain ⟨⟨closing, rest'⟩, htaken, h⟩ := bind_eq_ok_iff.mp hothers
      cases h
      obtain ⟨rfl, hclosing⟩ := taken_expect_eq_ok_iff.mp htaken
      exact ⟨closing, hclosing, .some (.last hexpression)⟩
termination_by (tokens.length, 4)

end

/-! ### Completeness

A derivation ends where the parser goes on reading, so each statement is about the whole run: what the
parser makes of the tokens behind a phrase, it makes of the phrase with these tokens behind it. -/

/-- The tokens begin with the one that closes what `close` can close, and end in `rest`. -/
inductive Closed : TokenKind → List Token → List Token → Prop where
  | paren {closing : Token} {rest : List Token} (h : closing.kind = .parenClose) :
    Closed .parenClose (closing :: rest) rest
  | bracket {closing : Token} {rest : List Token} (h : closing.kind = .bracketClose) :
    Closed .bracketClose (closing :: rest) rest

theorem Closed.begins_eq {close : TokenKind} (h : Closed close tokens rest) :
    Grammar.begins close = false := by
  cases h <;> rfl

theorem Closed.exists_cons {close : TokenKind} (h : Closed close tokens rest) :
    ∃ closing, tokens = closing :: rest ∧ closing.kind = close := by
  cases h with
  | paren h => exact ⟨_, rfl, h⟩
  | bracket h => exact ⟨_, rfl, h⟩

theorem Closed.notAhead {close kind : TokenKind} (h : Closed close tokens rest)
    (hparen : kind ≠ .parenClose) (hbracket : kind ≠ .bracketClose) :
    Grammar.NotAhead kind tokens := by
  cases h with
  | paren h => exact Grammar.notAhead_of_kind h hparen.symm rest
  | bracket h => exact Grammar.notAhead_of_kind h hbracket.symm rest

theorem Closed.taken_items {close : TokenKind} (h : Closed close tokens rest) :
    taken (items stop depth close tokens) = .ok ([], rest) := by
  obtain ⟨closing, rfl, hclosing⟩ := h.exists_cons
  exact taken_items_close hclosing

theorem Closed.afterItem {close : TokenKind} (h : Closed close tokens rest) :
    afterItem stop depth close tokens = .ok ([], rest) := by
  rw [afterItem_of_notAhead (h.notAhead (by decide) (by decide))]
  obtain ⟨closing, hcons⟩ := h.exists_cons
  rw [taken_expect_eq_ok_iff.mpr hcons]
  rfl

mutual

theorem taken_of_expression {stop levels : Nat} {tokens rest : List Token} {e : Expr}
    (hplus : Grammar.NotAhead .plus rest) (hdot : Grammar.NotAhead .dot rest) :
    Grammar.Expression levels tokens rest e → taken (expr stop levels tokens) = .ok (e, rest)
  | .operands hlevels h => by
      rw [taken_expr]
      refine bind_eq_ok_iff.mpr ⟨_, enter_eq_ok_iff.mpr ⟨hlevels, rfl⟩, ?_⟩
      exact taken_of_operands hdot (takenMany_summands_end hplus) h

theorem taken_of_operands {stop levels pluses : Nat} {tokens mid rest : List Token} {left e : Expr}
    (hdot : Grammar.NotAhead .dot mid)
    (hsummands : takenMany (summands stop (levels + pluses) left mid) = .ok (e, rest)) :
    Grammar.Operands levels pluses tokens mid left →
      (do
        let first ← taken (chain stop levels tokens)
        takenMany (summands stop levels first.1 first.2)) = .ok (e, rest)
  | .first h => by
      rw [taken_of_chain (takenMany_links_end hdot) h]
      exact hsummands
  | .plus hleft hplus hlevels hright => by
      refine taken_of_operands (Grammar.notAhead_of_kind hplus (by decide) _) ?_ hleft
      rw [takenMany_summands_plus hplus]
      refine bind_eq_ok_iff.mpr ⟨_, enter_eq_ok_iff.mpr ⟨hlevels, rfl⟩, ?_⟩
      exact bind_eq_ok_iff.mpr ⟨_, taken_of_chain (takenMany_links_end hdot) hright, hsummands⟩

theorem taken_of_chain {stop levels dots : Nat} {tokens mid rest : List Token} {receiver e : Expr}
    (hlinks : takenMany (links stop (levels + dots) receiver mid) = .ok (e, rest)) :
    Grammar.Chain levels dots tokens mid receiver →
      taken (chain stop levels tokens) = .ok (e, rest)
  | .receiver h => by
      rw [taken_chain, taken_of_primary h]
      exact hlinks
  | .method hreceiver hdot hlevels hname hopening hargs hclosing => by
      refine taken_of_chain ?_ hreceiver
      rw [takenMany_links_dot hdot]
      refine bind_eq_ok_iff.mpr ⟨_, enter_eq_ok_iff.mpr ⟨hlevels, rfl⟩, ?_⟩
      refine bind_eq_ok_iff.mpr ⟨_, taken_expect_eq_ok_iff.mpr ⟨rfl, hname⟩, ?_⟩
      refine bind_eq_ok_iff.mpr ⟨_, taken_expect_eq_ok_iff.mpr ⟨rfl, hopening⟩, ?_⟩
      exact bind_eq_ok_iff.mpr ⟨_, taken_of_items (.paren hclosing) hargs, hlinks⟩

theorem taken_of_primary {stop levels : Nat} {tokens rest : List Token} {e : Expr} :
    Grammar.Primary levels tokens rest e → taken (primary stop levels tokens) = .ok (e, rest)
  | .text ht => taken_primary_text ht
  | .number ht => taken_primary_number ht
  | .yes ht => taken_primary_yes ht
  | .no ht => taken_primary_no ht
  | .reference ht hrest => taken_primary_reference ht hrest
  | .call ht hopening hargs hclosing => by
      rw [taken_primary_call ht hopening, taken_of_items (.paren hclosing) hargs]
      rfl
  | .list ht hitems hclosing => by
      rw [taken_primary_list ht, taken_of_items (.bracket hclosing) hitems]
      rfl
  | .group ht hinner hclosing => by
      rw [taken_primary_group ht]
      refine bind_eq_ok_iff.mpr ⟨_, taken_of_expression (Grammar.notAhead_of_kind hclosing (by decide) _)
        (Grammar.notAhead_of_kind hclosing (by decide) _) hinner, ?_⟩
      exact bind_eq_ok_iff.mpr ⟨_, taken_expect_eq_ok_iff.mpr ⟨rfl, hclosing⟩, rfl⟩

theorem taken_of_items {stop levels : Nat} {close : TokenKind} {tokens mid rest : List Token}
    {values : List Expr} (hclosed : Closed close mid rest) :
    Grammar.Items levels tokens mid values →
      taken (items stop levels close tokens) = .ok (values, rest)
  | .none => hclosed.taken_items
  | .some h => by
      rw [← List.append_nil values]
      exact taken_of_separated hclosed.begins_eq (hclosed.notAhead (by decide) (by decide))
        (hclosed.notAhead (by decide) (by decide)) hclosed.afterItem h
  | .trailing h hcomma => by
      rw [← List.append_nil values]
      refine taken_of_separated hclosed.begins_eq (Grammar.notAhead_of_kind hcomma (by decide) _)
        (Grammar.notAhead_of_kind hcomma (by decide) _) ?_ h
      rw [afterItem_comma hcomma]
      exact hclosed.taken_items

theorem taken_of_separated {stop levels : Nat} {close : TokenKind} {tokens mid rest : List Token}
    {values others : List Expr} (hclose : Grammar.begins close = false)
    (hplus : Grammar.NotAhead .plus mid) (hdot : Grammar.NotAhead .dot mid)
    (hothers : afterItem stop levels close mid = .ok (others, rest)) :
    Grammar.Separated levels tokens mid values →
      taken (items stop levels close tokens) = .ok (values ++ others, rest)
  | .last h => by
      rw [taken_items (h.notAhead hclose)]
      refine bind_eq_ok_iff.mpr ⟨_, taken_of_expression hplus hdot h, ?_⟩
      exact bind_eq_ok_iff.mpr ⟨_, hothers, rfl⟩
  | .more hitem hcomma h => by
      have hitems := taken_of_separated hclose hplus hdot hothers h
      rw [taken_items (hitem.notAhead hclose)]
      refine bind_eq_ok_iff.mpr ⟨_, taken_of_expression (Grammar.notAhead_of_kind hcomma (by decide) _)
        (Grammar.notAhead_of_kind hcomma (by decide) _) hitem, ?_⟩
      exact bind_eq_ok_iff.mpr ⟨_, (afterItem_comma hcomma).trans hitems, rfl⟩

end

/-! ### Statements and programs -/

theorem bare_of_taken {stmt : Stmt} (h : taken (statement.bare stop tokens) = .ok (stmt, rest)) :
    Grammar.Bare tokens rest stmt := by
  rcases ahead_or_notAhead .declare tokens with ⟨declare, tail, rfl, hdeclare⟩ | hexpr
  · rw [taken_bare_declare hdeclare] at h
    obtain ⟨⟨name, afterName⟩, hname, hbinding⟩ := bind_eq_ok_iff.mp h
    obtain ⟨⟨equals, afterEquals⟩, hequals, hbound⟩ := bind_eq_ok_iff.mp hbinding
    obtain ⟨⟨value, rest'⟩, hvalue, hstmt⟩ := bind_eq_ok_iff.mp hbound
    cases hstmt
    obtain ⟨rfl, hnameKind⟩ := taken_expect_eq_ok_iff.mp hname
    obtain ⟨rfl, hequalsKind⟩ := taken_expect_eq_ok_iff.mp hequals
    exact .bind hdeclare hnameKind hequalsKind (expression_of_taken hvalue)
  · rw [taken_bare_expr hexpr] at h
    obtain ⟨⟨value, rest'⟩, hvalue, h⟩ := bind_eq_ok_iff.mp h
    cases h
    exact .expr (expression_of_taken hvalue)

theorem taken_of_bare {stmt : Stmt} (hplus : Grammar.NotAhead .plus rest)
    (hdot : Grammar.NotAhead .dot rest) (h : Grammar.Bare tokens rest stmt) :
    taken (statement.bare stop tokens) = .ok (stmt, rest) := by
  cases h with
  | bind hdeclare hname hequals hvalue =>
      rw [taken_bare_declare hdeclare]
      refine bind_eq_ok_iff.mpr ⟨_, taken_expect_eq_ok_iff.mpr ⟨rfl, hname⟩, ?_⟩
      refine bind_eq_ok_iff.mpr ⟨_, taken_expect_eq_ok_iff.mpr ⟨rfl, hequals⟩, ?_⟩
      exact bind_eq_ok_iff.mpr ⟨_, taken_of_expression hplus hdot hvalue, rfl⟩
  | expr hvalue =>
      rw [taken_bare_expr (hvalue.notAhead rfl)]
      exact bind_eq_ok_iff.mpr ⟨_, taken_of_expression hplus hdot hvalue, rfl⟩

theorem statement_of_taken {stmt : Stmt} (h : taken (statement stop tokens) = .ok (stmt, rest)) :
    Grammar.Statement tokens rest stmt := by
  rw [taken_statement] at h
  obtain ⟨⟨stmt', mid⟩, hbare, h⟩ := bind_eq_ok_iff.mp h
  have hstmt := bare_of_taken hbare
  rcases ahead_or_notAhead .semicolon mid with ⟨semicolon, tail, rfl, hsemicolon⟩ | hend
  · simp only [take?_cons_of_eq hsemicolon] at h
    cases h
    exact .ended hstmt hsemicolon
  · simp only [take?_of_notAhead hend] at h
    cases h
    exact .unended hstmt hend

theorem taken_of_statement {stmt : Stmt} (hplus : Grammar.NotAhead .plus rest)
    (hdot : Grammar.NotAhead .dot rest) (h : Grammar.Statement tokens rest stmt) :
    taken (statement stop tokens) = .ok (stmt, rest) := by
  rw [taken_statement]
  cases h with
  | ended h hsemicolon =>
      refine bind_eq_ok_iff.mpr ⟨_, taken_of_bare (Grammar.notAhead_of_kind hsemicolon (by decide) _)
        (Grammar.notAhead_of_kind hsemicolon (by decide) _) h, ?_⟩
      simp only [take?_cons_of_eq hsemicolon]
      rfl
  | unended h hrest =>
      refine bind_eq_ok_iff.mpr ⟨_, taken_of_bare hplus hdot h, ?_⟩
      simp only [take?_of_notAhead hrest]
      rfl

theorem program_of_ok {stop : Nat} {tokens : List Token} {stmts : List Stmt}
    (h : program stop tokens = .ok stmts) : Grammar.Program tokens stmts := by
  match tokens with
  | [] =>
      rw [program] at h
      cases h
      exact .nil
  | t :: tail =>
      by_cases ht : t.kind = .semicolon
      · rw [program_semicolon ht] at h
        exact .semicolon ht (program_of_ok h)
      · rw [program_statement ht] at h
        obtain ⟨⟨stmt, rest⟩, hstmt, h⟩ := bind_eq_ok_iff.mp h
        obtain ⟨stmts, hstmts, h⟩ := bind_eq_ok_iff.mp h
        cases h
        have hshorter := length_lt_of_taken hstmt
        exact .statement (statement_of_taken hstmt) (program_of_ok hstmts)
termination_by tokens.length
decreasing_by
  · exact Nat.lt_succ_self tail.length
  · exact hshorter

theorem ok_of_program {stop : Nat} {stmts : List Stmt} (h : Grammar.Program tokens stmts) :
    program stop tokens = .ok stmts := by
  induction h with
  | nil =>
      rw [program]
      rfl
  | semicolon ht _ ih =>
      rw [program_semicolon ht]
      exact ih
  | statement hstmt h ih =>
      obtain ⟨t, tail, rfl, ht⟩ := hstmt.begins
      have hsemicolon : t.kind ≠ .semicolon := by
        intro hkind
        rw [hkind] at ht
        simp [Grammar.begins] at ht
      rw [program_statement hsemicolon]
      refine bind_eq_ok_iff.mpr
        ⟨_, taken_of_statement (h.notAhead rfl) (h.notAhead rfl) hstmt, ?_⟩
      exact bind_eq_ok_iff.mpr ⟨_, ih, rfl⟩

theorem program_eq_ok_iff {stop : Nat} {stmts : List Stmt} :
    program stop tokens = .ok stmts ↔ Grammar.Program tokens stmts :=
  ⟨program_of_ok, ok_of_program⟩

end Parser

/-- A source that can be read as tokens is read as the statements that the grammar derives for them, and
is refused if there are none. Neither the number of statements is limited nor that of the items of a
list or of the arguments of a call: only each of them has to be derivable where it stands. -/
theorem parse_iff_derivable {source : String} {tokens : List Token} (h : tokenize source = .ok tokens) :
    (∀ stmts, parse source = .ok stmts ↔ Grammar.Program tokens stmts) ∧
      (∀ parts : List (List Token × Stmt), tokens = parts.flatMap (·.1) →
        (∀ part ∈ parts, ∃ semicolon : Token, semicolon.kind = .semicolon ∧
          Grammar.Bare part.1 [semicolon] part.2) →
        parse source = .ok (parts.map (·.2))) ∧
      ∀ (levels : Nat) (parts : List (List Token × Expr)),
        (∀ part ∈ parts, ∃ comma : Token, comma.kind = .comma ∧
          Grammar.Expression levels part.1 [comma] part.2) →
        Grammar.Items levels (parts.flatMap (·.1)) [] (parts.map (·.2)) := by
  have hparse (stmts : List Stmt) : parse source = .ok stmts ↔ Grammar.Program tokens stmts := by
    rw [parse, h]
    exact Parser.program_eq_ok_iff
  refine ⟨hparse, ?_, fun levels parts => Grammar.items_flatMap⟩
  rintro parts rfl hparts
  exact (hparse _).mpr (Grammar.program_flatMap hparts)

theorem parse_iff_derivable_call :
    tokenize "f(a)" =
        .ok [⟨.name, "f", 0⟩, ⟨.parenOpen, "(", 1⟩, ⟨.name, "a", 2⟩, ⟨.parenClose, ")", 3⟩] ∧
      parse "f(a)" = .ok [.expr (.call 0 "f" [.reference 2 "a"])] := by
  have htokens : tokenize "f(a)" =
      .ok [⟨.name, "f", 0⟩, ⟨.parenOpen, "(", 1⟩, ⟨.name, "a", 2⟩, ⟨.parenClose, ")", 3⟩] := by
    decide +kernel
  refine ⟨htokens, ((parse_iff_derivable htokens).1 _).mpr ?_⟩
  have hargument : Grammar.Expression 1 [⟨.name, "a", 2⟩, ⟨.parenClose, ")", 3⟩]
      [⟨.parenClose, ")", 3⟩] (.reference 2 "a") :=
    .operands (by decide) (.first (.receiver (.reference rfl (by decide))))
  exact .statement (.unended (.expr (.operands (by decide) (.first (.receiver
    (.call rfl rfl (.some (.last hargument)) rfl))))) (by decide)) .nil

end AssetPipeline.Script
