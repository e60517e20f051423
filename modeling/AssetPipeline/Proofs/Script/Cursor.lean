import AssetPipeline.Proofs.Script.Relocation

/-! Reading tokens with a cursor. The parser as a machine: one index and one number of levels that every
call moves and every call relies on, loops and calls that nothing ends but the fuel, and a trail of all
that the cursor has been through. What is proved of it here is how one action after another is compared
with the parser. -/

namespace AssetPipeline.Script

open AssetPipeline.Script.Parser (taken ahead_or_notAhead)
open Grammar (NotAhead)

/-- The calls that reading consists of. The call of an expression is entered once it has its level. -/
inductive Routine where
  | program
  | statement
  | expr
  | entered
  | chain
  | primary
  | items
  deriving DecidableEq, Repr

/-- The index of the next token, the levels that are open, the turns of the loop over the statements, and
the calls that have not returned, the innermost first. -/
structure Cursor where
  pos : Nat := 0
  depth : Nat := 0
  turns : Nat := 0
  calls : List Routine := []
  deriving DecidableEq, Repr

namespace Cursor

/-- Expressions that are open and have their level. -/
def entered (c : Cursor) : Nat :=
  c.calls.count .entered

def advance (c : Cursor) : Cursor :=
  { c with pos := c.pos + 1 }

def setDepth (depth : Nat) (c : Cursor) : Cursor :=
  { c with depth := depth }

def turn (c : Cursor) : Cursor :=
  { c with turns := c.turns + 1 }

def call (routine : Routine) (c : Cursor) : Cursor :=
  { c with calls := routine :: c.calls }

/-- The innermost call has its level. -/
def markEntered (c : Cursor) : Cursor :=
  { c with calls := .entered :: c.calls.tail }

/-- The innermost call returns. -/
def leave (c : Cursor) : Cursor :=
  { c with calls := c.calls.tail }

end Cursor

/-- A cursor, and all that it was before, the latest first. -/
structure Trail extends Cursor where
  past : List Cursor := []
  deriving DecidableEq, Repr

namespace Trail

/-- The cursor moves on. -/
def step (s : Trail) (f : Cursor → Cursor) : Trail :=
  ⟨f s.toCursor, s.toCursor :: s.past⟩

/-- Every state of the cursor, the latest first. -/
def states (s : Trail) : List Cursor :=
  s.toCursor :: s.past

end Trail

/-- Reading, which may fail and which may not end, where its fuel is used up. A fault ends all of it: the
calls that are open then stay open. -/
abbrev Reading := ExceptT Fault (StateT Trail Option)

namespace Reading

def move (f : Cursor → Cursor) : Reading Unit :=
  modify fun s => s.step f

/-- One level more, unless there are as many as there may be. -/
def enter (offset : Nat) : Reading Unit := do
  let depth := (← get).depth
  if maxDepth ≤ depth then throw ⟨offset, .tooDeep⟩ else move (.setDepth (depth + 1))

section

variable (stop : Nat) (tokens : List Token)

def peek? : Reading (Option Token) :=
  return tokens[(← get).pos]?

def bump : Reading (Option Token) := do
  match ← peek? tokens with
  | none => return none
  | some t =>
    move .advance
    return some t

def eat (kind : TokenKind) : Reading Bool := do
  match ← peek? tokens with
  | none => return false
  | some t =>
    if t.kind = kind then
      move .advance
      return true
    else return false

def expect (kind : TokenKind) (wanted : Expectation) : Reading Token := do
  match ← peek? tokens with
  | none => throw ⟨stop, .expected wanted none⟩
  | some t =>
    if t.kind = kind then
      move .advance
      return t
    else throw ⟨t.start, .expected wanted (some t.kind)⟩

def nextOffset : Reading Nat := do
  match ← peek? tokens with
  | none => return stop
  | some t => return t.start

/-- The fuel is used up. -/
def unended {α : Type} : Reading α :=
  fun _ => none

mutual

def expr : Nat → Reading Expr
  | 0 => unended
  | fuel + 1 => do
    move (.call .expr)
    let depth := (← get).depth
    enter (← nextOffset stop tokens)
    move .markEntered
    let first ← chain fuel
    let value ← summands fuel first
    move (.setDepth depth)
    move .leave
    return value

/-- The loop over the operands of a sum. -/
def summands : Nat → Expr → Reading Expr
  | 0, _ => unended
  | fuel + 1, left => do
    if ← eat tokens .plus then
      enter left.offset
      let right ← chain fuel
      summands fuel (.sum left.offset left right)
    else return left

def chain : Nat → Reading Expr
  | 0 => unended
  | fuel + 1 => do
    move (.call .chain)
    let depth := (← get).depth
    let receiver ← primary fuel
    let value ← links fuel receiver
    move (.setDepth depth)
    move .leave
    return value

/-- The loop over the method calls behind a receiver. -/
def links : Nat → Expr → Reading Expr
  | 0, _ => unended
  | fuel + 1, receiver => do
    if ← eat tokens .dot then
      enter receiver.offset
      let method ← expect stop tokens .name .methodName
      let _ ← expect stop tokens .parenOpen .argumentsOfMethod
      let args ← items fuel .parenClose
      links fuel (.method method.start receiver method.text args)
    else return receiver

def primary : Nat → Reading Expr
  | 0 => unended
  | fuel + 1 => do
    move (.call .primary)
    match ← bump tokens with
    | none => throw ⟨stop, .expected .expression none⟩
    | some t =>
      let value ← primaryFrom fuel t
      move .leave
      return value

/-- What is read behind the first token of a primary. -/
def primaryFrom : Nat → Token → Reading Expr
  | 0, _ => unended
  | fuel + 1, t =>
    match t.kind with
    | .text => return .text t.start (Literal.unquote t.text)
    | .number => return .number t.start (Literal.number t.text)
    | .yes => return .boolean t.start true
    | .no => return .boolean t.start false
    | .name => do
      if ← eat tokens .parenOpen then
        let args ← items fuel .parenClose
        return .call t.start t.text args
      else return .reference t.start t.text
    | .bracketOpen => do
      let values ← items fuel .bracketClose
      return .list t.start values
    | .parenOpen => do
      let inner ← expr fuel
      let _ ← expect stop tokens .parenClose (.token .parenClose)
      return inner.withOffset t.start
    | kind => throw ⟨t.start, .expected .expression (some kind)⟩

def items : Nat → TokenKind → Reading (List Expr)
  | 0, _ => unended
  | fuel + 1, close => do
    move (.call .items)
    let values ← itemsFrom fuel close []
    move .leave
    return values

/-- The loop over items, behind those that have been read. -/
def itemsFrom : Nat → TokenKind → List Expr → Reading (List Expr)
  | 0, _, _ => unended
  | fuel + 1, close, values => do
    if ← eat tokens close then return values
    else
      let value ← expr fuel
      if ← eat tokens .comma then itemsFrom fuel close (values ++ [value])
      else
        let _ ← expect stop tokens close (.token close)
        return values ++ [value]

end

def bare (fuel : Nat) : Reading Stmt := do
  if ← eat tokens .declare then
    let name ← expect stop tokens .name .bindingName
    let _ ← expect stop tokens .equals (.token .equals)
    let value ← expr stop tokens fuel
    return .bind name.text value
  else
    let value ← expr stop tokens fuel
    return .expr value

def statement (fuel : Nat) : Reading Stmt := do
  move (.call .statement)
  let stmt ← bare stop tokens fuel
  let _ ← eat tokens .semicolon
  move .leave
  return stmt

/-- The loop over the statements, behind those that have been read. -/
def statements : Nat → List Stmt → Reading (List Stmt)
  | 0, _ => unended
  | fuel + 1, stmts => do
    if tokens.length ≤ (← get).pos then return stmts
    else
      move .turn
      if ← eat tokens .semicolon then statements fuel stmts
      else
        let stmt ← statement stop tokens fuel
        statements fuel (stmts ++ [stmt])

def program (fuel : Nat) : Reading (List Stmt) := do
  move (.call .program)
  let stmts ← statements stop tokens fuel []
  move .leave
  return stmts

end

def parse (fuel : Nat) (source : String) : Reading (List Stmt) :=
  match tokenize source with
  | .error fault => throw fault
  | .ok tokens => program source.utf8ByteSize tokens fuel

variable {α β : Type} {tokens tail : List Token} {stop : Nat} {s s' s'' : Trail} {t : Token}
  {kind : TokenKind} {wanted : Expectation} {B B' : Cursor → Prop} {P Q : Trail → Prop}

/-! ### Single actions -/

theorem bind_of_ok {run : Reading α} {next : α → Reading β} {a : α} (h : run s = some (.ok a, s')) :
    (run >>= next) s = next a s' := by
  change (run s).bind _ = _
  rw [h]
  rfl

theorem bind_of_error {run : Reading α} {next : α → Reading β} {fault : Fault}
    (h : run s = some (.error fault, s')) : (run >>= next) s = some (.error fault, s') := by
  change (run s).bind _ = _
  rw [h]
  rfl

theorem bind_of_none {run : Reading α} {next : α → Reading β} (h : run s = none) :
    (run >>= next) s = none := by
  change (run s).bind _ = _
  rw [h]
  rfl

/-- The cursor behind the next token. -/
def behind (s : Trail) : Trail :=
  s.step .advance

theorem drop_behind (h : tokens.drop s.pos = t :: tail) : tokens.drop (behind s).pos = tail := by
  change tokens.drop (s.pos + 1) = tail
  rw [← List.tail_drop, h]
  rfl

theorem pos_lt_length (h : tokens.drop s.pos = t :: tail) : s.pos < tokens.length := by
  by_contra hle
  rw [List.drop_eq_nil_of_le (Nat.le_of_not_lt hle)] at h
  cases h

theorem peek?_eq : peek? tokens s = some (.ok (tokens.drop s.pos).head?, s) := by
  rw [List.head?_drop]
  rfl

theorem bump_of_cons (h : tokens.drop s.pos = t :: tail) :
    bump tokens s = some (.ok (some t), behind s) := by
  rw [bump, bind_of_ok peek?_eq, h]
  rfl

theorem bump_of_nil (h : tokens.drop s.pos = []) : bump tokens s = some (.ok none, s) := by
  rw [bump, bind_of_ok peek?_eq, h]
  rfl

theorem eat_of_ahead (h : tokens.drop s.pos = t :: tail) (ht : t.kind = kind) :
    eat tokens kind s = some (.ok true, behind s) := by
  rw [eat, bind_of_ok peek?_eq, h]
  dsimp only [List.head?_cons]
  rw [if_pos ht]
  rfl

theorem eat_of_notAhead (h : NotAhead kind (tokens.drop s.pos)) :
    eat tokens kind s = some (.ok false, s) := by
  rw [eat, bind_of_ok peek?_eq]
  cases hdrop : tokens.drop s.pos with
  | nil => rfl
  | cons t tail =>
      rw [hdrop] at h
      dsimp only [List.head?_cons]
      rw [if_neg (h t rfl)]
      rfl

theorem expect_of_ahead (h : tokens.drop s.pos = t :: tail) (ht : t.kind = kind) :
    expect stop tokens kind wanted s = some (.ok t, behind s) := by
  rw [expect, bind_of_ok peek?_eq, h]
  dsimp only [List.head?_cons]
  rw [if_pos ht]
  rfl

theorem expect_of_notAhead (h : NotAhead kind (tokens.drop s.pos)) :
    expect stop tokens kind wanted s =
      some (.error (Parser.unexpected stop wanted (tokens.drop s.pos)), s) := by
  rw [expect, bind_of_ok peek?_eq]
  cases hdrop : tokens.drop s.pos with
  | nil => rfl
  | cons t tail =>
      rw [hdrop] at h
      dsimp only [List.head?_cons]
      rw [if_neg (h t rfl)]
      rfl

theorem nextOffset_eq :
    nextOffset stop tokens s = some (.ok (Parser.nextOffset stop (tokens.drop s.pos)), s) := by
  rw [nextOffset, bind_of_ok peek?_eq]
  cases tokens.drop s.pos <;> rfl

theorem enter_eq (offset : Nat) : enter offset s =
    if maxDepth ≤ s.depth then some (.error ⟨offset, .tooDeep⟩, s)
    else some (.ok (), s.step (.setDepth (s.depth + 1))) := by
  change (if maxDepth ≤ s.depth then (throw ⟨offset, .tooDeep⟩ : Reading Unit)
    else move (.setDepth (s.depth + 1))) s = _
  split_ifs <;> rfl

/-! ### Ways of the cursor -/

/-- From `s` the cursor has come to `s'`, never back, and only through states that `B` holds for. -/
inductive Goes (B : Cursor → Prop) (s : Trail) : Trail → Prop
  | stay : Goes B s s
  | step {s' : Trail} {f : Cursor → Cursor} (h : Goes B s s') (hforward : s'.pos ≤ (f s'.toCursor).pos)
    (hB : B (f s'.toCursor)) : Goes B s (s'.step f)

theorem Goes.trans (h : Goes B s s') (h' : Goes B s' s'') : Goes B s s'' := by
  induction h' with
  | stay => exact h
  | step _ hforward hc ih => exact ih.step hforward hc

theorem Goes.mono (h : Goes B s s') (hB : ∀ c, B c → B' c) : Goes B' s s' := by
  induction h with
  | stay => exact .stay
  | step _ hforward hc ih => exact ih.step hforward (hB _ hc)

theorem Goes.pos_le (h : Goes B s s') : s.pos ≤ s'.pos := by
  induction h with
  | stay => exact Nat.le_refl _
  | step _ hforward _ ih => exact Nat.le_trans ih hforward

theorem Goes.mem_states (h : Goes B s s') : ∀ c ∈ s'.states, c ∈ s.states ∨ B c := by
  induction h with
  | stay => exact fun c hc => Or.inl hc
  | step _ _ hc ih => exact List.forall_mem_cons.mpr ⟨Or.inr hc, ih⟩

theorem Goes.pairwise_pos (h : Goes B s s')
    (hs : s.states.Pairwise fun later earlier => earlier.pos ≤ later.pos) :
    s'.states.Pairwise fun later earlier => earlier.pos ≤ later.pos := by
  induction h with
  | stay => exact hs
  | @step s' f _ hforward _ ih =>
      refine List.pairwise_cons.mpr ⟨fun earlier hearlier => ?_, ih⟩
      rcases List.mem_cons.mp hearlier with rfl | hpast
      · exact hforward
      · exact Nat.le_trans (List.rel_of_pairwise_cons ih hpast) hforward

/-! ### Comparing with the parser -/

/-- From `s` the reading ends as `x` says, with the tokens left that `x` says, and through states that `B`
holds for. If it ends well, it ends in a state that `P` holds for. Unless `enough` holds for the fuel, it
may not end. -/
inductive Follows (tokens : List Token) (enough : Prop) (B : Cursor → Prop) (P : Trail → Prop)
    (x : Except Fault (α × List Token)) (run : Reading α) (s : Trail) : Prop
  | ok (value : α) (s' : Trail) (hrun : run s = some (.ok value, s'))
    (hx : x = .ok (value, tokens.drop s'.pos)) (hgoes : Goes B s s') (hend : P s')
  | fault (fault : Fault) (s' : Trail) (hrun : run s = some (.error fault, s')) (hx : x = .error fault)
    (hgoes : Goes B s s')
  | unended (hrun : run s = none) (hshort : ¬enough)

namespace Follows

variable {enough enough' : Prop} {x : Except Fault (α × List Token)} {y : Except Fault (β × List Token)}
  {run : Reading α} {next : α → Reading β}

theorem mono (h : Follows tokens enough B P x run s) (henough : enough' → enough)
    (hB : ∀ c, B c → B' c) (hP : ∀ s', P s' → Q s') : Follows tokens enough' B' Q x run s := by
  cases h with
  | ok value s' hrun hx hgoes hend => exact .ok value s' hrun hx (hgoes.mono hB) (hP s' hend)
  | fault fault s' hrun hx hgoes => exact .fault fault s' hrun hx (hgoes.mono hB)
  | unended hrun hshort => exact .unended hrun fun h => hshort (henough h)

/-- An action of the cursor that the parser has nothing for. -/
theorem after {a : α} (hrun : run s = some (.ok a, s')) (hgoes : Goes B s s')
    (h : Follows tokens enough B Q y (next a) s') : Follows tokens enough B Q y (run >>= next) s := by
  cases h with
  | ok result s'' hrun' hx' hgoes' hend' =>
      exact .ok result s'' ((bind_of_ok hrun).trans hrun') hx' (hgoes.trans hgoes') hend'
  | fault fault s'' hrun' hx' hgoes' =>
      exact .fault fault s'' ((bind_of_ok hrun).trans hrun') hx' (hgoes.trans hgoes')
  | unended hrun' hshort => exact .unended ((bind_of_ok hrun).trans hrun') hshort

theorem bind {f : α × List Token → Except Fault (β × List Token)}
    (h : Follows tokens enough B P x run s)
    (hnext : ∀ value s', s.pos ≤ s'.pos → P s' →
      Follows tokens enough B Q (f (value, tokens.drop s'.pos)) (next value) s') :
    Follows tokens enough B Q (x >>= f) (run >>= next) s := by
  cases h with
  | ok value s' hrun hx hgoes hend =>
      rw [hx]
      exact after hrun hgoes (hnext value s' hgoes.pos_le hend)
  | fault fault s' hrun hx hgoes =>
      rw [hx]
      exact .fault fault s' (bind_of_error hrun) rfl hgoes
  | unended hrun hshort => exact .unended (bind_of_none hrun) hshort

theorem bind_last {next : α → Reading α} (h : Follows tokens enough B P x run s)
    (hnext : ∀ value s', s.pos ≤ s'.pos → P s' →
      Follows tokens enough B Q (.ok (value, tokens.drop s'.pos)) (next value) s') :
    Follows tokens enough B Q x (run >>= next) s := by
  rw [← bind_pure x]
  exact bind h hnext

theorem move {f : Cursor → Cursor} {next : Unit → Reading β} (hforward : s.pos ≤ (f s.toCursor).pos)
    (hB : B (f s.toCursor)) (h : Follows tokens enough B Q y (next ()) (s.step f)) :
    Follows tokens enough B Q y (Reading.move f >>= next) s :=
  after rfl (.step .stay hforward hB) h

theorem pure {value : β} {rest : List Token} (hrest : tokens.drop s.pos = rest) (hs : Q s) :
    Follows tokens enough B Q (.ok (value, rest)) (Pure.pure value) s :=
  .ok value s rfl (hrest ▸ rfl) .stay hs

theorem throw (fault : Fault) :
    Follows tokens enough B Q (.error fault : Except Fault (β × List Token)) (throw fault) s :=
  .fault fault s rfl rfl .stay

theorem enter {depth offset : Nat} {next : Unit → Reading β}
    {f : Nat → Except Fault (β × List Token)} (hs : s.depth = depth)
    (hnext : depth + 1 ≤ maxDepth → B (s.toCursor.setDepth (depth + 1)) ∧
      Follows tokens enough B Q (f (depth + 1)) (next ()) (s.step (.setDepth (depth + 1)))) :
    Follows tokens enough B Q (Parser.enter depth offset >>= f) (Reading.enter offset >>= next) s := by
  have henter := enter_eq (s := s) offset
  rw [hs] at henter
  by_cases hdeep : maxDepth ≤ depth
  · rw [if_pos hdeep] at henter
    rw [Parser.enter, if_pos hdeep]
    exact .fault _ s (bind_of_error henter) rfl .stay
  · rw [if_neg hdeep] at henter
    rw [Parser.enter, if_neg hdeep]
    obtain ⟨hB, h⟩ := hnext (Nat.lt_of_not_le hdeep)
    exact after henter (.step .stay (Nat.le_refl _) hB) h

theorem expect {rest : List Token} {next : Token → Reading β}
    {f : Token × List Token → Except Fault (β × List Token)} (hs : tokens.drop s.pos = rest)
    (hnext : ∀ t tail, rest = t :: tail →
      B (behind s).toCursor ∧ Follows tokens enough B Q (f (t, tail)) (next t) (behind s)) :
    Follows tokens enough B Q (taken (Parser.expect stop kind wanted rest) >>= f)
      (Reading.expect stop tokens kind wanted >>= next) s := by
  subst hs
  rcases ahead_or_notAhead kind (tokens.drop s.pos) with ⟨t, tail, hdrop, ht⟩ | hnot
  · obtain ⟨hB, h⟩ := hnext t tail hdrop
    rw [Parser.taken_expect_eq_ok_iff.mpr ⟨hdrop, ht⟩]
    exact after (expect_of_ahead hdrop ht) (.step .stay (Nat.le_succ _) hB) h
  · rw [Parser.taken_expect_of_notAhead hnot]
    exact .fault _ s (bind_of_error (expect_of_notAhead hnot)) rfl .stay

theorem eat_of_ahead {next : Bool → Reading β} (hdrop : tokens.drop s.pos = t :: tail)
    (ht : t.kind = kind) (hB : B s.toCursor.advance)
    (h : Follows tokens enough B Q y (next true) (behind s)) :
    Follows tokens enough B Q y (eat tokens kind >>= next) s :=
  after (Reading.eat_of_ahead hdrop ht) (.step .stay (Nat.le_succ _) hB) h

theorem eat_of_notAhead {next : Bool → Reading β} (hnot : NotAhead kind (tokens.drop s.pos))
    (h : Follows tokens enough B Q y (next false) s) :
    Follows tokens enough B Q y (eat tokens kind >>= next) s :=
  after (Reading.eat_of_notAhead hnot) .stay h

theorem exists_run (h : Follows tokens enough B P x run s) (henough : enough) :
    ∃ s', run s = some (x.map Prod.fst, s') ∧ Goes B s s' := by
  cases h with
  | ok value s' hrun hx hgoes _ => exact ⟨s', hx ▸ hrun, hgoes⟩
  | fault fault s' hrun hx hgoes => exact ⟨s', hx ▸ hrun, hgoes⟩
  | unended _ hshort => exact absurd henough hshort

/-- Fuel does not change an answer. -/
theorem map_fst_eq {y : Except Fault α} (h : Follows tokens enough B P x run s)
    (hrun : run s = some (y, s')) : x.map Prod.fst = y := by
  cases h with
  | ok value s'' hrun' hx =>
      rw [hx]
      exact (Prod.ext_iff.mp (Option.some.inj (hrun'.symm.trans hrun))).1
  | fault fault s'' hrun' hx =>
      rw [hx]
      exact (Prod.ext_iff.mp (Option.some.inj (hrun'.symm.trans hrun))).1
  | unended hrun' => cases hrun'.symm.trans hrun

end Follows

end Reading

end AssetPipeline.Script
