import AssetPipeline.Proofs.Script.Cursor
import AssetPipeline.Proofs.Script.Parsing

/-! Reading comes to an end. What a call may open is said of the cursor it starts from: the levels that are
left there are good for so many expressions and so many calls. That a call returns, that it has taken a
token by then, and that it keeps to these bounds is one induction on the tokens behind the cursor. -/

namespace AssetPipeline.Script

open AssetPipeline.Script.Parser (taken takenMany ahead_or_notAhead)

/-! ### What a call may open -/

namespace Cursor

variable {s s' s'' c : Cursor} {a b : Nat} {opened opened' : List Routine}

/-- The calls that are open are those of before and `opened`. -/
structure Opened (opened : List Routine) (s s' : Cursor) : Prop where
  calls_eq : s'.calls = opened ++ s.calls
  turns_eq : s'.turns = s.turns

theorem Opened.trans (h : Opened opened s s') (h' : Opened opened' s' s'') :
    Opened (opened' ++ opened) s s'' := by
  refine ⟨?_, h'.turns_eq.trans h.turns_eq⟩
  rw [h'.calls_eq, h.calls_eq, List.append_assoc]

/-- What comes of a call in `s`. Each level that is left there is good for one expression, and for the
expression with its level, a chain, a primary and items; `b` calls have no level. -/
structure Bounded (b : Nat) (s c : Cursor) : Prop where
  entered_le : c.entered ≤ s.entered + (maxDepth - s.depth)
  calls_le : c.calls.length ≤ s.calls.length + 4 * (maxDepth - s.depth) + b
  turns_eq : c.turns = s.turns

theorem Opened.bounded (h : Opened opened s c) (hentered : opened.count .entered ≤ maxDepth - s.depth)
    (hlength : opened.length ≤ 4 * opened.count .entered + b) : Bounded b s c := by
  refine ⟨?_, ?_, h.turns_eq⟩
  · rw [entered, entered, h.calls_eq, List.count_append]
    omega
  · rw [h.calls_eq, List.length_append]
    omega

/-- What comes of a call in `s'`, `levels` levels deeper, comes of the call in `s` that is behind it. -/
theorem Opened.bounded_of_bounded (h : Opened opened s s') (levels : Nat)
    (hlevels : levels ≤ maxDepth - s.depth) (hdepth : s.depth + levels ≤ s'.depth)
    (hentered : opened.count .entered ≤ levels) (hlength : opened.length + a ≤ 4 * levels + b)
    (hc : Bounded a s' c) : Bounded b s c := by
  obtain ⟨hcentered, hcalls, hturns⟩ := hc
  rw [entered, entered, h.calls_eq, List.count_append] at hcentered
  rw [h.calls_eq, List.length_append] at hcalls
  refine ⟨?_, ?_, hturns.trans h.turns_eq⟩
  · rw [entered, entered]
    omega
  · omega

theorem Opened.refl (s : Cursor) : Opened [] s s :=
  ⟨rfl, rfl⟩

theorem Opened.advance (h : Opened opened s s') : Opened opened s s'.advance :=
  ⟨h.calls_eq, h.turns_eq⟩

theorem Opened.setDepth {depth : Nat} (h : Opened opened s s') : Opened opened s (s'.setDepth depth) :=
  ⟨h.calls_eq, h.turns_eq⟩

theorem Opened.leave {routine : Routine} (h : Opened [routine] s s') : Opened [] s s'.leave :=
  ⟨congrArg List.tail h.calls_eq, h.turns_eq⟩

theorem Opened.bounded_of_nil (h : Opened [] s c) : Bounded b s c :=
  h.bounded (Nat.zero_le _) (Nat.zero_le _)

/-- A loop has ended. The levels that it took are still open. -/
structure Ended (tokens : List Token) (s s' : Cursor) : Prop where
  pos_le : s.pos ≤ tokens.length → s'.pos ≤ tokens.length
  depth_le : s.depth ≤ s'.depth
  opened : Opened [] s s'

theorem Ended.refl {tokens : List Token} (s : Cursor) : Ended tokens s s :=
  ⟨id, Nat.le_refl _, .refl s⟩

theorem Ended.behind {tokens : List Token} (h : s.pos < tokens.length) : Ended tokens s s.advance :=
  ⟨fun _ => h, Nat.le_refl _, (Opened.refl s).advance⟩

/-- A loop takes one more level. -/
theorem Ended.deeper {tokens : List Token} (h : Ended tokens s s') :
    Ended tokens s (s'.setDepth (s'.depth + 1)) :=
  ⟨h.pos_le, Nat.le_succ_of_le h.depth_le, h.opened.setDepth⟩

theorem Ended.trans {tokens : List Token} (h : Ended tokens s s') (h' : Ended tokens s' s'') :
    Ended tokens s s'' :=
  ⟨fun hpos => h'.pos_le (h.pos_le hpos), Nat.le_trans h.depth_le h'.depth_le, h.opened.trans h'.opened⟩

/-- A call has returned. -/
structure Returned (tokens : List Token) (s s' : Cursor) : Prop where
  pos_lt : s.pos < s'.pos
  pos_le : s'.pos ≤ tokens.length
  depth_eq : s'.depth = s.depth
  opened : Opened [] s s'

theorem Returned.ended {tokens : List Token} (h : Returned tokens s s') : Ended tokens s s' :=
  ⟨fun _ => h.pos_le, Nat.le_of_eq h.depth_eq.symm, h.opened⟩

end Cursor

namespace Reading

open Cursor

/-- The call of `run` in `s` comes to `x`, and if it returns, it has taken a token and has closed all that
it opened. -/
abbrev Returns {α : Type} (tokens : List Token) (enough : Prop) (b : Nat)
    (x : Except Fault (α × List Token)) (run : Reading α) (s : Trail) : Prop :=
  Follows tokens enough (Bounded b s.toCursor) (fun s' => Returned tokens s.toCursor s'.toCursor) x run s

/-- The loop `run` comes to `x` from `s`. -/
abbrev Ends {α : Type} (tokens : List Token) (enough : Prop) (b : Nat)
    (x : Except Fault (α × List Token)) (run : Reading α) (s : Trail) : Prop :=
  Follows tokens enough (Bounded b s.toCursor) (fun s' => Ended tokens s.toCursor s'.toCursor) x run s

section

variable {α β : Type} {tokens : List Token} {enough enough' : Prop} {a b : Nat} {opened : List Routine}
  {P : Trail → Prop} {x : Except Fault (α × List Token)} {run : Reading α} {s s' : Trail}

theorem Follows.within (h : Follows tokens enough (Bounded a s'.toCursor) P x run s')
    (henough : enough' → enough) (hopened : Opened opened s.toCursor s'.toCursor) (levels : Nat)
    (hlevels : levels ≤ maxDepth - s.depth) (hdepth : s.depth + levels ≤ s'.depth)
    (hentered : opened.count .entered ≤ levels) (hlength : opened.length + a ≤ 4 * levels + b) :
    Follows tokens enough' (Bounded b s.toCursor) P x run s' :=
  h.mono henough (fun _ => hopened.bounded_of_bounded levels hlevels hdepth hentered hlength) fun _ => id

theorem Follows.within_level (h : Follows tokens enough (Bounded a s'.toCursor) P x run s')
    (henough : enough' → enough) (hopened : Opened opened s.toCursor s'.toCursor)
    (hdepth : s'.depth = s.depth) (hentered : opened.count .entered ≤ 0) (hlength : opened.length + a ≤ b) :
    Follows tokens enough' (Bounded b s.toCursor) P x run s' :=
  h.within henough hopened 0 (Nat.zero_le _) (Nat.le_of_eq hdepth.symm) hentered
    (Nat.le_trans hlength (Nat.le_add_left _ _))

theorem Follows.of_enough {B : Cursor → Prop} (h : Follows tokens enough B P x run s)
    (henough : enough' → enough) : Follows tokens enough' B P x run s :=
  h.mono henough (fun _ => id) fun _ => id

/-- A turn of a loop that has taken a level in `s'`: a call returns, and then the loop goes on. -/
theorem Ends.turn {f : α × List Token → Except Fault (β × List Token)} {next : α → Reading β}
    (hlevel : 1 ≤ maxDepth - s.depth) (hbehind : Ended tokens s.toCursor s'.toCursor)
    (hdepth : s'.depth = s.depth + 1) (ha : a ≤ 4) (h : Returns tokens enough a x run s')
    (hnext : ∀ value s₁, s'.pos ≤ s₁.pos → Returned tokens s'.toCursor s₁.toCursor →
      Ends tokens enough 0 (f (value, tokens.drop s₁.pos)) (next value) s₁) :
    Follows tokens enough (Bounded 0 s.toCursor) (fun s₁ => Ended tokens s.toCursor s₁.toCursor)
      (x >>= f) (run >>= next) s' := by
  refine .bind (h.within id hbehind.opened 1 hlevel (Nat.le_of_eq hdepth.symm) (by decide) ?_)
    fun value s₁ hforward hreturned => ?_
  · rwa [List.length_nil, Nat.zero_add]
  · have hdepth₁ := hreturned.depth_eq.trans hdepth
    have hbehind₁ := hbehind.trans hreturned.ended
    refine .mono ((hnext value s₁ hforward hreturned).within id hbehind₁.opened 1 hlevel
      (Nat.le_of_eq hdepth₁.symm) (by decide) (by decide)) id (fun _ => id) ?_
    exact fun s₂ hended => hbehind₁.trans hended

/-- What an expression and a chain do at their end. -/
theorem Returns.of_levels {depth : Nat} {routine : Routine} {value : Expr} (hs : s.depth = depth)
    (hopened : Opened [routine] s.toCursor s'.toCursor) (hforward : s.pos < s'.pos)
    (hpos : s'.pos ≤ tokens.length) (hbounded : Bounded b s.toCursor (s'.toCursor.setDepth depth)) :
    Follows tokens enough (Bounded b s.toCursor) (fun s₁ => Returned tokens s.toCursor s₁.toCursor)
      (.ok (value, tokens.drop s'.pos))
      (do
        move (.setDepth depth)
        move .leave
        return value) s' := by
  have hleft : Opened [] s.toCursor (s'.toCursor.setDepth depth).leave := hopened.setDepth.leave
  refine .move (Nat.le_refl _) hbounded (.move (Nat.le_refl _) hleft.bounded_of_nil ?_)
  exact .pure rfl ⟨hforward, hpos, hs.symm, hleft⟩

end

/-- Calls and turns of loops inside one another, at most, for what is to be read behind `pos` tokens: seven
for each token that is left, and `rank` before the next one is taken. -/
def cost (tokens : List Token) (rank pos : Nat) : Nat :=
  7 * (tokens.length - pos) + rank

section

variable {tokens : List Token} {rank rank' fuel pos pos' : Nat}

theorem cost_lt_of_rank (hrank : rank' < rank) (hfuel : cost tokens rank pos < fuel + 1) :
    cost tokens rank' pos < fuel := by
  rw [cost] at hfuel ⊢
  omega

theorem cost_lt_of_forward (hforward : pos < pos') (hpos : pos' ≤ tokens.length)
    (hrank : rank' < rank + 7) (hfuel : cost tokens rank pos < fuel + 1) :
    cost tokens rank' pos' < fuel := by
  rw [cost] at hfuel ⊢
  omega

end

/-! The induction is on the fuel. Where no token is taken before a call, the ranks order the calls:
`primaryFrom`, `items`, `itemsFrom`, `expr`, `chain`, `primary`. -/

mutual

theorem follows_expr (tokens : List Token) (stop : Nat) :
    (fuel : Nat) → (s : Trail) → {depth : Nat} → {rest : List Token} →
    s.depth = depth → tokens.drop s.pos = rest →
    Returns tokens (cost tokens 3 s.pos < fuel) 1 (taken (Parser.expr stop depth rest))
      (expr stop tokens fuel) s
  | 0, _, _, _, _, _ => .unended rfl (Nat.not_lt_zero _)
  | fuel + 1, s, depth, rest, hs, hrest => by
      rw [expr, Parser.taken_expr]
      subst hs hrest
      have hcalled : Opened [.expr] s.toCursor (s.step (.call .expr)).toCursor := ⟨rfl, rfl⟩
      refine .move (Nat.le_refl _) (hcalled.bounded (Nat.zero_le _) (by decide)) ?_
      refine .after rfl .stay (.after nextOffset_eq .stay (.enter rfl fun hdepth => ⟨?_, ?_⟩))
      · exact hcalled.setDepth.bounded (Nat.zero_le _) (by decide)
      -- From here on the expression has its level, which is good for the calls inside it.
      have hlevel : 1 ≤ maxDepth - s.depth := Nat.le_sub_of_add_le' hdepth
      have hentered : Opened [.entered] s.toCursor
        (((s.step (.call .expr)).step (.setDepth (s.depth + 1))).step .markEntered).toCursor := ⟨rfl, rfl⟩
      refine .move (Nat.le_refl _) (hentered.bounded hlevel (by decide)) ?_
      refine .bind (.within (follows_chain tokens stop fuel _ rfl rfl) (cost_lt_of_rank (by decide))
        hentered 1 hlevel (Nat.le_refl _) (by decide) (by decide)) fun first s₁ _ hchain => ?_
      have hbehind := hentered.trans hchain.opened
      refine .bind_last (.within (follows_summands tokens stop fuel first s₁ hchain.depth_eq rfl)
        (cost_lt_of_forward hchain.pos_lt hchain.pos_le (by decide)) hbehind 1 hlevel
        (Nat.le_of_eq hchain.depth_eq.symm) (by decide) (by decide)) fun value s₂ hforward hsummands => ?_
      have hopened := hbehind.trans hsummands.opened
      exact Returns.of_levels rfl hopened (Nat.lt_of_lt_of_le hchain.pos_lt hforward)
        (hsummands.pos_le hchain.pos_le) (hopened.setDepth.bounded hlevel (by decide))

theorem follows_summands (tokens : List Token) (stop : Nat) :
    (fuel : Nat) → (left : Expr) → (s : Trail) → {depth : Nat} → {rest : List Token} →
    s.depth = depth → tokens.drop s.pos = rest →
    Ends tokens (cost tokens 0 s.pos < fuel) 0 (takenMany (Parser.summands stop depth left rest))
      (summands stop tokens fuel left) s
  | 0, _, _, _, _, _, _ => .unended rfl (Nat.not_lt_zero _)
  | fuel + 1, left, s, depth, rest, hs, hrest => by
      rw [summands]
      subst hs
      rcases ahead_or_notAhead .plus rest with ⟨plus, tail, rfl, hplus⟩ | hend
      · rw [Parser.takenMany_summands_plus hplus]
        have hshorter := pos_lt_length hrest
        have hbehind : Ended tokens s.toCursor (behind s).toCursor := .behind hshorter
        refine .eat_of_ahead hrest hplus hbehind.opened.bounded_of_nil ?_
        -- The loop keeps this level; the expression that it belongs to gives all of them back.
        have hdeeper := hbehind.deeper
        refine .enter rfl fun hdepth => ⟨hdeeper.opened.bounded_of_nil, ?_⟩
        have hlevel : 1 ≤ maxDepth - s.depth := Nat.le_sub_of_add_le' hdepth
        have hchain := (follows_chain tokens stop fuel ((behind s).step (.setDepth (s.depth + 1))) rfl
          (drop_behind hrest)).of_enough
          (cost_lt_of_forward (Nat.lt_succ_self _) hshorter (by decide : 2 < 0 + 7))
        refine Ends.turn hlevel hdeeper rfl (Nat.le_refl _) hchain fun right s₁ hforward hright => ?_
        have hpassed := Nat.lt_of_lt_of_le (Nat.lt_succ_self _) hforward
        exact (follows_summands tokens stop fuel _ s₁ hright.depth_eq rfl).of_enough
          (cost_lt_of_forward hpassed hright.pos_le (by decide))
      · rw [Parser.takenMany_summands_end hend]
        exact .eat_of_notAhead (hrest ▸ hend) (.pure hrest (.refl _))

theorem follows_chain (tokens : List Token) (stop : Nat) :
    (fuel : Nat) → (s : Trail) → {depth : Nat} → {rest : List Token} →
    s.depth = depth → tokens.drop s.pos = rest →
    Returns tokens (cost tokens 2 s.pos < fuel) 4 (taken (Parser.chain stop depth rest))
      (chain stop tokens fuel) s
  | 0, _, _, _, _, _ => .unended rfl (Nat.not_lt_zero _)
  | fuel + 1, s, depth, rest, hs, hrest => by
      rw [chain, Parser.taken_chain]
      subst hs hrest
      have hcalled : Opened [.chain] s.toCursor (s.step (.call .chain)).toCursor := ⟨rfl, rfl⟩
      refine .move (Nat.le_refl _) (hcalled.bounded (Nat.zero_le _) (by decide)) (.after rfl .stay ?_)
      refine .bind (.within_level (follows_primary tokens stop fuel _ rfl rfl)
        (cost_lt_of_rank (by decide)) hcalled rfl (by decide) (by decide)) fun receiver s₁ _ hprimary => ?_
      have hbehind := hcalled.trans hprimary.opened
      refine .bind_last (.within_level (follows_links tokens stop fuel receiver s₁ hprimary.depth_eq rfl)
        (cost_lt_of_forward hprimary.pos_lt hprimary.pos_le (by decide)) hbehind hprimary.depth_eq
        (by decide) (by decide)) fun value s₂ hforward hlinks => ?_
      have hopened := hbehind.trans hlinks.opened
      exact Returns.of_levels rfl hopened (Nat.lt_of_lt_of_le hprimary.pos_lt hforward)
        (hlinks.pos_le hprimary.pos_le) (hopened.setDepth.bounded (Nat.zero_le _) (by decide))

theorem follows_links (tokens : List Token) (stop : Nat) :
    (fuel : Nat) → (receiver : Expr) → (s : Trail) → {depth : Nat} → {rest : List Token} →
    s.depth = depth → tokens.drop s.pos = rest →
    Ends tokens (cost tokens 0 s.pos < fuel) 0 (takenMany (Parser.links stop depth receiver rest))
      (links stop tokens fuel receiver) s
  | 0, _, _, _, _, _, _ => .unended rfl (Nat.not_lt_zero _)
  | fuel + 1, receiver, s, depth, rest, hs, hrest => by
      rw [links]
      subst hs
      rcases ahead_or_notAhead .dot rest with ⟨dot, tail, rfl, hdot⟩ | hend
      · rw [Parser.takenMany_links_dot hdot]
        have hbehind : Ended tokens s.toCursor (behind s).toCursor := .behind (pos_lt_length hrest)
        refine .eat_of_ahead hrest hdot hbehind.opened.bounded_of_nil ?_
        have hdeeper := hbehind.deeper
        refine .enter rfl fun hdepth => ⟨hdeeper.opened.bounded_of_nil, ?_⟩
        have hlevel : 1 ≤ maxDepth - s.depth := Nat.le_sub_of_add_le' hdepth
        have htail := drop_behind hrest
        refine .expect htail fun method rest₁ hmethod => ⟨hdeeper.opened.advance.bounded_of_nil, ?_⟩
        have hbehindName := hdeeper.trans (.behind (pos_lt_length (htail.trans hmethod)))
        have hrest₁ := drop_behind (htail.trans hmethod)
        refine .expect hrest₁ fun opening rest₂ hopening =>
          ⟨hbehindName.opened.advance.bounded_of_nil, ?_⟩
        have hshorter := pos_lt_length (hrest₁.trans hopening)
        have hpassed : s.pos < s.pos + 3 := Nat.lt_add_of_pos_right (Nat.succ_pos 2)
        have hitems := (follows_items tokens stop fuel .parenClose
          (behind (behind ((behind s).step (.setDepth (s.depth + 1))))) rfl
          (drop_behind (hrest₁.trans hopening))).of_enough
          (cost_lt_of_forward hpassed hshorter (by decide : 5 < 0 + 7))
        refine Ends.turn hlevel (hbehindName.trans (.behind hshorter)) rfl (by decide) hitems
          fun args s₁ hforward hargs => ?_
        exact (follows_links tokens stop fuel _ s₁ hargs.depth_eq rfl).of_enough
          (cost_lt_of_forward (Nat.lt_of_lt_of_le hpassed hforward) hargs.pos_le (by decide))
      · rw [Parser.takenMany_links_end hend]
        exact .eat_of_notAhead (hrest ▸ hend) (.pure hrest (.refl _))

theorem follows_primary (tokens : List Token) (stop : Nat) :
    (fuel : Nat) → (s : Trail) → {depth : Nat} → {rest : List Token} →
    s.depth = depth → tokens.drop s.pos = rest →
    Returns tokens (cost tokens 1 s.pos < fuel) 3 (taken (Parser.primary stop depth rest))
      (primary stop tokens fuel) s
  | 0, _, _, _, _, _ => .unended rfl (Nat.not_lt_zero _)
  | fuel + 1, s, depth, rest, hs, hrest => by
      rw [primary]
      have hcalled : Opened [.primary] s.toCursor (s.step (.call .primary)).toCursor := ⟨rfl, rfl⟩
      refine .move (Nat.le_refl _) (hcalled.bounded (Nat.zero_le _) (by decide)) ?_
      cases rest with
      | nil =>
          rw [Parser.taken_primary_unexpected (by simp)]
          exact .after (bump_of_nil hrest) .stay (.throw _)
      | cons t tail =>
          have hshorter := pos_lt_length hrest
          have hbehind : Opened [.primary] s.toCursor (behind (s.step (.call .primary))).toCursor :=
            hcalled.advance
          have hbounded : Bounded 3 s.toCursor (behind (s.step (.call .primary))).toCursor :=
            hbehind.bounded (Nat.zero_le _) (by decide)
          refine .after (bump_of_cons hrest) (.step .stay (Nat.le_succ _) hbounded) ?_
          refine .bind_last (.within_level (follows_primaryFrom tokens stop fuel t _ hs (drop_behind hrest))
            (cost_lt_of_forward (Nat.lt_succ_self _) hshorter (by decide)) hbehind rfl (by decide)
            (by decide)) fun value s₁ hforward hvalue => ?_
          obtain ⟨hended, hdepth⟩ := hvalue
          have hleft := (hbehind.trans hended.opened).leave
          refine .move (Nat.le_refl _) hleft.bounded_of_nil ?_
          refine .pure rfl ⟨?_, hended.pos_le hshorter, hdepth, hleft⟩
          exact Nat.lt_of_lt_of_le (Nat.lt_succ_self _) hforward

theorem follows_primaryFrom (tokens : List Token) (stop : Nat) :
    (fuel : Nat) → (t : Token) → (s : Trail) → {depth : Nat} → {rest : List Token} →
    s.depth = depth → tokens.drop s.pos = rest →
    Follows tokens (cost tokens 6 s.pos < fuel) (Bounded 2 s.toCursor)
      (fun s' => Ended tokens s.toCursor s'.toCursor ∧ s'.depth = s.depth)
      (taken (Parser.primary stop depth (t :: rest))) (primaryFrom stop tokens fuel t) s
  | 0, _, _, _, _, _, _ => .unended rfl (Nat.not_lt_zero _)
  | fuel + 1, t, s, depth, rest, hs, hrest => by
      rw [primaryFrom]
      cases hkind : t.kind with
      | text =>
          rw [Parser.taken_primary_text hkind]
          exact .pure hrest ⟨.refl _, rfl⟩
      | number =>
          rw [Parser.taken_primary_number hkind]
          exact .pure hrest ⟨.refl _, rfl⟩
      | yes =>
          rw [Parser.taken_primary_yes hkind]
          exact .pure hrest ⟨.refl _, rfl⟩
      | no =>
          rw [Parser.taken_primary_no hkind]
          exact .pure hrest ⟨.refl _, rfl⟩
      | name =>
          rcases ahead_or_notAhead .parenOpen rest with ⟨opening, tail, rfl, hopening⟩ | hend
          · rw [Parser.taken_primary_call hkind hopening]
            have hshorter := pos_lt_length hrest
            have hbehind : Ended tokens s.toCursor (behind s).toCursor := .behind hshorter
            refine .eat_of_ahead hrest hopening hbehind.opened.bounded_of_nil ?_
            refine .bind (.within_level (follows_items tokens stop fuel .parenClose _ hs (drop_behind hrest))
              (cost_lt_of_forward (Nat.lt_succ_self _) hshorter (by decide)) hbehind.opened rfl (by decide)
              (by decide)) fun args s₁ _ hitems => ?_
            exact .pure rfl ⟨hbehind.trans hitems.ended, hitems.depth_eq⟩
          · rw [Parser.taken_primary_reference hkind hend]
            exact .eat_of_notAhead (hrest ▸ hend) (.pure hrest ⟨.refl _, rfl⟩)
      | bracketOpen =>
          rw [Parser.taken_primary_list hkind]
          have hlist := (follows_items tokens stop fuel .bracketClose s hs hrest).of_enough
            (cost_lt_of_rank (Nat.lt_succ_self 5))
          refine .bind hlist fun values s₁ _ hitems => ?_
          exact .pure rfl ⟨hitems.ended, hitems.depth_eq⟩
      | parenOpen =>
          rw [Parser.taken_primary_group hkind]
          refine .bind (.within_level (follows_expr tokens stop fuel s hs hrest)
            (cost_lt_of_rank (by decide)) (.refl _) rfl (by decide) (by decide)) fun inner s₁ _ hexpr => ?_
          refine .expect rfl fun closing tail hclosing => ⟨hexpr.opened.advance.bounded_of_nil, ?_⟩
          exact .pure (drop_behind hclosing)
            ⟨hexpr.ended.trans (.behind (pos_lt_length hclosing)), hexpr.depth_eq⟩
      | _ =>
          have hbegins : ∀ u ∈ (t :: rest).head?, Grammar.begins u.kind = false := by
            intro u hu
            cases hu
            rw [hkind]
            rfl
          rw [Parser.taken_primary_unexpected hbegins, Parser.unexpected, List.head?_cons,
            Option.map_some, hkind]
          exact .throw _

theorem follows_items (tokens : List Token) (stop : Nat) :
    (fuel : Nat) → (close : TokenKind) → (s : Trail) → {depth : Nat} → {rest : List Token} →
    s.depth = depth → tokens.drop s.pos = rest →
    Returns tokens (cost tokens 5 s.pos < fuel) 2 (taken (Parser.items stop depth close rest))
      (items stop tokens fuel close) s
  | 0, _, _, _, _, _, _ => .unended rfl (Nat.not_lt_zero _)
  | fuel + 1, close, s, depth, rest, hs, hrest => by
      rw [items, ← bind_pure (taken (Parser.items stop depth close rest))]
      have hcalled : Opened [.items] s.toCursor (s.step (.call .items)).toCursor := ⟨rfl, rfl⟩
      refine .move (Nat.le_refl _) (hcalled.bounded (Nat.zero_le _) (by decide)) ?_
      refine .bind_last (.within_level (follows_itemsFrom tokens stop fuel close [] _ hs hrest)
        (cost_lt_of_rank (by decide)) hcalled rfl (by decide) (by decide)) fun values s₁ _ hitems => ?_
      have hleft := (hcalled.trans hitems.opened).leave
      refine .move (Nat.le_refl _) hleft.bounded_of_nil ?_
      exact .pure rfl ⟨hitems.pos_lt, hitems.pos_le, hitems.depth_eq, hleft⟩

theorem follows_itemsFrom (tokens : List Token) (stop : Nat) :
    (fuel : Nat) → (close : TokenKind) → (values : List Expr) → (s : Trail) → {depth : Nat} →
    {rest : List Token} → s.depth = depth → tokens.drop s.pos = rest →
    Returns tokens (cost tokens 4 s.pos < fuel) 1
      (do
        let others ← taken (Parser.items stop depth close rest)
        return (values ++ others.1, others.2))
      (itemsFrom stop tokens fuel close values) s
  | 0, _, _, _, _, _, _, _ => .unended rfl (Nat.not_lt_zero _)
  | fuel + 1, close, values, s, depth, rest, hs, hrest => by
      rw [itemsFrom]
      rcases ahead_or_notAhead close rest with ⟨closing, tail, rfl, hclosing⟩ | hopen
      · rw [Parser.taken_items_close hclosing]
        have hbehind : Ended tokens s.toCursor (behind s).toCursor := .behind (pos_lt_length hrest)
        refine .eat_of_ahead hrest hclosing hbehind.opened.bounded_of_nil ?_
        change Follows tokens _ _ _ (.ok (values ++ [], tail)) _ _
        rw [List.append_nil]
        exact .pure (drop_behind hrest) ⟨Nat.lt_succ_self _, pos_lt_length hrest, rfl, hbehind.opened⟩
      · rw [Parser.taken_items hopen, bind_assoc]
        refine .eat_of_notAhead (hrest ▸ hopen) ?_
        have hvalue := (follows_expr tokens stop fuel s hs hrest).of_enough
          (cost_lt_of_rank (Nat.lt_succ_self 3))
        refine .bind hvalue fun value s₁ _ hexpr => ?_
        have hdepth := hexpr.depth_eq.trans hs
        have hpassed := hexpr.opened.advance
        dsimp only
        rw [bind_assoc]
        rcases ahead_or_notAhead .comma (tokens.drop s₁.pos) with ⟨comma, tail, htail, hcomma⟩ | hlast
        -- The parser puts the item before those behind the comma, the loop behind those before it.
        · rw [htail, Parser.afterItem_comma hcomma]
          refine .eat_of_ahead htail hcomma hpassed.bounded_of_nil ?_
          have hforward := Nat.lt_succ_of_lt hexpr.pos_lt
          have hmore := follows_itemsFrom tokens stop fuel close (values ++ [value]) (behind s₁) hdepth
            (drop_behind htail)
          simp only [List.append_assoc, List.singleton_append] at hmore
          refine .mono (.within_level hmore (cost_lt_of_forward hforward (pos_lt_length htail) (by decide))
            hpassed hexpr.depth_eq (by decide) (by decide)) id (fun _ => id) fun s₂ hitems => ?_
          exact ⟨Nat.lt_trans hforward hitems.pos_lt, hitems.pos_le,
            hitems.depth_eq.trans hexpr.depth_eq, hpassed.trans hitems.opened⟩
        · rw [Parser.afterItem_of_notAhead hlast, bind_assoc]
          refine .eat_of_notAhead hlast (.expect rfl fun closing tail hclosing =>
            ⟨hpassed.bounded_of_nil, ?_⟩)
          exact .pure (drop_behind hclosing)
            ⟨Nat.lt_succ_of_lt hexpr.pos_lt, pos_lt_length hclosing, hexpr.depth_eq, hpassed⟩

end

/-! ### Statements -/

/-- What the parser makes of a statement without its semicolon, where levels may be open. -/
def bareAt (stop depth : Nat) (tokens : List Token) : Except Fault (Stmt × List Token) :=
  match Parser.take? .declare tokens with
  | some declare => do
    let name ← taken (Parser.expect stop .name .bindingName declare.rest)
    let equals ← taken (Parser.expect stop .equals (.token .equals) name.2)
    let value ← taken (Parser.expr stop depth equals.2)
    return (.bind name.1.text value.1, value.2)
  | none => do
    let value ← taken (Parser.expr stop depth tokens)
    return (.expr value.1, value.2)

def statementAt (stop depth : Nat) (tokens : List Token) : Except Fault (Stmt × List Token) := do
  let stmt ← bareAt stop depth tokens
  return (stmt.1, Parser.dropSemicolon stmt.2)

theorem bareAt_zero (stop : Nat) (tokens : List Token) :
    bareAt stop 0 tokens = taken (Parser.statement.bare stop tokens) := by
  rcases ahead_or_notAhead .declare tokens with ⟨declare, tail, rfl, hdeclare⟩ | hexpr
  · rw [bareAt, Parser.take?_cons_of_eq hdeclare, Parser.taken_bare_declare hdeclare]
  · rw [bareAt, Parser.take?_of_notAhead hexpr, Parser.taken_bare_expr hexpr]

theorem statementAt_zero (stop : Nat) (tokens : List Token) :
    statementAt stop 0 tokens = taken (Parser.statement stop tokens) := by
  rw [statementAt, bareAt_zero, Parser.taken_statement_drop]

theorem follows_bare (tokens : List Token) (stop fuel : Nat) (s : Trail) {depth : Nat} {rest : List Token}
    (hs : s.depth = depth) (hrest : tokens.drop s.pos = rest) :
    Returns tokens (cost tokens 3 s.pos < fuel) 1 (bareAt stop depth rest) (bare stop tokens fuel) s := by
  rw [bare]
  rcases ahead_or_notAhead .declare rest with ⟨declare, tail, rfl, hdeclare⟩ | hexpr
  · rw [bareAt, Parser.take?_cons_of_eq hdeclare]
    have hbehind := (Opened.refl s.toCursor).advance
    refine .eat_of_ahead hrest hdeclare hbehind.bounded_of_nil ?_
    have htail := drop_behind hrest
    refine .expect htail fun name rest₁ hname => ⟨hbehind.advance.bounded_of_nil, ?_⟩
    have hrest₁ := drop_behind (htail.trans hname)
    refine .expect hrest₁ fun equals rest₂ hequals => ⟨hbehind.advance.advance.bounded_of_nil, ?_⟩
    have hshorter := pos_lt_length (hrest₁.trans hequals)
    have hpassed : s.pos < s.pos + 3 := Nat.lt_add_of_pos_right (Nat.succ_pos 2)
    refine .bind (.within_level (follows_expr tokens stop fuel _ hs (drop_behind (hrest₁.trans hequals)))
      ?_ hbehind.advance.advance rfl (by decide) (by decide))
      fun value s₁ _ hexpr => .pure rfl ⟨?_, hexpr.pos_le, hexpr.depth_eq, ?_⟩
    · intro hfuel
      exact cost_lt_of_forward hpassed hshorter (by decide) (Nat.lt_succ_of_lt hfuel)
    · exact Nat.lt_trans hpassed hexpr.pos_lt
    · exact hbehind.advance.advance.trans hexpr.opened
  · rw [bareAt, Parser.take?_of_notAhead hexpr]
    refine .eat_of_notAhead (hrest ▸ hexpr) ?_
    exact .bind (follows_expr tokens stop fuel s hs hrest) fun value s₁ _ hexpr => .pure rfl hexpr

theorem follows_statement (tokens : List Token) (stop fuel : Nat) (s : Trail) {depth : Nat}
    {rest : List Token} (hs : s.depth = depth) (hrest : tokens.drop s.pos = rest) :
    Returns tokens (cost tokens 3 s.pos < fuel) 2 (statementAt stop depth rest)
      (statement stop tokens fuel) s := by
  rw [statement, statementAt]
  have hcalled : Opened [.statement] s.toCursor (s.step (.call .statement)).toCursor := ⟨rfl, rfl⟩
  refine .move (Nat.le_refl _) (hcalled.bounded (Nat.zero_le _) (by decide)) ?_
  refine .bind (.within_level (follows_bare tokens stop fuel _ hs hrest) id hcalled rfl (by decide)
    (by decide)) fun stmt s₁ _ hbare => ?_
  have hopened := hcalled.trans hbare.opened
  dsimp only
  rw [Parser.dropSemicolon]
  rcases ahead_or_notAhead .semicolon (tokens.drop s₁.pos) with ⟨semicolon, tail, htail, hsemicolon⟩ | hend
  · rw [htail, Parser.take?_cons_of_eq hsemicolon]
    refine .eat_of_ahead htail hsemicolon (hopened.advance.bounded (Nat.zero_le _) (by decide)) ?_
    refine .move (Nat.le_refl _) hopened.advance.leave.bounded_of_nil (.pure (drop_behind htail) ?_)
    exact ⟨Nat.lt_succ_of_lt hbare.pos_lt, pos_lt_length htail, hbare.depth_eq, hopened.advance.leave⟩
  · rw [Parser.take?_of_notAhead hend]
    refine .eat_of_notAhead hend (.move (Nat.le_refl _) hopened.leave.bounded_of_nil (.pure rfl ?_))
    exact ⟨hbare.pos_lt, hbare.pos_le, hbare.depth_eq, hopened.leave⟩

end Reading

/-! ### Programs -/

namespace Cursor

variable {tokens : List Token} {s s' c : Cursor}

/-- What reading a program never exceeds. -/
structure Safe (tokens : List Token) (c : Cursor) : Prop where
  entered_le : c.entered ≤ maxDepth
  calls_le : c.calls.length ≤ 4 * maxDepth + 3
  turns_le : c.turns ≤ tokens.length

/-- Only the program is open. -/
structure Idle (s : Cursor) : Prop where
  depth_eq : s.depth = 0
  calls_eq : s.calls = [.program]

theorem Idle.safe (h : Idle s) (hturns : s.turns ≤ tokens.length) (hc : Bounded 2 s c) :
    Safe tokens c := by
  obtain ⟨hentered, hcalls, hturns'⟩ := hc
  rw [entered, entered, h.calls_eq, h.depth_eq] at hentered
  rw [h.calls_eq, h.depth_eq] at hcalls
  exact ⟨Nat.le_trans hentered (by decide), Nat.le_trans hcalls (by decide), hturns' ▸ hturns⟩

theorem Idle.of_returned (h : Idle s) (hreturned : Returned tokens s s') : Idle s' :=
  ⟨hreturned.depth_eq.trans h.depth_eq, hreturned.opened.calls_eq.trans h.calls_eq⟩

end Cursor

namespace Reading

open Cursor

/-- Each turn of the loop takes a token at least, so that there are no more turns than tokens before the
cursor. -/
theorem follows_statements (tokens : List Token) (stop : Nat) :
    (fuel : Nat) → (stmts : List Stmt) → (s : Trail) → {rest : List Token} → Idle s.toCursor →
    s.turns ≤ s.pos → s.pos ≤ tokens.length → tokens.drop s.pos = rest →
    Follows tokens (cost tokens 4 s.pos < fuel) (Safe tokens)
      (fun s' => s'.calls = [.program] ∧ s'.turns ≤ tokens.length)
      (do
        let more ← Parser.program stop rest
        return (stmts ++ more, []))
      (statements stop tokens fuel stmts) s
  | 0, _, _, _, _, _, _, _ => .unended rfl (Nat.not_lt_zero _)
  | fuel + 1, stmts, s, rest, hidle, hturns, hpos, hrest => by
      rw [statements]
      refine .after rfl .stay ?_
      cases rest with
      | nil =>
          rw [if_pos (List.drop_eq_nil_iff.mp hrest), Parser.program]
          change Follows tokens _ _ _ (.ok (stmts ++ [], [])) _ _
          rw [List.append_nil]
          exact .pure hrest ⟨hidle.calls_eq, Nat.le_trans hturns hpos⟩
      | cons t tail =>
          have hshorter := pos_lt_length hrest
          -- The turn is counted before its token is taken, so that a token has to be left for it.
          have hturned : s.turns + 1 ≤ tokens.length := Nat.le_trans (Nat.succ_le_succ hturns) hshorter
          have hidle₀ : Idle (s.step .turn).toCursor := ⟨hidle.depth_eq, hidle.calls_eq⟩
          have hsafe : ∀ c, Bounded 2 (s.step .turn).toCursor c → Safe tokens c :=
            fun _ => hidle₀.safe hturned
          rw [if_neg (Nat.not_le_of_lt hshorter)]
          refine .move (Nat.le_refl _) (hsafe _ (Opened.refl _).bounded_of_nil) ?_
          by_cases ht : t.kind = .semicolon
          · rw [Parser.program_semicolon ht]
            refine .eat_of_ahead hrest ht (hsafe _ (Opened.refl _).advance.bounded_of_nil) ?_
            have hmore := follows_statements tokens stop fuel stmts (behind (s.step .turn))
              ⟨hidle.depth_eq, hidle.calls_eq⟩ (Nat.succ_le_succ hturns) hshorter (drop_behind hrest)
            exact hmore.of_enough
              (cost_lt_of_forward (Nat.lt_succ_self _) hshorter (by decide : 4 < 4 + 7))
          · rw [Parser.program_statement ht, ← statementAt_zero, bind_assoc]
            refine .eat_of_notAhead (hrest ▸ Grammar.notAhead_of_kind rfl ht tail) ?_
            refine .bind (.mono (follows_statement tokens stop fuel _ hidle.depth_eq hrest)
              (cost_lt_of_rank (Nat.lt_succ_self 3)) hsafe fun _ => id) fun stmt s₁ _ hstmt => ?_
            have hturns₁ : s₁.turns ≤ s₁.pos :=
              hstmt.opened.turns_eq ▸ Nat.le_trans (Nat.succ_le_succ hturns) hstmt.pos_lt
            have hmore := follows_statements tokens stop fuel (stmts ++ [stmt]) s₁
              (hidle₀.of_returned hstmt) hturns₁ hstmt.pos_le rfl
            simp only [List.append_assoc, List.singleton_append] at hmore
            rw [bind_assoc]
            exact hmore.of_enough (cost_lt_of_forward hstmt.pos_lt hstmt.pos_le (by decide : 4 < 4 + 7))

theorem follows_program (tokens : List Token) (stop fuel : Nat) :
    Follows tokens (cost tokens 4 0 < fuel) (Safe tokens) (fun _ => True)
      (do
        let stmts ← Parser.program stop tokens
        return (stmts, []))
      (program stop tokens fuel) {} := by
  rw [program]
  have hstart : Safe tokens (Cursor.call .program {}) := ⟨by decide, by decide, Nat.zero_le _⟩
  refine .move (Nat.le_refl _) hstart ?_
  have hloop := follows_statements tokens stop fuel [] (({} : Trail).step (.call .program)) ⟨rfl, rfl⟩
    (Nat.le_refl _) (Nat.zero_le _) rfl
  refine .bind_last hloop fun stmts s _ hs => ?_
  obtain ⟨hcalls, hturns⟩ := hs
  have hleft : s.toCursor.leave.calls = [] := congrArg List.tail hcalls
  refine .move (Nat.le_refl _) ⟨?_, ?_, hturns⟩ (.pure rfl trivial)
  · rw [entered, hleft]
    exact Nat.zero_le _
  · rw [hleft]
    exact Nat.zero_le _

theorem program_run (stop : Nat) (tokens : List Token) {fuel : Nat} (hfuel : cost tokens 4 0 < fuel) :
    ∃ s, program stop tokens fuel {} = some (Parser.program stop tokens, s) ∧
      Goes (Safe tokens) {} s := by
  obtain ⟨s, hrun, hgoes⟩ := (follows_program tokens stop fuel).exists_run hfuel
  refine ⟨s, hrun.trans ?_, hgoes⟩
  cases Parser.program stop tokens <;> rfl

theorem parse_run (source : String) : ∃ enough, ∀ fuel ≥ enough,
    ∃ s, parse fuel source {} = some (Script.parse source, s) ∧
      Goes (fun c => c.calls.length ≤ 4 * maxDepth + 3) {} s := by
  simp only [parse, Script.parse]
  cases tokenize source with
  | error fault => exact ⟨0, fun fuel _ => ⟨{}, rfl, .stay⟩⟩
  | ok tokens =>
      refine ⟨cost tokens 4 0 + 1, fun fuel hfuel => ?_⟩
      obtain ⟨s, hrun, hgoes⟩ := program_run source.utf8ByteSize tokens hfuel
      exact ⟨s, hrun, hgoes.mono fun _ => Safe.calls_le⟩

theorem parse_eq_of_run {source : String} {fuel : Nat} {y : Except Fault (List Stmt)} {s : Trail}
    (h : parse fuel source {} = some (y, s)) : Script.parse source = y := by
  rw [parse] at h
  rw [Script.parse]
  cases htokens : tokenize source with
  | error fault =>
      rw [htokens] at h
      exact (Prod.ext_iff.mp (Option.some.inj h)).1
  | ok tokens =>
      rw [htokens] at h
      rw [← (follows_program tokens source.utf8ByteSize fuel).map_fst_eq h]
      change Parser.program source.utf8ByteSize tokens = _
      cases Parser.program source.utf8ByteSize tokens <;> rfl

end Reading

/-- The parser's recursion does not compute, but reading with fuel does, and what it ends with is what the
parser says. -/
theorem evaluate_eq_ok_of_reading {source : String} {d : Declarations} (fuel : Nat)
    (h : ((Reading.parse fuel source {}).bind fun read =>
      (read.1 >>= declarations).toOption) = some d) : evaluate source = .ok d := by
  obtain ⟨⟨y, s⟩, hrun, hd⟩ := Option.bind_eq_some_iff.mp h
  rw [evaluate, Reading.parse_eq_of_run hrun]
  cases hy : y >>= declarations with
  | error fault =>
      rw [hy] at hd
      cases hd
  | ok declared =>
      rw [hy] at hd
      cases hd
      rfl

open Reading in
/-- **Reading comes to an end.** In any state a call ends as the parser says, within fuel that is linear in
the tokens that are left, and the cursor never goes back in it. If the call returns, it has taken a token,
has not gone past the end, and has left as many levels open as there were. While a program is read, there
are at no time more expressions open than there may be levels, nor more turns of the loop over the
statements than tokens. Any source can be read, with a bounded number of calls open at a time. -/
theorem reading_ends :
    (∀ (stop : Nat) (tokens : List Token) (s : Trail) (fuel : Nat),
      Returns tokens (7 * (tokens.length - s.pos) + 6 ≤ fuel) 2
        (statementAt stop s.depth (tokens.drop s.pos)) (statement stop tokens fuel) s ∧
      Returns tokens (7 * (tokens.length - s.pos) + 6 ≤ fuel) 1
        (taken (Parser.expr stop s.depth (tokens.drop s.pos))) (expr stop tokens fuel) s ∧
      Returns tokens (7 * (tokens.length - s.pos) + 6 ≤ fuel) 4
        (taken (Parser.chain stop s.depth (tokens.drop s.pos))) (chain stop tokens fuel) s ∧
      Returns tokens (7 * (tokens.length - s.pos) + 6 ≤ fuel) 3
        (taken (Parser.primary stop s.depth (tokens.drop s.pos))) (primary stop tokens fuel) s ∧
      ∀ close, Returns tokens (7 * (tokens.length - s.pos) + 6 ≤ fuel) 2
        (taken (Parser.items stop s.depth close (tokens.drop s.pos))) (items stop tokens fuel close) s) ∧
    (∀ (stop : Nat) (tokens : List Token) (fuel : Nat), 7 * tokens.length + 5 ≤ fuel →
      ∃ s : Trail, program stop tokens fuel {} = some (Parser.program stop tokens, s) ∧
        s.states.Pairwise (fun later earlier => earlier.pos ≤ later.pos) ∧
        ∀ c ∈ s.states, c.entered ≤ maxDepth ∧ c.calls.length ≤ 4 * maxDepth + 3 ∧
          c.turns ≤ tokens.length) ∧
    ∀ source : String, ∃ enough, ∀ fuel ≥ enough,
      ∃ s : Trail, Reading.parse fuel source {} = some (Script.parse source, s) ∧
        ∀ c ∈ s.states, c.calls.length ≤ 4 * maxDepth + 3 := by
  refine ⟨fun stop tokens s fuel => ?_, fun stop tokens fuel hfuel => ?_, fun source => ?_⟩
  · have henough (rank : Nat) (hrank : rank < 6) (hfuel : 7 * (tokens.length - s.pos) + 6 ≤ fuel) :
        cost tokens rank s.pos < fuel := cost_lt_of_rank hrank (Nat.lt_succ_of_le hfuel)
    refine ⟨?_, ?_, ?_, ?_, fun close => ?_⟩
    · exact (follows_statement tokens stop fuel s rfl rfl).of_enough (henough 3 (by decide))
    · exact (follows_expr tokens stop fuel s rfl rfl).of_enough (henough 3 (by decide))
    · exact (follows_chain tokens stop fuel s rfl rfl).of_enough (henough 2 (by decide))
    · exact (follows_primary tokens stop fuel s rfl rfl).of_enough (henough 1 (by decide))
    · exact (follows_items tokens stop fuel close s rfl rfl).of_enough (henough 5 (by decide))
  · obtain ⟨s, hrun, hgoes⟩ := program_run stop tokens hfuel
    refine ⟨s, hrun, hgoes.pairwise_pos (List.pairwise_singleton _ _), fun c hc => ?_⟩
    rcases hgoes.mem_states c hc with hstart | hsafe
    · rw [List.mem_singleton.mp hstart]
      exact ⟨Nat.zero_le _, Nat.zero_le _, Nat.zero_le _⟩
    · exact ⟨hsafe.entered_le, hsafe.calls_le, hsafe.turns_le⟩
  · obtain ⟨enough, hruns⟩ := parse_run source
    refine ⟨enough, fun fuel hfuel => ?_⟩
    obtain ⟨s, hrun, hgoes⟩ := hruns fuel hfuel
    refine ⟨s, hrun, fun c hc => ?_⟩
    rcases hgoes.mem_states c hc with hstart | hcalls
    · rw [List.mem_singleton.mp hstart]
      exact Nat.zero_le _
    · exact hcalls

theorem reading_ends_reference :
    (∃ s : Trail, Reading.expr 1 [⟨.name, "a", 0⟩] 13 {} = some (.ok (.reference 0 "a"), s) ∧
      s.pos = 1 ∧ s.depth = 0) ∧
    ∃ s : Trail,
      Reading.program 1 [⟨.name, "a", 0⟩] 12 {} = some (.ok [.expr (.reference 0 "a")], s) ∧
      s.toCursor ∈ s.states ∧ s.entered ≤ 256 ∧ s.calls.length ≤ 1027 ∧ s.turns ≤ 1 := by
  have hderivation : Grammar.Expression 0 [⟨.name, "a", 0⟩] [] (.reference 0 "a") :=
    .operands (by decide) (.first (.receiver (.reference rfl (by decide))))
  constructor
  · have hexpr : taken (Parser.expr 1 0 [⟨.name, "a", 0⟩]) = .ok (.reference 0 "a", []) :=
      Parser.taken_of_expression (by decide) (by decide) hderivation
    cases (reading_ends.1 1 [⟨.name, "a", 0⟩] {} 13).2.1 with
    | ok value s hrun hx _ hend =>
        have hvalue := congrArg Prod.fst (Except.ok.inj (hexpr.symm.trans hx))
        subst hvalue
        exact ⟨s, hrun, Nat.le_antisymm hend.pos_le hend.pos_lt, hend.depth_eq⟩
    | fault fault s _ hx _ => cases hexpr.symm.trans hx
    | unended _ hshort => exact absurd (by decide) hshort
  · have hprogram : Parser.program 1 [⟨.name, "a", 0⟩] = .ok [.expr (.reference 0 "a")] :=
      Parser.program_eq_ok_iff.mpr (.statement (.unended (.expr hderivation) (by decide)) .nil)
    obtain ⟨s, hrun, -, hstates⟩ := reading_ends.2.1 1 [⟨.name, "a", 0⟩] 12 (by decide)
    exact ⟨s, hprogram ▸ hrun, List.mem_cons_self, hstates _ List.mem_cons_self⟩

end AssetPipeline.Script
