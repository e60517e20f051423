import AssetPipeline.Proofs.Script.Evaluating
import AssetPipeline.Proofs.Script.Parsing
import AssetPipeline.Proofs.Script.Scanning
import Mathlib.Tactic.Ring

/-! How high the trees of expressions are. The levels of nesting are counted on the way down, and method
calls and sums stop counting where their chain or their expression ends, while the trees that they have
made stay. So on each level as many calls and sums as are left can be put on top of what is inside, and
the trees that are accepted are as high as the square of the deepest nesting, not as high as that. -/

namespace AssetPipeline.Script

/-! ### Heights, and how deep an evaluation nests -/

namespace Expr

mutual

/-- The number of expressions on the longest way down, through items, arguments, receivers and operands. -/
def height : Expr → Nat
  | text _ _ => 1
  | number _ _ => 1
  | boolean _ _ => 1
  | reference _ _ => 1
  | list _ items => heightOfAll items + 1
  | call _ _ args => heightOfAll args + 1
  | method _ receiver _ args => max receiver.height (heightOfAll args) + 1
  | sum _ left right => max left.height right.height + 1

def heightOfAll : List Expr → Nat
  | [] => 0
  | item :: items => max item.height (heightOfAll items)

end

@[simp] theorem height_withOffset (offset : Nat) (e : Expr) : (e.withOffset offset).height = e.height := by
  cases e <;> rfl

theorem height_pos (e : Expr) : 0 < e.height := by
  cases e <;> exact Nat.succ_pos _

end Expr

/-- `depth` of what is declared after a step, if the step succeeds. -/
def depthAfter {α : Type} (step : Evaluation α) (depth : Declarations → Nat) (d : Declarations) : Nat :=
  match step d with
  | .ok (_, d') => depth d'
  | .error _ => 0

mutual

/-- How many evaluations of expressions are open at once, at most, while an expression is evaluated up to
its end or to a fault. -/
def evalDepth (bindings : Bindings) : Expr → Declarations → Nat
  | .text _ _, _ => 1
  | .number _ _, _ => 1
  | .boolean _ _, _ => 1
  | .reference _ _, _ => 1
  | .list _ items, d => evalAllDepth bindings items d + 1
  | .sum _ left right, d =>
    max (evalDepth bindings left d) (depthAfter (eval bindings left) (evalDepth bindings right) d) + 1
  | .call _ function args, d =>
    match Verb.ofName? function with
    | none => 1
    | some _ => evalAllDepth bindings args d + 1
  | .method _ receiver _ args, d =>
    max (evalDepth bindings receiver d)
      (depthAfter (eval bindings receiver) (evalAllDepth bindings args) d) + 1

def evalAllDepth (bindings : Bindings) : List Expr → Declarations → Nat
  | [], _ => 0
  | item :: items, d =>
    max (evalDepth bindings item d) (depthAfter (eval bindings item) (evalAllDepth bindings items) d)

end

theorem depthAfter_le {α : Type} {step : Evaluation α} {depth : Declarations → Nat} {n : Nat}
    (h : ∀ d, depth d ≤ n) (d : Declarations) : depthAfter step depth d ≤ n := by
  rw [depthAfter]
  cases step d with
  | ok result => exact h result.2
  | error fault => exact Nat.zero_le n

mutual

/-- An evaluation nests no deeper than the tree is high. -/
theorem evalDepth_le_height (bindings : Bindings) : (e : Expr) → (d : Declarations) →
    evalDepth bindings e d ≤ e.height
  | .text _ _, _ => Nat.le_refl 1
  | .number _ _, _ => Nat.le_refl 1
  | .boolean _ _, _ => Nat.le_refl 1
  | .reference _ _, _ => Nat.le_refl 1
  | .list _ items, d => Nat.succ_le_succ (evalAllDepth_le_height bindings items d)
  | .sum _ left right, d =>
      Nat.succ_le_succ (max_le_max (evalDepth_le_height bindings left d)
        (depthAfter_le (evalDepth_le_height bindings right) d))
  | .call _ function args, d => by
      rw [evalDepth]
      cases Verb.ofName? function with
      | none => exact Nat.succ_le_succ (Nat.zero_le _)
      | some verb => exact Nat.succ_le_succ (evalAllDepth_le_height bindings args d)
  | .method _ receiver _ args, d =>
      Nat.succ_le_succ (max_le_max (evalDepth_le_height bindings receiver d)
        (depthAfter_le (evalAllDepth_le_height bindings args) d))

theorem evalAllDepth_le_height (bindings : Bindings) : (items : List Expr) → (d : Declarations) →
    evalAllDepth bindings items d ≤ Expr.heightOfAll items
  | [], _ => Nat.le_refl 0
  | item :: items, d =>
      max_le_max (evalDepth_le_height bindings item d)
        (depthAfter_le (evalAllDepth_le_height bindings items) d)

end

theorem depthAfter_of_ok {α : Type} {step : Evaluation α} {depth : Declarations → Nat}
    {d d' : Declarations} {result : α} (h : step d = .ok (result, d')) :
    depthAfter step depth d = depth d' := by
  rw [depthAfter, h]

mutual

/-- An evaluation that succeeds gets to every expression of the tree. -/
theorem evalDepth_eq_height (bindings : Bindings) {d d' : Declarations} {value : Value} (e : Expr)
    (h : eval bindings e d = .ok (value, d')) : evalDepth bindings e d = e.height := by
  match e with
  | .text _ _ | .number _ _ | .boolean _ _ | .reference _ _ => rfl
  | .list _ items =>
      obtain ⟨values, hitems, -⟩ := eval_list_eq_ok_iff.mp h
      rw [evalDepth, Expr.height, evalAllDepth_eq_height bindings items hitems]
  | .sum _ left right =>
      obtain ⟨a, d₁, b, ha, hb, -⟩ := eval_sum_eq_ok_iff.mp h
      rw [evalDepth, Expr.height, depthAfter_of_ok ha, evalDepth_eq_height bindings left ha,
        evalDepth_eq_height bindings right hb]
  | .call _ function args =>
      obtain ⟨verb, values, d₁, text, hverb, hargs, -⟩ := eval_call_eq_ok_iff.mp h
      rw [evalDepth, hverb, Expr.height, evalAllDepth_eq_height bindings args hargs]
  | .method _ receiver _ args =>
      obtain ⟨target, d₁, values, d₂, htarget, hargs, -⟩ := eval_method_eq_ok_iff.mp h
      rw [evalDepth, Expr.height, depthAfter_of_ok htarget, evalDepth_eq_height bindings receiver htarget,
        evalAllDepth_eq_height bindings args hargs]

theorem evalAllDepth_eq_height (bindings : Bindings) {d d' : Declarations} {values : List Value}
    (items : List Expr) (h : evalAll bindings items d = .ok (values, d')) :
    evalAllDepth bindings items d = Expr.heightOfAll items := by
  match items with
  | [] => rfl
  | item :: items =>
      obtain ⟨value, d₁, rest, hitem, hrest, -⟩ := evalAll_cons_eq_ok_iff.mp h
      rw [evalAllDepth, Expr.heightOfAll, depthAfter_of_ok hitem,
        evalDepth_eq_height bindings item hitem, evalAllDepth_eq_height bindings items hrest]

end

/-! ### What the grammar allows

`levels + room` is the deepest nesting. An expression uses one level up, so that the squares come from
`(room + 1)² = room² + 1 + room + room`: what is inside, the brackets around it, the calls and the sums. -/

namespace Grammar

mutual

theorem Expression.height_le {levels room : Nat} {tokens rest : List Token} {e : Expr}
    (hroom : levels + room = maxDepth) :
    Expression levels tokens rest e → e.height ≤ room * room
  | .operands hlevels h => by
      obtain ⟨inner, rfl⟩ : ∃ inner, room = inner + 1 := ⟨room - 1, by omega⟩
      have hinner : levels + 1 + inner = maxDepth := by omega
      obtain ⟨hpluses, hheight⟩ := Operands.height_le hinner h
      calc
        e.height ≤ inner * inner + 1 + inner + _ := hheight
        _ ≤ inner * inner + 1 + inner + inner := Nat.add_le_add_left hpluses _
        _ = (inner + 1) * (inner + 1) := by ring

theorem Operands.height_le {levels room pluses : Nat} {tokens rest : List Token} {e : Expr}
    (hroom : levels + room = maxDepth) :
    Operands levels pluses tokens rest e → pluses ≤ room ∧ e.height ≤ room * room + 1 + room + pluses
  | .first h => by
      obtain ⟨hdots, hheight⟩ := Chain.height_le hroom h
      exact ⟨Nat.zero_le room, hheight.trans (Nat.add_le_add_left hdots _)⟩
  | .plus hleft hplus hlevels hright => by
      obtain ⟨inner, hinner⟩ := Nat.exists_eq_add_of_le hlevels
      obtain ⟨-, hleft⟩ := Operands.height_le hroom hleft
      -- The operand stands deeper than the first one, so it has less room, and the sum goes on top of the left.
      obtain ⟨hdots, hright⟩ := Chain.height_le hinner.symm hright
      have hle : inner ≤ room := by omega
      have hsquare : inner * inner ≤ room * room := Nat.mul_le_mul hle hle
      refine ⟨by omega, ?_⟩
      rw [Expr.height]
      omega

theorem Chain.height_le {levels room dots : Nat} {tokens rest : List Token} {e : Expr}
    (hroom : levels + room = maxDepth) :
    Chain levels dots tokens rest e → dots ≤ room ∧ e.height ≤ room * room + 1 + dots
  | .receiver h => ⟨Nat.zero_le room, Primary.height_le hroom h⟩
  | .method hreceiver hdot hlevels hname hopening hargs hclosing => by
      obtain ⟨inner, hinner⟩ := Nat.exists_eq_add_of_le hlevels
      obtain ⟨-, hreceiver⟩ := Chain.height_le hroom hreceiver
      have hargs := Items.height_le hinner.symm hargs
      have hle : inner ≤ room := by omega
      have hsquare : inner * inner ≤ room * room := Nat.mul_le_mul hle hle
      refine ⟨by omega, ?_⟩
      rw [Expr.height]
      omega

theorem Primary.height_le {levels room : Nat} {tokens rest : List Token} {e : Expr}
    (hroom : levels + room = maxDepth) :
    Primary levels tokens rest e → e.height ≤ room * room + 1
  | .text _ | .number _ | .yes _ | .no _ | .reference _ _ => Nat.succ_le_succ (Nat.zero_le _)
  | .call _ _ hargs _ => Nat.succ_le_succ (Items.height_le hroom hargs)
  | .list _ hitems _ => Nat.succ_le_succ (Items.height_le hroom hitems)
  | .group _ hinner _ => by
      rw [Expr.height_withOffset]
      exact Nat.le_succ_of_le (Expression.height_le hroom hinner)

theorem Items.height_le {levels room : Nat} {tokens rest : List Token} {items : List Expr}
    (hroom : levels + room = maxDepth) :
    Items levels tokens rest items → Expr.heightOfAll items ≤ room * room
  | .none => Nat.zero_le _
  | .some h => Separated.height_le hroom h
  | .trailing h _ => Separated.height_le hroom h

theorem Separated.height_le {levels room : Nat} {tokens rest : List Token} {items : List Expr}
    (hroom : levels + room = maxDepth) :
    Separated levels tokens rest items → Expr.heightOfAll items ≤ room * room
  | .last h => max_le (Expression.height_le hroom h) (Nat.zero_le _)
  | .more hitem _ h => max_le (Expression.height_le hroom hitem) (Separated.height_le hroom h)

end

theorem Bare.height_le {tokens rest : List Token} {stmt : Stmt} (h : Bare tokens rest stmt) :
    stmt.value.height ≤ maxDepth * maxDepth := by
  cases h with
  | bind _ _ _ hvalue => exact hvalue.height_le (Nat.zero_add maxDepth)
  | expr hvalue => exact hvalue.height_le (Nat.zero_add maxDepth)

theorem Program.height_le {tokens : List Token} {stmts : List Stmt} (h : Program tokens stmts) :
    ∀ stmt ∈ stmts, stmt.value.height ≤ maxDepth * maxDepth := by
  induction h with
  | nil => exact nofun
  | semicolon _ _ ih => exact ih
  | statement hstmt _ ih =>
      refine List.forall_mem_cons.mpr ⟨?_, ih⟩
      cases hstmt with
      | ended hbare _ => exact hbare.height_le
      | unended hbare _ => exact hbare.height_le

end Grammar

/-- No expression of a description that is read is higher than the square of the deepest nesting. An
evaluation of it nests no deeper than it is high, and just as deep if it succeeds. -/
theorem height_le_of_parse {source : String} {program : List Stmt} (h : parse source = .ok program) :
    ∀ stmt ∈ program, stmt.value.height ≤ maxDepth * maxDepth ∧
      ∀ bindings d, evalDepth bindings stmt.value d ≤ stmt.value.height ∧
        ∀ value d', eval bindings stmt.value d = .ok (value, d') →
          evalDepth bindings stmt.value d = stmt.value.height := by
  obtain ⟨tokens, -, hprogram⟩ := bind_eq_ok_iff.mp h
  intro stmt hstmt
  refine ⟨(Parser.program_eq_ok_iff.mp hprogram).height_le stmt hstmt, fun bindings d => ?_⟩
  exact ⟨evalDepth_le_height bindings stmt.value d,
    fun value d' heval => evalDepth_eq_height bindings stmt.value heval⟩

/-! ### Towers -/

/-- Lists within lists, the innermost one empty; behind each of the others as many method calls and as
many sums as its number says, the outermost list first. -/
def tower : List Nat → List Char
  | [] => "[]".toList
  | count :: inner =>
    '[' :: (tower inner ++ ']' :: ((List.replicate count ".m()".toList).flatten ++
      (List.replicate count "+[]".toList).flatten))

/-- The number of expressions on the longest way down a tower. -/
def towerHeight : List Nat → Nat
  | [] => 1
  | count :: inner => towerHeight inner + 1 + count + count

/-- There are levels enough for a tower. -/
def Fits (levels : Nat) : List Nat → Prop
  | [] => levels + 1 ≤ maxDepth
  | count :: inner => levels + 1 + count ≤ maxDepth ∧ Fits (levels + 1) inner

/-- The tree is `n` high, and every evaluation of it nests as deep as that. -/
def Tall (n : Nat) (e : Expr) : Prop :=
  e.height = n ∧ ∀ bindings d, evalDepth bindings e d = n

namespace Tall

variable {n m : Nat} {e right : Expr}

theorem pos (h : Tall n e) : 0 < n :=
  h.1 ▸ e.height_pos

theorem nil (offset : Nat) : Tall 1 (.list offset []) :=
  ⟨rfl, fun _ _ => rfl⟩

theorem list (h : Tall n e) (offset : Nat) : Tall (n + 1) (.list offset [e]) := by
  refine ⟨by rw [Expr.height, Expr.heightOfAll, Expr.heightOfAll, Nat.max_zero, h.1], fun bindings d => ?_⟩
  have hafter : depthAfter (eval bindings e) (evalAllDepth bindings []) d = 0 :=
    Nat.le_zero.mp (depthAfter_le (fun _ => Nat.le_refl 0) d)
  rw [evalDepth, evalAllDepth, hafter, Nat.max_zero, h.2]

theorem method (h : Tall n e) (offset : Nat) (name : String) : Tall (n + 1) (.method offset e name []) := by
  refine ⟨by rw [Expr.height, Expr.heightOfAll, Nat.max_zero, h.1], fun bindings d => ?_⟩
  have hafter : depthAfter (eval bindings e) (evalAllDepth bindings []) d = 0 :=
    Nat.le_zero.mp (depthAfter_le (fun _ => Nat.le_refl 0) d)
  rw [evalDepth, hafter, Nat.max_zero, h.2]

theorem sum (h : Tall n e) (hright : right.height ≤ n) (offset : Nat) :
    Tall (n + 1) (.sum offset e right) := by
  refine ⟨by rw [Expr.height, h.1, max_eq_left hright], fun bindings d => ?_⟩
  have hafter : depthAfter (eval bindings e) (evalDepth bindings right) d ≤ n :=
    depthAfter_le (fun d => (evalDepth_le_height bindings right d).trans hright) d
  rw [evalDepth, h.2, max_eq_left hafter]

end Tall

variable {rest : List Char} {P : List Token → Prop} {levels : Nat}

/-- Method calls behind a chain put themselves on top of it. -/
theorem Scans.links (h : Scans rest P) (levels count : Nat) :
    Scans ((List.replicate count ".m()".toList).flatten ++ rest) fun tokens => ∃ tail, P tail ∧
      ∀ {dots n : Nat} {start : List Token} {e : Expr}, Grammar.Chain levels dots start tokens e →
        Tall n e → levels + (dots + count) ≤ maxDepth →
        ∃ e', Grammar.Chain levels (dots + count) start tail e' ∧ Tall (n + count) e' := by
  induction count with
  | zero =>
      exact h.mono fun tokens hP => ⟨tokens, hP, fun {_ _ _ e} hchain htall _ => ⟨e, hchain, htall⟩⟩
  | succ count ih =>
      have hlink := (((ih.punctuation (c := ')') rfl).punctuation (c := '(') rfl).word "m".toList rfl
        (head_notNamePart rfl _)).punctuation (c := '.') rfl
      rw [List.replicate_succ, List.flatten_cons, List.append_assoc]
      refine hlink.mono ?_
      rintro _ ⟨dot, _, rfl, hdot, -, name, _, rfl, hname, -, opening, _, rfl, hopening, -,
        closing, tokens, rfl, hclosing, -, tail, hP, hmore⟩
      refine ⟨tail, hP, fun {dots n start e} hchain htall hlevels => ?_⟩
      have hstep := Grammar.Chain.method hchain hdot (by omega) hname hopening .none hclosing
      obtain ⟨e', hchain', htall'⟩ := hmore hstep (htall.method name.start name.text) (by omega)
      rw [Nat.add_right_comm, Nat.add_assoc] at hchain' htall'
      exact ⟨e', hchain', htall'⟩

/-- Empty lists that are added to an expression put the sums on top of it. -/
theorem Scans.sums (h : Scans rest P) (levels count : Nat) :
    Scans ((List.replicate count "+[]".toList).flatten ++ rest) fun tokens => ∃ tail, P tail ∧
      ∀ {pluses n : Nat} {start : List Token} {e : Expr}, Grammar.Operands levels pluses start tokens e →
        Tall n e → levels + (pluses + count) ≤ maxDepth →
        ∃ e', Grammar.Operands levels (pluses + count) start tail e' ∧ Tall (n + count) e' := by
  induction count with
  | zero =>
      exact h.mono fun tokens hP =>
        ⟨tokens, hP, fun {_ _ _ e} hoperands htall _ => ⟨e, hoperands, htall⟩⟩
  | succ count ih =>
      have hsum := ((ih.punctuation (c := ']') rfl).punctuation (c := '[') rfl).punctuation (c := '+') rfl
      rw [List.replicate_succ, List.flatten_cons, List.append_assoc]
      refine hsum.mono ?_
      rintro _ ⟨plus, _, rfl, hplus, -, opening, _, rfl, hopening, -, closing, tokens, rfl, hclosing, -,
        tail, hP, hmore⟩
      refine ⟨tail, hP, fun {pluses n start e} hoperands htall hlevels => ?_⟩
      have hempty : Grammar.Chain (levels + (pluses + 1)) 0 (opening :: closing :: tokens) tokens
          (.list opening.start []) := .receiver (.list hopening .none hclosing)
      have hstep := Grammar.Operands.plus hoperands hplus (by omega) hempty
      have htall' : Tall (n + 1) (.sum e.offset e (.list opening.start [])) :=
        htall.sum (show Expr.height (.list opening.start []) ≤ n from htall.pos) e.offset
      obtain ⟨e', hoperands', htall'⟩ := hmore hstep htall' (by omega)
      rw [Nat.add_right_comm, Nat.add_assoc] at hoperands' htall'
      exact ⟨e', hoperands', htall'⟩

/-- Where a tower fits, it is read as an expression of its height. -/
theorem Scans.tower (h : Scans rest P) {counts : List Nat} (hfits : Fits levels counts) :
    Scans (tower counts ++ rest) fun tokens => ∃ tail e, P tail ∧ Tall (towerHeight counts) e ∧
      Grammar.Expression levels tokens tail e := by
  induction counts generalizing levels rest P with
  | nil =>
      refine ((h.punctuation (c := ']') rfl).punctuation (c := '[') rfl).mono ?_
      rintro _ ⟨opening, _, rfl, hopening, -, closing, tail, rfl, hclosing, -, hP⟩
      exact ⟨tail, .list opening.start [], hP, .nil _,
        .operands hfits (.first (.receiver (.list hopening .none hclosing)))⟩
  | cons count inner ih =>
      obtain ⟨hlevels, hinner⟩ := hfits
      have hbehind := (h.sums (levels + 1) count).links (levels + 1) count
      have hall := (ih (hbehind.punctuation (c := ']') rfl) hinner).punctuation (c := '[') rfl
      rw [Script.tower, List.cons_append, List.append_assoc, List.cons_append, List.append_assoc]
      refine hall.mono ?_
      rintro _ ⟨opening, _, rfl, hopening, -, _, e, ⟨closing, _, rfl, hclosing, -, _,
        ⟨tail, hP, hsums⟩, hlinks⟩, htall, hexpression⟩
      have hlist := Grammar.Primary.list hopening (.some (.last hexpression)) hclosing
      obtain ⟨e₁, hchain, htall₁⟩ := hlinks (.receiver hlist) (htall.list opening.start) (by omega)
      obtain ⟨e₂, hoperands, htall₂⟩ := hsums (.first hchain) htall₁ (by omega)
      exact ⟨tail, e₂, hP, htall₂, .operands (by omega) hoperands⟩

/-- A tower that fits is a description, of one statement that is as high as the tower. -/
theorem exists_parse_tower {counts : List Nat} (hfits : Fits 0 counts) :
    ∃ e, parse (String.ofList (tower counts)) = .ok [.expr e] ∧ Tall (towerHeight counts) e := by
  obtain ⟨tokens, htokens, tail, e, rfl, htall, hexpression⟩ :=
    (scans_nil (P := (· = [])) rfl).tower hfits 0
  rw [List.append_nil, ← String.toList_ofList (l := tower counts), ← tokenize_eq_ok_iff] at htokens
  refine ⟨e, bind_eq_ok_iff.mpr ⟨tokens, htokens, Parser.program_eq_ok_iff.mpr ?_⟩, htall⟩
  exact .statement (.unended (.expr hexpression) nofun) .nil

/-- As many calls and sums on each level as there are levels inside it. -/
def steps : Nat → List Nat
  | 0 => []
  | n + 1 => (n + 1) :: steps n

theorem towerHeight_steps (n : Nat) : towerHeight (steps n) = (n + 1) * (n + 1) := by
  induction n with
  | zero => rfl
  | succ n ih =>
      rw [steps, towerHeight, ih]
      ring

theorem fits_steps {n : Nat} (h : levels + n + 1 ≤ maxDepth) : Fits levels (steps n) := by
  induction n generalizing levels with
  | zero => exact h
  | succ n ih => exact ⟨by omega, ih (by omega)⟩

/-- The bound on heights is attained. -/
theorem height_le_of_parse_steps :
    ∃ program, parse (String.ofList (tower (steps 255))) = .ok program ∧
      (∀ stmt ∈ program, stmt.value.height ≤ maxDepth * maxDepth) ∧
      ∃ stmt ∈ program, stmt.value.height = maxDepth * maxDepth := by
  have hfits : Fits 0 (steps 255) := fits_steps (by decide)
  obtain ⟨e, hparse, htall⟩ := exists_parse_tower hfits
  have hheight := height_le_of_parse hparse
  exact ⟨_, hparse, fun stmt hstmt => (hheight stmt hstmt).1, .expr e, List.mem_cons_self,
    htall.1.trans (towerHeight_steps 255)⟩

theorem fits_replicate_zero {n : Nat} (h : levels + n + 1 ≤ maxDepth) :
    Fits levels (List.replicate n 0) := by
  induction n generalizing levels with
  | zero => exact h
  | succ n ih => exact ⟨by omega, ih (by omega)⟩

theorem towerHeight_replicate_zero (n : Nat) : towerHeight (List.replicate n 0) = n + 1 := by
  induction n with
  | zero => rfl
  | succ n ih => rw [List.replicate_succ, towerHeight, ih]

theorem tower_replicate_zero (n : Nat) :
    tower (List.replicate n 0) = List.replicate (n + 1) '[' ++ List.replicate (n + 1) ']' := by
  induction n with
  | zero => rfl
  | succ n ih =>
      calc
        tower (List.replicate (n + 1) 0) = '[' :: (tower (List.replicate n 0) ++ [']']) := rfl
        _ = '[' :: List.replicate (n + 1) '[' ++ (List.replicate (n + 1) ']' ++ [']']) := by
          rw [ih, List.append_assoc, List.cons_append]
        _ = List.replicate (n + 2) '[' ++ List.replicate (n + 2) ']' := by
          rw [← List.replicate_succ, ← List.replicate_succ']

theorem tower_one_cons (n : Nat) : tower (1 :: List.replicate n 0) =
    List.replicate (n + 2) '[' ++ List.replicate (n + 2) ']' ++ ".m()+[]".toList := by
  calc
    tower (1 :: List.replicate n 0) = tower (List.replicate (n + 1) 0) ++ ".m()+[]".toList := by
      simp [tower, List.replicate_succ]
    _ = _ := by rw [tower_replicate_zero]

/-- Lists as deep as they may be, with a method call and a sum behind the outermost one. -/
def deepSource : String :=
  String.ofList (List.replicate 256 '[' ++ List.replicate 256 ']' ++ ".m()+[]".toList)

/-- Trees may be higher than the deepest nesting, and evaluating them nests as deep. -/
theorem height_gt_maxDepth :
    ∃ e, parse deepSource = .ok [.expr e] ∧ maxDepth < e.height ∧
      ∀ bindings d, maxDepth < evalDepth bindings e d := by
  have hsource : deepSource = String.ofList (tower (1 :: List.replicate 254 0)) :=
    congrArg String.ofList (tower_one_cons 254).symm
  have hfits : Fits 0 (1 :: List.replicate 254 0) := ⟨by decide, fits_replicate_zero (by decide)⟩
  have htall : maxDepth < towerHeight (1 :: List.replicate 254 0) := by
    rw [towerHeight, towerHeight_replicate_zero]
    decide
  obtain ⟨e, hparse, hheight, hdepth⟩ := exists_parse_tower hfits
  rw [hsource]
  exact ⟨e, hparse, hheight ▸ htall, fun bindings d => (hdepth bindings d).symm ▸ htall⟩

end AssetPipeline.Script
