import AssetPipeline.Proofs.Script.Evaluating
import Mathlib.Data.List.Induction

/-! Operands joined by `+`. Numbers are added as long as there are only numbers; from the first string on all
is text. A value of another kind can stand only where it meets a string at once, so that the outcome depends
on all that is before the first string. -/

namespace AssetPipeline.Script

/-- Operands joined by `+` from left to right, each behind the first with the offset of its sum. -/
def Expr.plus (first : Expr) (rest : List (Nat × Expr)) : Expr :=
  rest.foldl (fun left next => .sum next.1 left next.2) first

@[simp] theorem Expr.plus_nil (first : Expr) : first.plus [] = first := rfl

@[simp] theorem Expr.plus_cons (first next : Expr) (offset : Nat) (rest : List (Nat × Expr)) :
    first.plus ((offset, next) :: rest) = (Expr.sum offset first next).plus rest := rfl

namespace Value

variable {left right value v : Value} {vs values : List Value} {problem : Problem}

/-- Strings, numbers and booleans have a text. -/
def IsScalar (v : Value) : Prop :=
  v.type = .string ∨ v.type = .number ∨ v.type = .boolean

/-- The text of a scalar. -/
def text (v : Value) : String :=
  v.scalarText?.getD ""

@[simp] theorem text_string (string : String) : (Value.string string).text = string := rfl

@[simp] theorem text_number (x : Float) : (Value.number x).text = numberText x := rfl

/-- The text of what is before the first string: nothing, one scalar, or the sum of several numbers. -/
inductive FrontText : List Value → String → Prop where
  | nothing : FrontText [] ""
  | scalar {v : Value} (h : v.IsScalar) : FrontText [v] v.text
  | numbers (x y : Float) (xs : List Float) :
    FrontText ((x :: y :: xs).map .number) (numberText ((y :: xs).foldl (· + ·) x))

/-- What values come to that are joined by `+`. -/
inductive SumsTo : List Value → Value → Prop where
  /-- Numbers are added from left to right. -/
  | numbers (x : Float) (xs : List Float) :
    SumsTo ((x :: xs).map .number) (.number (xs.foldl (· + ·) x))
  /-- The first string makes a text of all. -/
  | texts {before after : List Value} {front : String} (string : String)
    (hfirst : ∀ v ∈ before, v.type ≠ .string) (hbefore : FrontText before front)
    (hafter : ∀ v ∈ after, v.IsScalar) :
    SumsTo (before ++ .string string :: after)
      (.string (front ++ string ++ String.join (after.map text)))

theorem add_eq_ok_iff : left.add right = .ok value ↔
    (∃ a b, left = .number a ∧ right = .number b ∧ value = .number (a + b)) ∨
      (left.type = .string ∨ right.type = .string) ∧ left.IsScalar ∧ right.IsScalar ∧
        value = .string (left.text ++ right.text) := by
  cases left <;> cases right <;>
    simp [add, type, IsScalar, text, scalarText?, eq_comm]

theorem add_eq_error (h : left.add right = .error problem) :
    problem = .cannotAdd left.type right.type := by
  cases left <;> cases right <;> simp [add, type, scalarText?] at h ⊢ <;> exact h.symm

theorem exists_of_type_eq_string (h : v.type = .string) : ∃ string, v = .string string := by
  cases v <;> first | exact ⟨_, rfl⟩ | cases h

/-! ### One sum after another -/

/-- Numbers before the first string, whether there is one or there are several. -/
theorem frontText_numbers (x : Float) (xs : List Float) :
    FrontText ((x :: xs).map .number) (numberText (xs.foldl (· + ·) x)) := by
  cases xs with
  | nil => exact .scalar (.inr (.inl rfl))
  | cons y xs => exact .numbers x y xs

theorem sumsTo_pair (h : left.add right = .ok value) : SumsTo [left, right] value := by
  rcases add_eq_ok_iff.mp h with ⟨a, b, rfl, rfl, rfl⟩ | ⟨hstring, hleft, hright, rfl⟩
  · exact .numbers a [b]
  · by_cases hfirst : left.type = .string
    · obtain ⟨string, rfl⟩ := exists_of_type_eq_string hfirst
      have hsum := SumsTo.texts string (List.forall_mem_nil _) .nothing
        (List.forall_mem_singleton.mpr hright)
      simpa using hsum
    · obtain ⟨string, rfl⟩ := exists_of_type_eq_string (hstring.resolve_left hfirst)
      have hsum := SumsTo.texts string (List.forall_mem_singleton.mpr hfirst) (.scalar hleft)
        (List.forall_mem_nil _)
      simpa using hsum

theorem SumsTo.concat (h : SumsTo values left) (hadd : left.add right = .ok value) :
    SumsTo (values ++ [right]) value := by
  cases h with
  | numbers x xs =>
      rcases add_eq_ok_iff.mp hadd with ⟨a, b, hleft, rfl, rfl⟩ | ⟨hstring, -, -, rfl⟩
      · cases hleft
        have hsum := SumsTo.numbers x (xs ++ [b])
        rw [List.foldl_append] at hsum
        simpa using hsum
      · obtain ⟨string, rfl⟩ := exists_of_type_eq_string (hstring.resolve_left ValueType.noConfusion)
        have hfirst : ∀ v ∈ (x :: xs).map Value.number, v.type ≠ .string := by
          intro v hv
          obtain ⟨y, -, rfl⟩ := List.mem_map.mp hv
          exact ValueType.noConfusion
        have hsum := SumsTo.texts string hfirst (frontText_numbers x xs) (List.forall_mem_nil _)
        simpa using hsum
  | texts string hfirst hbefore hafter =>
      rcases add_eq_ok_iff.mp hadd with ⟨a, b, hleft, -⟩ | ⟨-, -, hright, rfl⟩
      · cases hleft
      · have hsum := SumsTo.texts string hfirst hbefore
          (List.forall_mem_append.mpr ⟨hafter, List.forall_mem_singleton.mpr hright⟩)
        simpa [String.append_assoc] using hsum

/-- Sums that all succeed come to what the values come to. -/
theorem sumsTo_of_foldlM (hne : vs ≠ []) (h : vs.foldlM add v = .ok value) : SumsTo (v :: vs) value := by
  induction vs using List.reverseRecOn generalizing value with
  | nil => exact absurd rfl hne
  | append_singleton vs w ih =>
      rw [List.foldlM_append, bind_eq_ok_iff] at h
      obtain ⟨left, hleft, h⟩ := h
      rw [List.foldlM_cons, bind_eq_ok_iff] at h
      obtain ⟨result, hadd, hresult⟩ := h
      cases hresult
      by_cases hvs : vs = []
      · subst hvs
        cases hleft
        exact sumsTo_pair hadd
      · exact (ih hvs hleft).concat hadd

theorem foldlM_numbers (x : Float) (xs : List Float) :
    (xs.map Value.number).foldlM add (.number x) = .ok (.number (xs.foldl (· + ·) x)) := by
  induction xs generalizing x with
  | nil => rfl
  | cons y xs ih => exact ih (x + y)

theorem foldlM_string (string : String) (h : ∀ v ∈ vs, v.IsScalar) :
    vs.foldlM add (.string string) = .ok (.string (string ++ String.join (vs.map text))) := by
  induction vs generalizing string with
  | nil => simp; rfl
  | cons v vs ih =>
      rw [List.forall_mem_cons] at h
      have hadd : (Value.string string).add v = .ok (.string (string ++ v.text)) :=
        add_eq_ok_iff.mpr (.inr ⟨.inl rfl, .inl rfl, h.1, rfl⟩)
      rw [List.foldlM_cons, hadd]
      refine (ih _ h.2).trans ?_
      rw [List.map_cons, String.join_cons, String.append_assoc]

/-- All sums succeed where the values come to something. -/
theorem foldlM_of_sumsTo (h : SumsTo (v :: vs) value) : vs.foldlM add v = .ok value := by
  generalize hvalues : v :: vs = values at h
  cases h with
  | numbers x xs =>
      cases hvalues
      exact foldlM_numbers x xs
  | texts string hfirst hbefore hafter =>
      cases hbefore with
      | nothing =>
          obtain ⟨rfl, rfl⟩ := List.cons.inj hvalues
          rw [foldlM_string string hafter, String.empty_append]
      | scalar hscalar =>
          rw [List.singleton_append] at hvalues
          obtain ⟨rfl, rfl⟩ := List.cons.inj hvalues
          have hadd : v.add (.string string) = .ok (.string (v.text ++ string)) :=
            add_eq_ok_iff.mpr (.inr ⟨.inr rfl, hscalar, .inl rfl, rfl⟩)
          rw [List.foldlM_cons, hadd]
          exact foldlM_string _ hafter
      | numbers x y xs =>
          rw [List.map_cons, List.cons_append] at hvalues
          obtain ⟨rfl, rfl⟩ := List.cons.inj hvalues
          rw [List.foldlM_append, foldlM_numbers]
          exact foldlM_string _ hafter

end Value

/-! ### Evaluation -/

variable {bindings : Bindings} {d d' d₁ : Declarations} {first next : Expr} {rest : List (Nat × Expr)}
  {offset : Nat} {fault : Fault} {problem : Problem} {v value left right : Value} {vs values : List Value}

theorem eval_sum_of_add_error (hleft : eval bindings first d = .ok (left, d₁))
    (hright : eval bindings next d₁ = .ok (right, d')) (hadd : left.add right = .error problem) :
    eval bindings (.sum offset first next) d = .error ⟨offset, problem⟩ := by
  rw [eval]
  change (eval bindings first d >>= fun p => _) = _
  rw [hleft]
  change (eval bindings next d₁ >>= fun p => _) = _
  rw [hright]
  change atOffset offset (left.add right) d' = _
  rw [hadd]
  rfl

/-- What fails in the first operand fails in all. -/
theorem eval_plus_of_error (h : eval bindings first d = .error fault) :
    eval bindings (first.plus rest) d = .error fault := by
  induction rest generalizing first with
  | nil => exact h
  | cons next rest ih =>
      refine ih ?_
      rw [eval]
      change (eval bindings first d >>= fun p => _) = _
      rw [h]
      rfl

theorem eval_plus_of_ok (h : evalAll bindings (first :: rest.map Prod.snd) d = .ok (v :: vs, d'))
    (hadd : vs.foldlM Value.add v = .ok value) : eval bindings (first.plus rest) d = .ok (value, d') := by
  induction rest generalizing first v vs with
  | nil =>
      obtain ⟨w, d₁, ws, hfirst, hrest, hvalues⟩ := evalAll_cons_eq_ok_iff.mp h
      cases hvalues
      cases hrest
      cases hadd
      exact hfirst
  | cons next rest ih =>
      obtain ⟨left, d₁, ws, hfirst, hmore, hvalues⟩ := evalAll_cons_eq_ok_iff.mp h
      obtain ⟨right, d₂, ws', hnext, hrest, rfl⟩ := evalAll_cons_eq_ok_iff.mp hmore
      cases hvalues
      rw [List.foldlM_cons, bind_eq_ok_iff] at hadd
      obtain ⟨sum, hsum, hadd⟩ := hadd
      refine ih (evalAll_cons_eq_ok_iff.mpr ⟨sum, d₂, ws', ?_, hrest, rfl⟩) hadd
      exact eval_sum_eq_ok_iff.mpr ⟨v, d₁, right, hfirst, hnext, hsum⟩

/-- The first sum that fails: those before it have succeeded, and what it fails with all fails with. -/
theorem exists_of_foldlM_add_error
    (h : evalAll bindings (first :: rest.map Prod.snd) d = .ok (v :: vs, d'))
    (hadd : vs.foldlM Value.add v = .error problem) :
    ∃ before offset next after left d₁ right d₂ fault, rest = before ++ (offset, next) :: after ∧
      eval bindings (first.plus before) d = .ok (left, d₁) ∧
      eval bindings next d₁ = .ok (right, d₂) ∧
      eval bindings (.sum offset (first.plus before) next) d = .error fault ∧
      eval bindings (first.plus rest) d = .error fault ∧ fault.offset = offset ∧
      fault.problem.message =
        "cannot add " ++ left.type.describe ++ " and " ++ right.type.describe := by
  induction rest generalizing first v vs with
  | nil =>
      obtain ⟨w, d₁, ws, -, hrest, hvalues⟩ := evalAll_cons_eq_ok_iff.mp h
      cases hvalues
      cases hrest
      cases hadd
  | cons head rest ih =>
      obtain ⟨left, d₁, ws, hfirst, hmore, hvalues⟩ := evalAll_cons_eq_ok_iff.mp h
      obtain ⟨right, d₂, ws', hnext, hrest, rfl⟩ := evalAll_cons_eq_ok_iff.mp hmore
      cases hvalues
      cases hsum : v.add right with
      | error problem' =>
          cases Value.add_eq_error hsum
          have hfault : eval bindings (.sum head.1 first head.2) d =
              .error ⟨head.1, .cannotAdd v.type right.type⟩ := eval_sum_of_add_error hfirst hnext hsum
          have hall : eval bindings ((Expr.sum head.1 first head.2).plus rest) d =
              .error ⟨head.1, .cannotAdd v.type right.type⟩ := eval_plus_of_error hfault
          exact ⟨[], head.1, head.2, rest, v, d₁, right, d₂, _, rfl, hfirst, hnext, hfault, hall, rfl, rfl⟩
      | ok sum =>
          rw [List.foldlM_cons, hsum] at hadd
          have hbegun : eval bindings (.sum head.1 first head.2) d = .ok (sum, d₂) :=
            eval_sum_eq_ok_iff.mpr ⟨v, d₁, right, hfirst, hnext, hsum⟩
          obtain ⟨before, offset, next, after, left, d₃, right, d₄, fault, rfl, hfound⟩ :=
            ih (evalAll_cons_eq_ok_iff.mpr ⟨sum, d₂, ws', hbegun, hrest, rfl⟩) hadd
          exact ⟨head :: before, offset, next, after, left, d₃, right, d₄, fault, rfl, hfound⟩

/-- Operands that have values are joined by `+`. The result, if there is one, is what the values come to.
Where they come to nothing, the first sum from the left that fails is reported, with the types of its two
sides. -/
theorem eval_plus (hrest : rest ≠ [])
    (h : evalAll bindings (first :: rest.map Prod.snd) d = .ok (values, d')) :
    (∀ value d₁, eval bindings (first.plus rest) d = .ok (value, d₁) ↔
      Value.SumsTo values value ∧ d₁ = d') ∧
    ((∀ value, ¬ Value.SumsTo values value) →
      ∃ before offset next after left d₁ right d₂ fault, rest = before ++ (offset, next) :: after ∧
        eval bindings (first.plus before) d = .ok (left, d₁) ∧
        eval bindings next d₁ = .ok (right, d₂) ∧
        eval bindings (.sum offset (first.plus before) next) d = .error fault ∧
        eval bindings (first.plus rest) d = .error fault ∧ fault.offset = offset ∧
        fault.problem.message =
          "cannot add " ++ left.type.describe ++ " and " ++ right.type.describe) := by
  obtain ⟨v, d₁, vs, hfirst, hmore, rfl⟩ := evalAll_cons_eq_ok_iff.mp h
  have hvs : vs ≠ [] := by
    obtain ⟨next, rest, rfl⟩ := List.exists_cons_of_ne_nil hrest
    obtain ⟨w, d₂, ws, -, -, rfl⟩ := evalAll_cons_eq_ok_iff.mp hmore
    exact List.cons_ne_nil _ _
  cases hadd : vs.foldlM Value.add v with
  | ok sum =>
      have hsum := Value.sumsTo_of_foldlM hvs hadd
      refine ⟨fun value d₂ => ?_, fun hnone => absurd hsum (hnone sum)⟩
      rw [eval_plus_of_ok h hadd]
      constructor
      · intro heq
        cases heq
        exact ⟨hsum, rfl⟩
      · rintro ⟨hvalue, rfl⟩
        cases hadd.symm.trans (Value.foldlM_of_sumsTo hvalue)
        rfl
  | error problem =>
      have hfails := exists_of_foldlM_add_error h hadd
      refine ⟨fun value d₂ => ?_, fun _ => hfails⟩
      obtain ⟨before, offset, next, after, left, d₁, right, d₂, fault, -, -, -, -, hfault, -⟩ := hfails
      rw [hfault]
      constructor
      · intro heq
        cases heq
      · rintro ⟨hvalue, -⟩
        cases hadd.symm.trans (Value.foldlM_of_sumsTo hvalue)

/-- `1 + 2 + 'x' + true` is a text, and `true + 1` is not. -/
theorem eval_plus_mixed :
    eval [] ((Expr.number 0 1).plus [(0, .number 4 2), (0, .text 8 "x"), (0, .boolean 14 true)]) {} =
        .ok (.string (numberText (1 + 2) ++ "x" ++ "true"), {}) ∧
      ∃ fault, eval [] ((Expr.boolean 0 true).plus [(0, .number 7 1)]) {} = .error fault ∧
        fault.problem.message = "cannot add boolean and number" := by
  have hvalues : evalAll [] (.number 0 1 ::
      [(0, .number 4 2), (0, .text 8 "x"), (0, .boolean 14 true)].map Prod.snd) {} =
        .ok ([.number 1, .number 2, .string "x", .boolean true], {}) := rfl
  have hvalues' : evalAll [] (.boolean 0 true :: [(0, .number 7 1)].map Prod.snd) {} =
      .ok ([.boolean true, .number 1], {}) := rfl
  have hsum : Value.SumsTo [.number 1, .number 2, .string "x", .boolean true]
      (.string (numberText (1 + 2) ++ "x" ++ "true")) :=
    .texts "x" (by simp [Value.type]) (.numbers 1 2 []) (by simp [Value.IsScalar, Value.type])
  have hnone : ∀ value, ¬ Value.SumsTo [.boolean true, .number 1] value := by
    intro value h
    cases Value.foldlM_of_sumsTo h
  refine ⟨((eval_plus (List.cons_ne_nil _ _) hvalues).1 _ _).mpr ⟨hsum, rfl⟩, ?_⟩
  obtain ⟨before, offset, next, after, left, d₁, right, d₂, fault, hsplit, hleft, hright, -, hfault, -,
    hmessage⟩ := (eval_plus (List.cons_ne_nil _ _) hvalues').2 hnone
  refine ⟨fault, hfault, ?_⟩
  cases before with
  | nil =>
      cases hsplit
      cases hleft
      cases hright
      rw [hmessage]
      decide
  | cons head before => exact absurd (List.cons.inj hsplit).2.symm (by simp)

end AssetPipeline.Script
