import AssetPipeline.Proofs.Outcome
import AssetPipeline.Script.Evaluation

/-! What an evaluation has done that has succeeded: for each kind of expression, the evaluations of its
parts one after another, and what was then made of their values. -/

namespace AssetPipeline.Script

namespace Stmt

def value : Stmt → Expr
  | bind _ value => value
  | expr value => value

/-- What is bound behind a statement whose expression has the given value. -/
def bindings (bindings : Bindings) (value : Value) : Stmt → Bindings
  | bind name _ => (name, value) :: bindings
  | expr _ => bindings

end Stmt

variable {α β : Type} {bindings : Bindings} {d d' : Declarations} {offset : Nat} {value : Value}

theorem evaluation_bind_eq_ok_iff {step : Evaluation α} {next : α → Evaluation β} {result : β} :
    (step >>= next) d = .ok (result, d') ↔
      ∃ a d₁, step d = .ok (a, d₁) ∧ next a d₁ = .ok (result, d') := by
  change (step d >>= fun p => next p.1 p.2) = _ ↔ _
  rw [bind_eq_ok_iff, Prod.exists]

theorem atOffset_eq_ok_iff {step : Except Problem α} {result : α} :
    atOffset offset step d = .ok (result, d') ↔ step = .ok result ∧ d' = d := by
  cases step with
  | error problem =>
      constructor
      · intro h
        cases h
      · rintro ⟨h, -⟩
        cases h
  | ok a =>
      constructor
      · intro h
        cases h
        exact ⟨rfl, rfl⟩
      · rintro ⟨h, rfl⟩
        cases h
        rfl

theorem eval_list_eq_ok_iff {items : List Expr} :
    eval bindings (.list offset items) d = .ok (value, d') ↔
      ∃ values, evalAll bindings items d = .ok (values, d') ∧ value = .list values := by
  rw [eval, evaluation_bind_eq_ok_iff]
  constructor
  · rintro ⟨values, d₁, h, hresult⟩
    cases hresult
    exact ⟨values, h, rfl⟩
  · rintro ⟨values, h, rfl⟩
    exact ⟨values, d', h, rfl⟩

theorem eval_sum_eq_ok_iff {left right : Expr} :
    eval bindings (.sum offset left right) d = .ok (value, d') ↔
      ∃ a d₁ b, eval bindings left d = .ok (a, d₁) ∧ eval bindings right d₁ = .ok (b, d') ∧
        a.add b = .ok value := by
  rw [eval, evaluation_bind_eq_ok_iff]
  simp only [evaluation_bind_eq_ok_iff, atOffset_eq_ok_iff]
  constructor
  · rintro ⟨a, d₁, ha, b, d₂, hb, hadd, rfl⟩
    exact ⟨a, d₁, b, ha, hb, hadd⟩
  · rintro ⟨a, d₁, b, ha, hb, hadd⟩
    exact ⟨a, d₁, ha, b, d', hb, hadd, rfl⟩

theorem eval_call_eq_ok_iff {function : String} {args : List Expr} :
    eval bindings (.call offset function args) d = .ok (value, d') ↔
      ∃ verb values d₁ text, Verb.ofName? function = some verb ∧
        evalAll bindings args d = .ok (values, d₁) ∧
        Arguments.oneString function values = .ok text ∧ verb.declare text d₁ = (value, d') := by
  rw [eval]
  cases Verb.ofName? function with
  | none =>
      constructor
      · intro h
        cases h
      · rintro ⟨verb, values, d₁, text, hverb, -⟩
        cases hverb
  | some verb =>
      simp only [evaluation_bind_eq_ok_iff, atOffset_eq_ok_iff]
      constructor
      · rintro ⟨values, d₁, hargs, text, d₂, ⟨htext, rfl⟩, d₃, d₄, hget, stored, d₅, hset, h⟩
        cases hget
        cases hset
        cases h
        exact ⟨verb, values, _, text, rfl, hargs, htext, rfl⟩
      · rintro ⟨verb', values, d₁, text, hverb, hargs, htext, hdeclare⟩
        cases hverb
        refine ⟨values, d₁, hargs, text, d₁, ⟨htext, rfl⟩, d₁, d₁, rfl, ?_⟩
        rw [hdeclare]
        exact ⟨(), d', rfl, rfl⟩

theorem eval_method_eq_ok_iff {receiver : Expr} {name : String} {args : List Expr} :
    eval bindings (.method offset receiver name args) d = .ok (value, d') ↔
      ∃ target d₁ values d₂, eval bindings receiver d = .ok (target, d₁) ∧
        evalAll bindings args d₁ = .ok (values, d₂) ∧
        callMethod target name values d₂ = .ok (value, d') := by
  rw [eval]
  simp only [evaluation_bind_eq_ok_iff, atOffset_eq_ok_iff]
  constructor
  · rintro ⟨target, d₁, htarget, values, d₂, hargs, d₃, d₄, hget, result, d₅, ⟨hcall, rfl⟩,
      stored, d₆, hset, h⟩
    cases hget
    cases hset
    cases h
    exact ⟨target, d₁, values, d₂, htarget, hargs, hcall⟩
  · rintro ⟨target, d₁, values, d₂, htarget, hargs, hcall⟩
    exact ⟨target, d₁, htarget, values, d₂, hargs, d₂, d₂, rfl, (value, d'), d₂, ⟨hcall, rfl⟩,
      (), d', rfl, rfl⟩

theorem evalAll_cons_eq_ok_iff {item : Expr} {items : List Expr} {values : List Value} :
    evalAll bindings (item :: items) d = .ok (values, d') ↔
      ∃ first d₁ rest, eval bindings item d = .ok (first, d₁) ∧
        evalAll bindings items d₁ = .ok (rest, d') ∧ values = first :: rest := by
  rw [evalAll]
  simp only [evaluation_bind_eq_ok_iff]
  constructor
  · rintro ⟨first, d₁, hfirst, rest, d₂, hrest, h⟩
    cases h
    exact ⟨first, d₁, rest, hfirst, hrest, rfl⟩
  · rintro ⟨first, d₁, rest, hfirst, hrest, rfl⟩
    exact ⟨first, d₁, hfirst, rest, d', hrest, rfl⟩

theorem run_cons_eq_ok_iff {stmt : Stmt} {rest : List Stmt} :
    run bindings (stmt :: rest) d = .ok ((), d') ↔
      ∃ value d₁, eval bindings stmt.value d = .ok (value, d₁) ∧
        run (stmt.bindings bindings value) rest d₁ = .ok ((), d') := by
  cases stmt <;> rw [run, evaluation_bind_eq_ok_iff] <;> rfl

end AssetPipeline.Script
