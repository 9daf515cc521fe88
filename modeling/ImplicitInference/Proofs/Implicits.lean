import ImplicitInference.Proofs.Agreement
import Mathlib.Logic.Function.Iterate

/-!
How leading implicit parameters are taken off a value and put on it. They come off from the outside in,
all at once or one after the other with `peel`, and they are put on from the inside out; each undoes the
other. A function of several parameters begins with those of its implicit parameters that come before
its first explicit one, and only if it has no explicit one those of its body follow.
-/

namespace ImplicitInference

namespace Value

@[simp] theorem implicitParameters_implicit (parameter body : Value) :
    (function .implicit parameter body).implicitParameters = parameter :: body.implicitParameters := by
  rw [implicitParameters]

theorem implicitCount_implicit (parameter body : Value) :
    (function .implicit parameter body).implicitCount = body.implicitCount + 1 := by
  rw [implicitCount, implicitParameters_implicit, List.length_cons, implicitCount]

section Peel

def peel (v : Value) : Value := v.stripLayer?.getD v

/-- A value is an implicit function, or it has no implicit parameter and nothing to peel. -/
theorem peel_cases (v : Value) :
    (∃ parameter body, v = function .implicit parameter body) ∨
      v.implicitParameters = [] ∧ v.peel = v := by
  by_cases h : ∃ parameter body, v = function .implicit parameter body
  · exact .inl h
  · right
    constructor
    · rw [implicitParameters]
      intro parameter body heq
      exact h ⟨parameter, body, heq⟩
    · unfold peel stripLayer?
      split
      · rename_i parameter body
        exact absurd ⟨parameter, body, rfl⟩ h
      · rfl

theorem iterate_peel (v : Value) : peel^[v.implicitCount] v = v.stripImplicits := by
  fun_induction stripImplicits v with
  | case1 parameter body ih =>
    rw [implicitCount_implicit, Function.iterate_succ_apply]
    exact ih
  | case2 v h =>
    have hcount : v.implicitCount = 0 := by
      rw [implicitCount, implicitParameters]
      · rfl
      · exact h
    rw [hcount]
    rfl

theorem stripLayer?_of_pos {v : Value} (h : 0 < v.implicitCount) :
    v.stripLayer? = some v.peel := by
  rcases peel_cases v with ⟨parameter, body, rfl⟩ | ⟨hnone, -⟩
  · rfl
  · rw [implicitCount, hnone] at h
    exact absurd h (Nat.lt_irrefl 0)

theorem implicitCount_iterate_peel (v : Value) (k : Nat) :
    (peel^[k] v).implicitCount = v.implicitCount - k := by
  induction k generalizing v with
  | zero => rfl
  | succ k ih =>
    rw [Function.iterate_succ_apply, ih]
    rcases peel_cases v with ⟨parameter, body, rfl⟩ | ⟨hnone, hpeel⟩
    · rw [implicitCount_implicit, show (function .implicit parameter body).peel = body from rfl]
      omega
    · rw [hpeel, implicitCount, hnone, List.length_nil]
      omega

/-- What was peeled off are the first implicit parameters. -/
theorem wrapImplicits_iterate_peel (v : Value) (k : Nat) :
    (peel^[k] v).wrapImplicits (v.implicitParameters.take k) = v := by
  induction k generalizing v with
  | zero => rfl
  | succ k ih =>
    rw [Function.iterate_succ_apply]
    rcases peel_cases v with ⟨parameter, body, rfl⟩ | ⟨hnone, hpeel⟩
    · rw [implicitParameters, List.take_succ_cons]
      exact congrArg (function .implicit parameter) (ih body)
    · have hrest := ih v
      rw [hnone, List.take_nil] at hrest ⊢
      rwa [hpeel]

end Peel

section Parameters

variable (body : Value)

theorem implicitParameters_wrapImplicits (parameters : List Value) :
    (body.wrapImplicits parameters).implicitParameters = parameters ++ body.implicitParameters := by
  induction parameters with
  | nil => rfl
  | cons parameter rest ih =>
    rw [wrapImplicits_cons, implicitParameters_implicit, ih, List.cons_append]

theorem stripImplicits_wrapImplicits (parameters : List Value) :
    (body.wrapImplicits parameters).stripImplicits = body.stripImplicits := by
  induction parameters with
  | nil => rfl
  | cons parameter rest ih => rw [wrapImplicits_cons, stripImplicits_implicit, ih]

/-- The implicit parameters of the body count only if no explicit one stands before them. -/
theorem implicitCount_ofParameters (parameters : List (Value × Plicity)) :
    (body.ofParameters parameters).implicitCount =
      (parameters.takeWhile fun parameter => parameter.2 = .implicit).length +
        if ∀ parameter ∈ parameters, parameter.2 = .implicit then body.implicitCount else 0 := by
  induction parameters with
  | nil => simp [ofParameters]
  | cons parameter rest ih =>
    obtain ⟨value, plicity⟩ := parameter
    rw [show body.ofParameters ((value, plicity) :: rest) =
      function plicity value (body.ofParameters rest) from rfl]
    cases plicity with
    | explicit => simp [implicitCount, implicitParameters]
    | implicit =>
      rw [implicitCount_implicit, ih, List.takeWhile_cons_of_pos (by rfl), List.length_cons]
      simp only [List.forall_mem_cons, true_and]
      omega

end Parameters

end Value

/-- Taking the leading implicit parameters off a value and putting them on a body undo each other. What
is left of a value is not an implicit function, and with its parameters back on it is the value again.
From a body with parameters put on come off these and then the body's own, and what is left is what is
left of the body. A function of several parameters has as many leading implicit ones as come before its
first explicit one, and if it has no explicit one those of its body as well. -/
theorem splitting_undoes_wrapping (v body : Value) (parameters : List Value)
    (mixed : List (Value × Plicity)) :
    v.stripImplicits.wrapImplicits v.implicitParameters = v ∧
      (∀ parameter inner, v.stripImplicits ≠ .function .implicit parameter inner) ∧
      (body.wrapImplicits parameters).implicitParameters = parameters ++ body.implicitParameters ∧
      (body.wrapImplicits parameters).stripImplicits = body.stripImplicits ∧
      (body.ofParameters mixed).implicitCount =
        (mixed.takeWhile fun parameter => parameter.2 = .implicit).length +
          if ∀ parameter ∈ mixed, parameter.2 = .implicit then body.implicitCount else 0 :=
  ⟨v.wrapImplicits_stripImplicits, v.stripImplicits_ne_implicit,
    body.implicitParameters_wrapImplicits parameters, body.stripImplicits_wrapImplicits parameters,
    body.implicitCount_ofParameters mixed⟩

end ImplicitInference
