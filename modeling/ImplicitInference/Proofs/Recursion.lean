import ImplicitInference.Proofs.Joining

/-!
How unification recurs. `Unifies` says which pairs of values one layer of a unification calls for, and
what it makes of what they come to; a dual calls for its sides first and then for what they came to.
What two values come to is smaller than both of them together, so every call is about less than its
caller, and the recursion does without a bound on its depth: unification is the one function that
satisfies these rules.
-/

namespace ImplicitInference

def Unified.ofPair (recurse : Value → Value → Unified) (pair : Value × Option Value) : Unified :=
  pair.2.elim (.keep pair.1) (recurse pair.1)

def Unified.ofJoin (recurse : Value → Value → Unified) (f g : Form Value) : Unified :=
  .ofForm ((f.join g).1.map (ofPair recurse))
    ((f.join g).2.map (Diagnostic.ofClash (.term f) (.term g)))

/-- What holds of a child that stays as it is, and of what each pair comes to, holds of all parts. -/
theorem Unified.forall_ofPair {recurse : Value → Value → Unified} {P : Value → Unified → Prop}
    {f g : Form Value} (hkeep : ∀ a ∈ f.children, P a (.keep a))
    (hcalls : ∀ call ∈ Form.partners (f.join g).1.children, P call.1 (recurse call.1 call.2)) :
    ∀ pair ∈ (f.join g).1.children, P pair.1 (ofPair recurse pair) := by
  rintro ⟨a, partner⟩ hpair
  cases partner with
  | none =>
    have ha : a ∈ ((f.join g).1.map Prod.fst).children := Form.mem_children_map hpair
    rw [Form.map_fst_join] at ha
    exact hkeep a ha
  | some b => exact hcalls (a, b) (Form.mem_partners.mpr hpair)

namespace Value

/-- One layer of a unification: the pairs that it calls for, in order, and what it comes to if
`recurse` says what those pairs come to. -/
inductive Unifies (recurse : Value → Value → Unified) :
    Value → Value → List (Value × Value) → Unified → Prop
  | same {left right : Value} (h : left.equal right) : Unifies recurse left right [] (.keep left)
  | varLeft {name : String} {right : Value} (h : ¬(var name).equal right) :
      Unifies recurse (var name) right [] (.assume name right)
  | varRight {f : Form Value} {name : String} :
      Unifies recurse (term f) (var name) [] (.assume name (term f))
  | dualLeft {a b : Value} {g : Form Value} (h : ¬(dual a b).equal (term g)) :
      Unifies recurse (dual a b) (term g) [(a, b), ((recurse a b).value, term g)]
        ((recurse a b).andThen (recurse (recurse a b).value (term g)))
  | dualRight {f : Form Value} {a b : Value} (h : ¬(term f).equal (dual a b))
      (hf : f.sides? = none) :
      Unifies recurse (term f) (dual a b) [(a, b), (term f, (recurse a b).value)]
        ((recurse a b).andThen (recurse (term f) (recurse a b).value))
  | joined {f g : Form Value} (h : ¬(term f).equal (term g)) (hf : f.sides? = none)
      (hg : g.sides? = none) :
      Unifies recurse (term f) (term g) (Form.partners (f.join g).1.children) (.ofJoin recurse f g)

variable {recurse other : Value → Value → Unified} {left right : Value} {depth : Nat}
  {pairs : List (Value × Value)} {u : Unified}

theorem unifyWithin_of_equal {left right : Value} (depth : Nat) (h : left.equal right) :
    unifyWithin (depth + 1) left right = .keep left := by
  unfold unifyWithin
  exact if_pos h

theorem unifyWithin_var_left {name : String} {right : Value} (depth : Nat)
    (h : ¬(var name).equal right) :
    unifyWithin (depth + 1) (var name) right = .assume name right := by
  rw [unifyWithin, if_neg h]

theorem unifyWithin_var_right {form : Form Value} {name : String} (depth : Nat) :
    unifyWithin (depth + 1) (term form) (var name) = .assume name (term form) := by
  have h : ¬(term form).equal (var name) := by simp [equal, compare]
  rw [unifyWithin, if_neg h]

theorem unifyWithin_terms {f g : Form Value} (depth : Nat) (h : ¬(term f).equal (term g))
    (hf : f.sides? = none) (hg : g.sides? = none) :
    unifyWithin (depth + 1) (term f) (term g) =
      .ofJoin (unifyWithin depth) f g := by
  rw [unifyWithin, if_neg h]
  simp only [hf, hg]
  refine congrArg (Unified.ofForm · _) (Form.map_congr ?_)
  rintro ⟨a, partner⟩ -
  cases partner <;> rfl

theorem unifyWithin_dual_left {f g : Form Value} {a b : Value} (depth : Nat)
    (h : ¬(term f).equal (term g)) (hf : f.sides? = some (a, b)) :
    unifyWithin (depth + 1) (term f) (term g) =
      (unifyWithin depth a b).andThen
        (unifyWithin depth (unifyWithin depth a b).value (term g)) := by
  rw [unifyWithin, if_neg h]
  simp only [hf]

theorem unifyWithin_dual_right {f g : Form Value} {a b : Value} (depth : Nat)
    (h : ¬(term f).equal (term g)) (hf : f.sides? = none) (hg : g.sides? = some (a, b)) :
    unifyWithin (depth + 1) (term f) (term g) =
      (unifyWithin depth a b).andThen
        (unifyWithin depth (term f) (unifyWithin depth a b).value) := by
  rw [unifyWithin, if_neg h]
  simp only [hf, hg]

theorem exists_unifies (depth : Nat) (left right : Value) :
    ∃ calls, Unifies (unifyWithin depth) left right calls (unifyWithin (depth + 1) left right) := by
  by_cases h : left.equal right
  · rw [unifyWithin_of_equal depth h]
    exact ⟨_, .same h⟩
  cases left with
  | var name =>
    rw [unifyWithin_var_left depth h]
    exact ⟨_, .varLeft h⟩
  | term f =>
    cases right with
    | var name =>
      rw [unifyWithin_var_right]
      exact ⟨_, .varRight⟩
    | term g =>
      cases hf : f.sides? with
      | some sides =>
        rw [unifyWithin_dual_left depth h hf]
        obtain rfl := Form.eq_dual_of_sides? hf
        exact ⟨_, .dualLeft h⟩
      | none =>
        cases hg : g.sides? with
        | some sides =>
          rw [unifyWithin_dual_right depth h hf hg]
          obtain rfl := Form.eq_dual_of_sides? hg
          exact ⟨_, .dualRight h hf⟩
        | none =>
          rw [unifyWithin_terms depth h hf hg]
          exact ⟨_, .joined h hf hg⟩

theorem Unifies.unifyWithin_eq (h : Unifies (unifyWithin depth) left right pairs u) :
    unifyWithin (depth + 1) left right = u := by
  cases h with
  | same h => exact unifyWithin_of_equal depth h
  | varLeft h => exact unifyWithin_var_left depth h
  | varRight => exact unifyWithin_var_right depth
  | dualLeft h => exact unifyWithin_dual_left depth h rfl
  | dualRight h hf => exact unifyWithin_dual_right depth h hf rfl
  | joined h hf hg => exact unifyWithin_terms depth h hf hg

/-- What layers that are no duals come to without a report: literals that agree, or layers that go together
child by child. -/
theorem ofJoin_silent {f g : Form Value} (h : (Unified.ofJoin recurse f g).diagnostics = []) :
    (∃ a b, f = .literal a ∧ g = .literal b ∧ a.agrees b ∧
      Unified.ofJoin recurse f g = .keep (term f)) ∨
    ∃ q : Form (Value × Value), f = q.map Prod.fst ∧ g = q.map Prod.snd ∧
      Form.partners (f.join g).1.children = q.children ∧
      (∀ pair ∈ q.children, (recurse pair.1 pair.2).diagnostics = []) ∧
      Unified.ofJoin recurse f g = .ofForm (q.map fun pair => recurse pair.1 pair.2) none := by
  obtain ⟨hparts, hclash⟩ := List.append_eq_nil_iff.mp h
  obtain ⟨a, b, rfl, rfl, hab, hjoin⟩ | ⟨q, rfl, rfl, -, hjoin⟩ | hclashes := Form.join_cases f g
  · refine .inl ⟨a, b, rfl, rfl, hab, ?_⟩
    rw [Unified.ofJoin, hjoin]
    rfl
  · rw [hjoin, Form.map_map] at hparts
    refine .inr ⟨q, rfl, rfl, by rw [hjoin, Form.partners_pairs], fun pair hpair => ?_, ?_⟩
    · apply List.flatMap_eq_nil_iff.mp hparts (recurse pair.1 pair.2)
      exact Form.mem_children_map hpair
    · rw [Unified.ofJoin, hjoin, Form.map_map]
      rfl
  · exact absurd (by simpa using hclash) hclashes.clash

/-- A layer depends on nothing but its calls. -/
theorem Unifies.congr (h : Unifies recurse left right pairs u)
    (heq : ∀ call ∈ pairs, other call.1 call.2 = recurse call.1 call.2) :
    Unifies other left right pairs u := by
  cases h with
  | same h => exact .same h
  | varLeft h => exact .varLeft h
  | varRight => exact .varRight
  | @dualLeft a b g h =>
    have hsides : other a b = recurse a b := heq _ List.mem_cons_self
    have hrest : other (recurse a b).value (term g) = recurse (recurse a b).value (term g) :=
      heq _ (List.mem_cons_of_mem _ List.mem_cons_self)
    rw [← hrest, ← hsides]
    exact .dualLeft h
  | @dualRight f a b h hf =>
    have hsides : other a b = recurse a b := heq _ List.mem_cons_self
    have hrest : other (term f) (recurse a b).value = recurse (term f) (recurse a b).value :=
      heq _ (List.mem_cons_of_mem _ List.mem_cons_self)
    rw [← hrest, ← hsides]
    exact .dualRight h hf
  | @joined f g h hf hg =>
    have hparts : (f.join g).1.map (Unified.ofPair recurse) =
        (f.join g).1.map (Unified.ofPair other) := by
      apply Form.map_congr
      rintro ⟨a, partner⟩ hmem
      cases partner with
      | none => rfl
      | some b => exact (heq (a, b) (Form.mem_partners.mpr hmem)).symm
    have hjoin : Unified.ofJoin recurse f g = .ofJoin other f g := by
      rw [Unified.ofJoin, hparts, Unified.ofJoin]
    rw [hjoin]
    exact .joined h hf hg

section Size

/-- Each pair comes to less than both its values together. -/
theorem size_ofPair_le {pairs : List (Value × Option Value)}
    (h : ∀ call ∈ Form.partners pairs,
      (recurse call.1 call.2).value.size < call.1.size + call.2.size) :
    (pairs.map fun pair => (Unified.ofPair recurse pair).value.size).sum ≤
      (pairs.map fun pair => pair.1.size).sum + ((pairs.filterMap Prod.snd).map size).sum := by
  induction pairs with
  | nil => exact Nat.le_refl _
  | cons pair pairs ih =>
    have hrest := ih fun call hcall => h call ?_
    · obtain ⟨a, partner⟩ := pair
      cases partner with
      | none =>
        simp only [List.map_cons, List.sum_cons, List.filterMap_cons]
        show a.size + _ ≤ _
        omega
      | some b =>
        have hpair : (recurse a b).value.size < a.size + b.size :=
          h (a, b) (Form.mem_partners.mpr List.mem_cons_self)
        simp only [List.map_cons, List.sum_cons, List.filterMap_cons]
        show (recurse a b).value.size + _ ≤ _
        omega
    · exact Form.mem_partners.mpr (List.mem_cons_of_mem _ (Form.mem_partners.mp hcall))

/-- A layer comes to less than both its values together if its calls do. -/
theorem Unifies.size_lt (h : Unifies recurse left right pairs u)
    (hcalls : ∀ call ∈ pairs, (recurse call.1 call.2).value.size < call.1.size + call.2.size) :
    u.value.size < left.size + right.size := by
  have hleft := left.size_pos
  have hright := right.size_pos
  cases h with
  | same _ => exact Nat.lt_add_of_pos_right hright
  | varLeft _ => exact Nat.lt_add_of_pos_left hleft
  | varRight => exact Nat.lt_add_of_pos_right hright
  | @dualLeft a b g _ =>
    have hsides : (recurse a b).value.size < a.size + b.size := hcalls _ List.mem_cons_self
    have hrest : (recurse (recurse a b).value (term g)).value.size <
        (recurse a b).value.size + (term g).size :=
      hcalls _ (List.mem_cons_of_mem _ List.mem_cons_self)
    rw [size_dual]
    exact hrest.trans (by omega)
  | @dualRight f a b _ _ =>
    have hsides : (recurse a b).value.size < a.size + b.size := hcalls _ List.mem_cons_self
    have hrest : (recurse (term f) (recurse a b).value).value.size <
        (term f).size + (recurse a b).value.size :=
      hcalls _ (List.mem_cons_of_mem _ List.mem_cons_self)
    rw [size_dual]
    exact hrest.trans (by omega)
  | @joined f g _ _ _ =>
    have hpairs := size_ofPair_le hcalls
    have hfst : (f.join g).1.children.map Prod.fst = f.children := by
      rw [← Form.children_map, Form.map_fst_join]
    have hsnd : (((f.join g).1.children.filterMap Prod.snd).map size).sum ≤
        (g.children.map size).sum :=
      ((Form.snd_join_sublist f g).map size).sum_le_sum fun _ _ => Nat.zero_le _
    rw [size_term f, size_term g, Unified.ofJoin, Unified.ofForm, size_term, ← hfst]
    simp only [Form.children_map, List.map_map, Function.comp_def] at hpairs ⊢
    omega

/-- A layer calls only for pairs that are smaller than its own, also where it calls for what the sides
of a dual came to. -/
theorem Unifies.calls_lt (h : Unifies recurse left right pairs u)
    (hsize : ∀ a b, (recurse a b).value.size < a.size + b.size) :
    ∀ call ∈ pairs, call.1.size + call.2.size < left.size + right.size := by
  rintro ⟨l, r⟩ hcall
  show l.size + r.size < left.size + right.size
  cases h with
  | same _ => exact absurd hcall List.not_mem_nil
  | varLeft _ => exact absurd hcall List.not_mem_nil
  | varRight => exact absurd hcall List.not_mem_nil
  | @dualLeft a b g _ =>
    have hsides := hsize a b
    have hg := (term g).size_pos
    simp only [List.mem_cons, Prod.mk.injEq, List.not_mem_nil, or_false] at hcall
    rw [size_dual]
    rcases hcall with ⟨rfl, rfl⟩ | ⟨rfl, rfl⟩ <;> omega
  | @dualRight f a b _ _ =>
    have hsides := hsize a b
    have hf := (term f).size_pos
    simp only [List.mem_cons, Prod.mk.injEq, List.not_mem_nil, or_false] at hcall
    rw [size_dual]
    rcases hcall with ⟨rfl, rfl⟩ | ⟨rfl, rfl⟩ <;> omega
  | @joined f g _ _ _ =>
    obtain ⟨hl, hr⟩ := Form.mem_children_of_mem_partners hcall
    exact Nat.add_lt_add (size_lt_of_mem_children hl) (size_lt_of_mem_children hr)

theorem size_unifyWithin_lt (depth : Nat) (left right : Value) :
    (unifyWithin depth left right).value.size < left.size + right.size := by
  induction depth generalizing left right with
  | zero => exact Nat.lt_add_of_pos_right right.size_pos
  | succ depth ih =>
    obtain ⟨pairs, h⟩ := exists_unifies depth left right
    apply h.size_lt
    intro call _
    exact ih call.1 call.2

end Size

/-- All depths that are at least both sizes give the same. -/
theorem unifyWithin_congr {n m : Nat} (hn : left.size + right.size ≤ n)
    (hm : left.size + right.size ≤ m) : unifyWithin n left right = unifyWithin m left right := by
  have hpos := left.size_pos
  induction n generalizing left right m with
  | zero => omega
  | succ n ih =>
    obtain ⟨m, rfl⟩ : ∃ k, m = k + 1 := Nat.exists_eq_succ_of_ne_zero (by omega)
    obtain ⟨pairs, h⟩ := exists_unifies n left right
    have hcalls := h.calls_lt (size_unifyWithin_lt n)
    have hother : Unifies (unifyWithin m) left right pairs (unifyWithin (n + 1) left right) := by
      apply h.congr
      intro call hcall
      have hlt := hcalls call hcall
      exact (ih (by omega) (by omega) call.1.size_pos).symm
    exact hother.unifyWithin_eq.symm

theorem size_unify_lt (left right : Value) : (left.unify right).value.size < left.size + right.size :=
  size_unifyWithin_lt _ left right

/-- Unification is made of layers that call for unification: for what its layer comes to there is
only one choice. -/
theorem unifies_unify_iff :
    (∃ pairs, Unifies unify left right pairs u) ↔ u = left.unify right := by
  have hpos := left.size_pos
  obtain ⟨n, hn⟩ : ∃ n, left.size + right.size = n + 1 :=
    Nat.exists_eq_succ_of_ne_zero (by omega)
  have hunify : left.unify right = unifyWithin (n + 1) left right := by rw [unify, hn]
  constructor
  · rintro ⟨pairs, h⟩
    have hcalls := h.calls_lt size_unify_lt
    have hwithin : Unifies (unifyWithin n) left right pairs u := by
      apply h.congr
      intro call hcall
      have hlt := hcalls call hcall
      exact unifyWithin_congr (by omega) (Nat.le_refl _)
    rw [hunify, hwithin.unifyWithin_eq]
  · rintro rfl
    obtain ⟨pairs, h⟩ := exists_unifies n left right
    have hcalls := h.calls_lt (size_unifyWithin_lt n)
    refine ⟨pairs, ?_⟩
    rw [hunify]
    apply h.congr
    intro call hcall
    have hlt := hcalls call hcall
    exact unifyWithin_congr (Nat.le_refl _) (by omega)

theorem Unifies.unify_eq (h : Unifies unify left right pairs u) : left.unify right = u :=
  (unifies_unify_iff.mp ⟨pairs, h⟩).symm

def Calls (callee caller : Value × Value) : Prop :=
  ∃ pairs u, Unifies unify caller.1 caller.2 pairs u ∧ callee ∈ pairs

theorem Calls.size_lt {callee caller : Value × Value} (h : Calls callee caller) :
    callee.1.size + callee.2.size < caller.1.size + caller.2.size := by
  obtain ⟨pairs, u, hunifies, hcallee⟩ := h
  exact hunifies.calls_lt size_unify_lt callee hcallee

theorem wellFounded_calls : WellFounded Calls :=
  Subrelation.wf Calls.size_lt (measure fun pair : Value × Value => pair.1.size + pair.2.size).wf

/-- What holds of a layer if it holds of its calls holds of unification. -/
theorem unify_induction {motive : Value → Value → Unified → Prop}
    (layer : ∀ left right pairs u, Unifies unify left right pairs u →
      (∀ call ∈ pairs, motive call.1 call.2 (call.1.unify call.2)) → motive left right u)
    (left right : Value) : motive left right (left.unify right) := by
  have hpair : ∀ pair : Value × Value, motive pair.1 pair.2 (pair.1.unify pair.2) := by
    intro pair
    induction pair using wellFounded_calls.induction with
    | h pair ih =>
      obtain ⟨pairs, h⟩ := unifies_unify_iff.mpr rfl
      exact layer _ _ _ _ h fun call hcall => ih call ⟨pairs, _, h, hcall⟩
  exact hpair (left, right)

end Value

/-- Unification ends. Every unification calls only for unifications of pairs that are smaller, where the
size of a pair is the number of variables and forms in both values; this includes the pair that the
sides of a dual, once unified, make with the other value. So the calls are well founded, what a layer
comes to from its calls is what unification comes to, and that is smaller than the pair itself. -/
theorem unification_is_well_founded :
    WellFounded Value.Calls ∧ ∀ left right : Value,
      (∀ callee, Value.Calls callee (left, right) →
        callee.1.size + callee.2.size < left.size + right.size) ∧
      (∀ u, (∃ pairs, Value.Unifies Value.unify left right pairs u) ↔ u = left.unify right) ∧
      ∀ c : Convergence, (c.converge left right).1.size < left.size + right.size := by
  refine ⟨Value.wellFounded_calls, fun left right => ⟨?_, ?_, ?_⟩⟩
  · intro callee hcalls
    exact hcalls.size_lt
  · intro u
    exact Value.unifies_unify_iff
  · intro c
    exact Value.size_unify_lt left right

def nestedDual : Value :=
  .dual (.record [("a", .var "x")])
    (.record [("a", .dual (.symbol "A") (.var "y"))])

/-- The sides of `nestedDual` come to a record with a dual in it, which then meets the other value. -/
theorem nestedDual_is_well_founded :
    Value.Calls (.record [("a", .dual (.symbol "A") (.var "y"))], .record [("a", .var "z")])
        (nestedDual, .record [("a", .var "z")]) ∧
      (Value.record [("a", .dual (.symbol "A") (.var "y"))]).size +
        (Value.record [("a", .var "z")]).size <
          nestedDual.size + (Value.record [("a", .var "z")]).size := by
  have hcalls : Value.Calls (.record [("a", .dual (.symbol "A") (.var "y"))], .record [("a", .var "z")])
      (nestedDual, .record [("a", .var "z")]) :=
    ⟨_, _, .dualLeft (by decide), List.mem_cons_of_mem _ List.mem_cons_self⟩
  exact ⟨hcalls, (unification_is_well_founded.2 _ _).1 _ hcalls⟩

end ImplicitInference
