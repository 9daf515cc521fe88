import ImplicitInference.Proofs.Accounting
import ImplicitInference.Proofs.Checking
import ImplicitInference.Proofs.Matching
import Mathlib.Data.Set.Card

/-!
What may be supplied for implicit parameters, and how many choices there are. A candidate serves a
requirement if it is the built-in instance that meets it, or if there is none and a binding has a
type that the requirement can be narrowed to. A combination suits a node if each of its candidates
serves its requirement and all of them go together. The search finds every such combination, and
finds it once, since a scope binds a name once. So what is supplied is the only choice, and the
number in a report is the number of choices. The search goes through the bindings in order and tries
each combination on its own, so further bindings only add choices between those that were there.
-/

namespace ImplicitInference

namespace Candidate

section Combinations

variable {α : Type} {choices choices' : List (List α)}

/-- No combination comes up twice if no list has a member twice. -/
theorem nodup_combinations (h : ∀ list ∈ choices, list.Nodup) : (combinations choices).Nodup := by
  induction choices with
  | nil => exact List.nodup_singleton _
  | cons list rest ih =>
    obtain ⟨hlist, hrest⟩ := List.forall_mem_cons.mp h
    rw [combinations, List.nodup_flatMap]
    refine ⟨fun a _ => (ih hrest).map List.cons_injective, hlist.imp ?_⟩
    intro a b hab combination ha hb
    obtain ⟨_, _, rfl⟩ := List.mem_map.mp ha
    obtain ⟨_, _, heq⟩ := List.mem_map.mp hb
    exact hab (List.cons.inj heq).1.symm

theorem combinations_sublist (h : List.Forall₂ List.Sublist choices choices') :
    (combinations choices).Sublist (combinations choices') := by
  induction h with
  | nil => exact List.Sublist.refl _
  | @cons list list' rest rest' hlist _ ih =>
    have hfirst : (combinations (list :: rest)).Sublist
        (list'.flatMap fun choice => (combinations rest).map (choice :: ·)) := hlist.flatMap _
    exact hfirst.trans (List.Sublist.flatMap_right _ fun choice _ => ih.map _)

end Combinations

variable {options : Options} {scope scope' : Scope} {requirement : Value} {candidate : Candidate}

theorem nodup_forRequirement (hscope : scope.keys.Nodup) :
    (forRequirement options scope requirement).Nodup := by
  rcases forRequirement_cases options requirement with ⟨name, -, -, hall⟩ | ⟨-, hall⟩
  · rw [hall]
    exact List.nodup_singleton _
  · rw [hall]
    have htypes : (scope.types.map Prod.fst).Nodup := by
      rw [Scope.types, List.map_map]
      exact hscope
    exact (List.Nodup.of_map _ htypes).filter _

theorem forRequirement_sublist (h : scope.types.Sublist scope'.types) :
    (forRequirement options scope requirement).Sublist
      (forRequirement options scope' requirement) := by
  rcases forRequirement_cases options requirement with ⟨name, -, -, hall⟩ | ⟨-, hall⟩
  · rw [hall, hall]
  · rw [hall, hall]
    exact h.filter _

/-- A candidate may be supplied for a requirement: it is the built-in instance that meets it, or
there is none and it is bound, not to a mere variable, and is accepted as it is. -/
inductive Serves (options : Options) (scope : Scope) (requirement : Value) : Candidate → Prop
  | builtin {name : String} (enabled : options.builtinInstances)
      (meets : requirement.builtinInstance? = some name) :
      Serves options scope requirement (name, requirement)
  | bound {name : String} {binding : Binding}
      (unmet : options.builtinInstances → requirement.builtinInstance? = none)
      (binds : scope.get? name = some binding) (definite : binding.type.asVar? = none)
      (accepted : Accepted binding.type requirement) :
      Serves options scope requirement (name, binding.type)

theorem mem_forRequirement_iff (hscope : scope.keys.Nodup) :
    candidate ∈ forRequirement options scope requirement ↔
      Serves options scope requirement candidate := by
  rcases forRequirement_cases options requirement with
    ⟨name, henabled, hmeets, hall⟩ | ⟨hunmet, hall⟩
  · rw [hall, List.mem_singleton]
    constructor
    · rintro rfl
      exact .builtin henabled hmeets
    · rintro (⟨_, hname⟩ | ⟨hunmet, -, -, -⟩)
      · rw [hmeets] at hname
        rw [Option.some.inj hname]
      · rw [hunmet henabled] at hmeets
        cases hmeets
  · rw [hall, List.mem_filter, satisfies_iff]
    constructor
    · rintro ⟨hmem, hdefinite, haccepted⟩
      obtain ⟨⟨name, binding⟩, hrow, rfl⟩ := List.mem_map.mp hmem
      exact .bound hunmet ((Table.get?_eq_some_iff hscope).mpr hrow) hdefinite haccepted
    · rintro (⟨henabled, hmeets⟩ | ⟨-, hbound, hdefinite, haccepted⟩)
      · rw [hunmet henabled] at hmeets
        cases hmeets
      · exact ⟨List.mem_map_of_mem (Table.mem_toList_of_get? hbound), hdefinite, haccepted⟩

end Candidate

namespace Scoped

open Candidate

variable {options : Options} {here there : Scoped} {combination : List Candidate}

structure Suits (options : Options) (here : Scoped) (combination : List Candidate) : Prop where
  each : List.Forall₂ (fun candidate requirement => Serves options here.scope requirement candidate)
    combination here.requirements
  together : (reduce options (facts here.requirements combination)).diagnostics = []

theorem mem_supplies_iff_suits (hscope : here.scope.keys.Nodup) :
    combination ∈ here.supplies options ↔ here.Suits options combination := by
  rw [mem_supplies_iff]
  simp only [mem_forRequirement_iff hscope]
  exact ⟨fun h => ⟨h.1, h.2⟩, fun h => ⟨h.1, h.2⟩⟩

theorem nodup_supplies (hscope : here.scope.keys.Nodup) : (here.supplies options).Nodup := by
  rw [supplies, valid_trials]
  apply List.Nodup.filter
  apply nodup_combinations
  rw [List.forall_mem_map]
  exact fun requirement _ => nodup_forRequirement hscope

/-- The combinations that suit are as many as the search finds. -/
theorem encard_suits (options : Options) (hscope : here.scope.keys.Nodup) :
    {combination | here.Suits options combination}.encard = (here.supplies options).length := by
  classical
  rw [← List.toFinset_card_of_nodup (nodup_supplies hscope), ← Set.encard_coe_eq_coe_finsetCard]
  congr 1
  ext combination
  simp [mem_supplies_iff_suits hscope]

/-- The empty combination is the only choice for a node that needs nothing. -/
theorem supplies_of_satisfied (h : here.requirements.isEmpty) : here.supplies options = [[]] := by
  have hsilent : (reduce options []).diagnostics = [] := by
    rw [diagnostics_reduce, course, Function.iterate_fixed (Reduction.State.next_of_ended rfl)]
    rfl
  rw [supplies, valid_trials, List.isEmpty_iff.mp h]
  exact List.filter_eq_self.mpr (by simp [combinations, facts, hsilent])

/-- The same is wanted of a node where more may be in scope, between the bindings that were there.
-/
structure Enlarged (here there : Scoped) : Prop where
  shape : there.shape = here.shape
  type : there.type = here.type
  types : here.scope.types.Sublist there.scope.types

theorem Enlarged.trans {last : Scoped} (h : here.Enlarged there) (h' : there.Enlarged last) :
    here.Enlarged last :=
  ⟨h'.shape.trans h.shape, h'.type.trans h.type, h.types.trans h'.types⟩

theorem Enlarged.supplies_sublist (h : here.Enlarged there) :
    (here.supplies options).Sublist (there.supplies options) := by
  have hrequirements : there.requirements = here.requirements := by
    rw [requirements, requirements, excess, excess, h.shape, h.type]
  rw [supplies, supplies, valid_trials, valid_trials, hrequirements]
  apply List.Sublist.filter
  apply combinations_sublist
  rw [List.forall₂_map_left_iff, List.forall₂_map_right_iff, List.forall₂_same]
  exact fun requirement _ => forRequirement_sublist h.types

end Scoped

section Verdict

open Resolved

variable {options : Options} {n : Node Scoped} {combination : List Candidate}

/-- The report of a node goes by the number of its choices, whether it needs anything or not. -/
theorem report_cases (options : Options) (here : Scoped) :
    (here.supplies options = [] ∧
      report options here = [.unresolvedImplicits here.requirements]) ∨
    ((here.supplies options).length = 1 ∧ report options here = []) ∨
    (2 ≤ (here.supplies options).length ∧
      report options here =
        [.ambiguousImplicits (here.supplies options).length here.excess]) := by
  rw [report, Scoped.length_requirements]
  by_cases hnone : here.requirements.isEmpty
  · rw [if_pos hnone, Scoped.supplies_of_satisfied hnone]
    exact .inr (.inl ⟨rfl, rfl⟩)
  · rw [if_neg hnone]
    rcases here.supplies options with _ | ⟨first, _ | ⟨second, rest⟩⟩
    · exact .inl ⟨rfl, rfl⟩
    · exact .inr (.inl ⟨rfl, rfl⟩)
    · exact .inr (.inr ⟨Nat.le_add_left _ _, rfl⟩)

theorem reported_unresolved_iff :
    Reported options n (.unresolvedImplicits n.decoration.requirements) ↔
      n.decoration.supplies options = [] := by
  rw [reported_iff]
  rcases report_cases options n.decoration with
    ⟨hnone, hreport⟩ | ⟨hone, hreport⟩ | ⟨hmany, hreport⟩ <;> grind

theorem reported_ambiguous_iff {count : Nat} :
    Reported options n (.ambiguousImplicits count n.decoration.excess) ↔
      2 ≤ count ∧ (n.decoration.supplies options).length = count := by
  rw [reported_iff]
  rcases report_cases options n.decoration with
    ⟨hnone, hreport⟩ | ⟨hone, hreport⟩ | ⟨hmany, hreport⟩ <;> grind

theorem supplied_eq_chosen (options : Options) (n : Node Scoped) :
    (resolveImplicits options n).node.decoration.supplied = n.decoration.chosen options := by
  rw [(resolveImplicits_eq options n).1, resolved_eq_supplyAll]
  rfl

theorem supplied_iff (hsome : combination ≠ []) :
    (resolveImplicits options n).node.decoration.supplied = combination ↔
      n.decoration.supplies options = [combination] := by
  rw [supplied_eq_chosen]
  constructor
  · rintro rfl
    obtain ⟨hneeded, combination, hsupplies⟩ := Scoped.chosen_ne_nil_iff.mp hsome
    rw [Scoped.chosen_of_supplies hneeded hsupplies, hsupplies]
  · intro hsupplies
    have hlength := Scoped.length_of_supplies hsupplies
    have hpos := List.length_pos_iff.mpr hsome
    exact Scoped.chosen_of_supplies (by omega) hsupplies

end Verdict

section Uniqueness

theorem Scope.nodup_keys_extend {scope : Scope} (h : scope.keys.Nodup)
    (bindings : List (String × Binding)) : (scope.extend bindings).keys.Nodup := by
  induction bindings generalizing scope with
  | nil => exact h
  | cons binding rest ih => exact ih (Table.nodup_keys_append h)

/-- A scope that was built binds a name once. -/
theorem nodup_keys_buildScopes (tree : Node Typed) :
    ∀ n ∈ (buildScopes tree).toList, n.decoration.scope.keys.Nodup :=
  Scoped.scope_keeps (I := fun scope => scope.keys.Nodup) List.nodup_nil
    (fun _ _ _ houter => Scope.nodup_keys_extend houter _)
    (fun _ _ _ _ houter => Scope.nodup_keys_extend houter _)

variable {options : Options} {here : Scoped} {combination : List Candidate}

theorem Scoped.supplies_eq_singleton_iff (hscope : here.scope.keys.Nodup) :
    here.supplies options = [combination] ↔
      {other | here.Suits options other} = {combination} := by
  have hmem : ∀ other, other ∈ {other | here.Suits options other} ↔ other ∈ here.supplies options :=
    fun other => (mem_supplies_iff_suits hscope).symm
  constructor
  · intro hsupplies
    ext other
    rw [hmem, hsupplies, List.mem_singleton, Set.mem_singleton_iff]
  · intro hsuits
    have hcount := encard_suits options hscope
    rw [hsuits, Set.encard_singleton] at hcount
    obtain ⟨only, honly⟩ := List.length_eq_one_iff.mp (by exact_mod_cast hcount.symm)
    have hcombination : combination ∈ here.supplies options :=
      (hmem combination).mp (hsuits ▸ Set.mem_singleton combination)
    rw [honly, List.mem_singleton] at hcombination
    rw [honly, hcombination]

theorem Scoped.supplies_eq_nil_iff (hscope : here.scope.keys.Nodup) :
    here.supplies options = [] ↔ {other | here.Suits options other} = ∅ := by
  rw [← Set.encard_eq_zero, encard_suits options hscope, Nat.cast_eq_zero, List.length_eq_zero_iff]

end Uniqueness

/-- What is supplied to a node is the only combination that suits it. If there is no such
combination, or there are several, the node is reported with their number. -/
theorem supplied_choice_is_unique (options : Options) (tree : Node Scoped)
    (hscopes : ∀ m ∈ tree.toList, m.decoration.scope.keys.Nodup) :
    (∀ n ∈ (resolveImplicits options tree).node.toList, n.decoration.supplied ≠ [] →
      ∃ m ∈ tree.toList, n = (resolveImplicits options m).node) ∧
    ∀ m ∈ tree.toList,
      Wraps (unsupplied options m) (resolveImplicits options m).node.decoration.supplied
        (resolveImplicits options m).node ∧
      (∀ combination, combination ≠ [] →
        ((resolveImplicits options m).node.decoration.supplied = combination ↔
          {other | m.decoration.Suits options other} = {combination})) ∧
      (Reported options m (.unresolvedImplicits m.decoration.requirements) ↔
        {other | m.decoration.Suits options other} = ∅) ∧
      ∀ count : Nat, Reported options m (.ambiguousImplicits count m.decoration.excess) ↔
        2 ≤ count ∧ {other | m.decoration.Suits options other}.encard = count := by
  refine ⟨?_, fun m hm => ⟨?_, ?_, ?_, ?_⟩⟩
  · intro n hn hsupplied
    rw [(resolveImplicits_eq options tree).1] at hn
    obtain ⟨m, hm, heq, -⟩ := exists_of_supplied hn hsupplied
    exact ⟨m, hm, by rw [heq, (resolveImplicits_eq options m).1]⟩
  · have hwraps := wraps_resolved options m
    rwa [ofNode_eq_unsupplied, ← (resolveImplicits_eq options m).1, ← supplied_eq_chosen] at hwraps
  · intro combination hsome
    rw [supplied_iff hsome, Scoped.supplies_eq_singleton_iff (hscopes m hm)]
  · rw [reported_unresolved_iff, Scoped.supplies_eq_nil_iff (hscopes m hm)]
  · intro count
    rw [reported_ambiguous_iff, Scoped.encard_suits options (hscopes m hm), Nat.cast_inj]

def instanceOf (name : String) (type : Value) : Value := .data (.symbol name) [type]

def withInstances (bindings : List (String × Value)) (body : Node Typed) : Node Typed :=
  bindings.foldr (fun (name, type) body =>
    ⟨.binding name ⟨.identifier "instance", type, type⟩ body, body.decoration⟩) body

def instanceCall : Node Typed :=
  withInstances
    [("showA", instanceOf "Show" (.symbol "A")), ("showB", instanceOf "Show" (.symbol "B")),
      ("equalB", instanceOf "Equal" (.symbol "B"))]
    ⟨.form (.application
      ⟨.identifier "f", .symbol "R", (Value.symbol "R").wrapImplicits
        [instanceOf "Show" (.var "t"), instanceOf "Equal" (.var "t")]⟩
      ⟨.identifier "g", .symbol "R", (Value.symbol "R").wrapImplicits
        [instanceOf "Show" (.var "t")]⟩), .symbol "R", .symbol "R"⟩

theorem instanceCall_choice_is_unique :
    (∃ m ∈ (buildScopes instanceCall).toList, m.expression = .identifier "f" ∧
      {combination | m.decoration.Suits {} combination} =
        {[("showB", instanceOf "Show" (.symbol "B")),
          ("equalB", instanceOf "Equal" (.symbol "B"))]}) ∧
    ∃ m ∈ (buildScopes instanceCall).toList, m.expression = .identifier "g" ∧
      {combination | m.decoration.Suits {} combination}.encard = 2 := by
  obtain ⟨-, hnodes⟩ := supplied_choice_is_unique {} (buildScopes instanceCall)
    (nodup_keys_buildScopes instanceCall)
  have hcall : ∀ {n}, n ∈ _ → n ∈ (buildScopes instanceCall).toList := fun hn =>
    Node.mem_toList_of_child (List.mem_cons_of_mem _ List.mem_cons_self)
      (Node.mem_toList_of_child (List.mem_cons_of_mem _ List.mem_cons_self)
        (Node.mem_toList_of_child (List.mem_cons_of_mem _ List.mem_cons_self) hn))
  constructor
  · have hf := hcall (Node.mem_toList_of_child List.mem_cons_self (Node.mem_toList_self _))
    obtain ⟨-, hsupplied, -, -⟩ := hnodes _ hf
    exact ⟨_, hf, rfl, (hsupplied _ (List.cons_ne_nil _ _)).mp rfl⟩
  · have hg := hcall (Node.mem_toList_of_child (List.mem_cons_of_mem _ List.mem_cons_self)
      (Node.mem_toList_self _))
    obtain ⟨-, -, -, hambiguous⟩ := hnodes _ hg
    exact ⟨_, hg, rfl, ((hambiguous 2).mp rfl).2⟩

section Enlargement

variable {options : Options} {narrow wide : Node Scoped}

/-- What is supplied stays a choice, so it stays supplied unless other choices come up. -/
theorem supplied_or_ambiguous (h : narrow.decoration.Enlarged wide.decoration)
    (hsupplied : (resolveImplicits options narrow).node.decoration.supplied ≠ []) :
    (resolveImplicits options wide).node.decoration.supplied =
        (resolveImplicits options narrow).node.decoration.supplied ∨
      ∃ count, Reported options wide (.ambiguousImplicits count wide.decoration.excess) := by
  have hsupplies := (supplied_iff hsupplied).mp rfl
  have hsublist : (narrow.decoration.supplies options).Sublist (wide.decoration.supplies options) :=
    h.supplies_sublist
  rw [hsupplies] at hsublist
  have hlength := hsublist.length_le
  rw [List.length_singleton] at hlength
  rcases Nat.eq_or_lt_of_le hlength with hone | hmore
  · exact .inl ((supplied_iff hsupplied).mpr (hsublist.eq_of_length hone).symm)
  · exact .inr ⟨_, reported_ambiguous_iff.mpr ⟨hmore, rfl⟩⟩

theorem supplied_eq_of_enlarged (h : narrow.decoration.Enlarged wide.decoration)
    (hnarrow : (resolveImplicits options narrow).node.decoration.supplied ≠ [])
    (hwide : (resolveImplicits options wide).node.decoration.supplied ≠ []) :
    (resolveImplicits options wide).node.decoration.supplied =
      (resolveImplicits options narrow).node.decoration.supplied := by
  rcases supplied_or_ambiguous h hnarrow with heq | ⟨count, hreported⟩
  · exact heq
  · have hsupplies := (supplied_iff hwide).mp rfl
    obtain ⟨htwo, hcount⟩ := reported_ambiguous_iff.mp hreported
    rw [hsupplies, List.length_singleton] at hcount
    omega

theorem ambiguous_of_enlarged (h : narrow.decoration.Enlarged wide.decoration) {count : Nat}
    (hreported : Reported options narrow (.ambiguousImplicits count narrow.decoration.excess)) :
    ∃ larger, count ≤ larger ∧
      Reported options wide (.ambiguousImplicits larger wide.decoration.excess) := by
  obtain ⟨htwo, hcount⟩ := reported_ambiguous_iff.mp hreported
  have hlarger : count ≤ (wide.decoration.supplies options).length :=
    hcount ▸ h.supplies_sublist.length_le
  exact ⟨_, hlarger, reported_ambiguous_iff.mpr ⟨htwo.trans hlarger, rfl⟩⟩

end Enlargement

def needsA (types : List (String × Value)) : Node Scoped :=
  ⟨.identifier "f", .symbol "R", (Value.symbol "R").wrapImplicits [.symbol "A"],
    Scope.ofTypes types⟩

/-- Where more is in scope, all choices stay choices, in their order. So what is supplied stays
supplied unless it becomes ambiguous, and what is ambiguous stays so; but what is unresolved can
become resolved and then ambiguous. -/
theorem enlarged_scope_keeps_choices :
    (∀ (options : Options) (narrow wide : Node Scoped),
      narrow.decoration.Enlarged wide.decoration →
      (narrow.decoration.supplies options).Sublist (wide.decoration.supplies options) ∧
      ((resolveImplicits options narrow).node.decoration.supplied ≠ [] →
        (resolveImplicits options wide).node.decoration.supplied =
            (resolveImplicits options narrow).node.decoration.supplied ∨
          ∃ count, Reported options wide (.ambiguousImplicits count wide.decoration.excess)) ∧
      ((resolveImplicits options narrow).node.decoration.supplied ≠ [] →
        (resolveImplicits options wide).node.decoration.supplied ≠ [] →
        (resolveImplicits options wide).node.decoration.supplied =
          (resolveImplicits options narrow).node.decoration.supplied) ∧
      ∀ count, Reported options narrow (.ambiguousImplicits count narrow.decoration.excess) →
        ∃ larger, count ≤ larger ∧
          Reported options wide (.ambiguousImplicits larger wide.decoration.excess)) ∧
    ∃ first second third : Node Scoped,
      first.decoration.Enlarged second.decoration ∧ second.decoration.Enlarged third.decoration ∧
      first.decoration.Enlarged third.decoration ∧
      Reported {} first (.unresolvedImplicits first.decoration.requirements) ∧
      (resolveImplicits {} second).node.decoration.supplied ≠ [] ∧
      Reported {} third (.ambiguousImplicits 2 third.decoration.excess) := by
  constructor
  · intro options narrow wide h
    exact ⟨h.supplies_sublist, supplied_or_ambiguous h, supplied_eq_of_enlarged h,
      fun _ => ambiguous_of_enlarged h⟩
  · have hfirst : (needsA []).decoration.Enlarged (needsA [("a", .symbol "A")]).decoration :=
      ⟨rfl, rfl, List.nil_sublist _⟩
    have hsecond : (needsA [("a", .symbol "A")]).decoration.Enlarged
        (needsA [("a", .symbol "A"), ("b", .symbol "A")]).decoration :=
      ⟨rfl, rfl, .cons_cons _ (List.nil_sublist _)⟩
    exact ⟨_, _, _, hfirst, hsecond, hfirst.trans hsecond, rfl, List.cons_ne_nil _ _, rfl⟩

theorem needsA_enlarged_scope_keeps_choices :
    (resolveImplicits {} (needsA
        [("x", .symbol "B"), ("a", .symbol "A"), ("y", .var "t")])).node.decoration.supplied =
      (resolveImplicits {} (needsA [("a", .symbol "A")])).node.decoration.supplied ∧
    ∃ larger, 2 ≤ larger ∧
      Reported {} (needsA [("a", .symbol "A"), ("c", .symbol "A"), ("b", .symbol "A")])
        (.ambiguousImplicits larger 1) := by
  have hkeeps := enlarged_scope_keeps_choices.1
  constructor
  · have henlarged : (needsA [("a", .symbol "A")]).decoration.Enlarged
        (needsA [("x", .symbol "B"), ("a", .symbol "A"), ("y", .var "t")]).decoration :=
      ⟨rfl, rfl, .cons _ (.cons_cons _ (List.nil_sublist _))⟩
    obtain ⟨-, -, hsame, -⟩ := hkeeps {} _ _ henlarged
    exact hsame (List.cons_ne_nil _ _) (List.cons_ne_nil _ _)
  · have henlarged : (needsA [("a", .symbol "A"), ("b", .symbol "A")]).decoration.Enlarged
        (needsA [("a", .symbol "A"), ("c", .symbol "A"), ("b", .symbol "A")]).decoration :=
      ⟨rfl, rfl, .cons_cons _ (.cons _ (.cons_cons _ (List.nil_sublist _)))⟩
    obtain ⟨-, -, -, hambiguous⟩ := hkeeps {} _ _ henlarged
    exact hambiguous 2 rfl

end ImplicitInference
