import ImplicitInference.Proofs.Expansion
import ImplicitInference.Proofs.Record

/-!
What the sources of an entry tell about it, in every state of a reduction and so under every limit.
They are all about the variable of the entry, each of them says something, and no later one repeats
an earlier one; their relations alone decide how the entry is related to its value, in whatever
order they came. No constraint is lost on the way, and none is made up: a source was given, or it was
learned on behalf of the node that some given constraint came from, and it is about variables that
were given.
-/

namespace ImplicitInference

section Strongest

/-- What several relations come to: being equal to a value decides before being evaluated from it, and
that before evaluating to it. -/
def Relation.strongest (relations : List Relation) : Relation :=
  if .equals ∈ relations then .equals
  else if .evaluatedFrom ∈ relations then .evaluatedFrom
  else .evaluatesTo

theorem Relation.strongest_append (relations : List Relation) (r : Relation) :
    strongest (relations ++ [r]) = strongest [strongest relations, r] := by
  by_cases hequals : .equals ∈ relations
  · simp [strongest, hequals]
  · by_cases hevaluated : .evaluatedFrom ∈ relations <;>
      cases r <;> simp [strongest, hequals, hevaluated]

theorem Relation.strongest_eq_evaluatedFrom_iff (relations : List Relation) :
    strongest relations = .evaluatedFrom ↔ .evaluatedFrom ∈ relations ∧ .equals ∉ relations := by
  by_cases hequals : .equals ∈ relations
  · simp [strongest, hequals]
  · by_cases hevaluated : .evaluatedFrom ∈ relations <;> simp [strongest, hequals, hevaluated]

theorem Convergence.relation_meet (c : Convergence) (existing incoming : Relation × Value) :
    (c.meet existing incoming).1 = .strongest [existing.1, incoming.1] := by
  obtain ⟨r, v⟩ := existing
  obtain ⟨q, w⟩ := incoming
  cases r <;> cases q <;> rfl

end Strongest

namespace Entry

variable {e : Entry} {c : Constraint} {k : Convergence}

/-- What an entry owes to its sources. -/
structure Justified (e : Entry) : Prop where
  sourced : e.sources ≠ []
  var : ∀ source ∈ e.sources, source.var = e.var
  telling : ∀ source ∈ e.sources, source.value ≠ .var source.var
  distinct : e.sources.Pairwise fun earlier later => ¬ earlier.sameFact later
  relation : e.relation = .strongest (e.sources.map Constraint.relation)

theorem justified_ofConstraint (h : c.value ≠ .var c.var) : (ofConstraint c).Justified where
  sourced := List.cons_ne_nil _ _
  var := List.forall_mem_singleton.mpr rfl
  telling := List.forall_mem_singleton.mpr h
  distinct := List.pairwise_singleton _ _
  relation := by cases hrelation : c.relation <;> simp [ofConstraint, Relation.strongest, hrelation]

theorem Justified.merge (h : e.Justified) (hvar : c.var = e.var) (htelling : c.value ≠ .var c.var)
    (hnew : ∀ source ∈ e.sources, ¬ source.sameFact c) : (e.merge c k).1.Justified where
  sourced := List.append_ne_nil_of_right_ne_nil _ (List.cons_ne_nil _ _)
  var := List.forall_mem_append.mpr ⟨h.var, List.forall_mem_singleton.mpr hvar⟩
  telling := List.forall_mem_append.mpr ⟨h.telling, List.forall_mem_singleton.mpr htelling⟩
  distinct := by
    refine List.pairwise_append.mpr ⟨h.distinct, List.pairwise_singleton _ _, ?_⟩
    intro source hsource last hlast
    rw [List.mem_singleton.mp hlast]
    exact hnew source hsource
  relation := by
    have hmeet := k.relation_meet (e.relation, e.value) (c.relation, c.value)
    simp only [Entry.merge, List.map_append, List.map_singleton]
    rw [hmeet, h.relation, Relation.strongest_append]

end Entry

namespace Reduction

variable {r t : Reduction} {c : Constraint} {queue learned : List Constraint}

section Justified

structure Orderly (entries : Table Entry) : Prop where
  keys : entries.keys.Nodup
  entries : ∀ name entry, entries.get? name = some entry → entry.var = name ∧ entry.Justified

theorem orderly_empty : Orderly {} where
  keys := List.nodup_nil
  entries := fun _ _ h => absurd h (by simp [Table.get?])

theorem Orderly.insert {entries : Table Entry} {name : String} {entry : Entry}
    (h : Orderly entries) (hvar : entry.var = name) (hentry : entry.Justified) :
    Orderly (entries.insert name entry) where
  keys := Table.nodup_keys_insert h.keys
  entries := Table.forall_get?_insert h.entries ⟨hvar, hentry⟩

theorem Step.orderly (h : Step r c t learned) (hr : Orderly r.entries)
    (htelling : c.value ≠ .var c.var) : Orderly t.entries := by
  cases h with
  | trivial _ => exact hr
  | repeated _ => exact hr
  | opened _ => exact hr.insert rfl (Entry.justified_ofConstraint htelling)
  | @merged entry hnew hold =>
    obtain ⟨hvar, hjustified⟩ := hr.entries _ _ hold
    have hfresh : ∀ source ∈ entry.sources, ¬ source.sameFact c := by
      intro source hsource hsame
      apply hnew
      rw [Reduction.records, hold]
      exact List.any_eq_true.mpr ⟨source, hsource, hsame⟩
    exact hr.insert hvar (hjustified.merge hvar.symm htelling hfresh)

theorem orderly_step (hr : Orderly r.entries) : Orderly (r.step c).1.entries := by
  by_cases htrivial : c.isTrivial
  · rw [step, if_pos htrivial]
    exact hr
  · apply (step_taken r c).orderly hr
    intro hvalue
    exact htrivial (by simp [Constraint.isTrivial, hvalue, Value.asVar?])

end Justified

end Reduction

open Reduction in
theorem orderly_course (constraints : List Constraint) (n : Nat) :
    Orderly (course constraints n).reduced.entries :=
  State.keeps (fun r _ => Orderly r.entries) (fun _ _ _ => orderly_step) orderly_empty n

/-- Under every limit the variables of a reduction have one entry each, which stands under its name;
the sources are about it, tell something and do not repeat each other, and the strongest of their
relations is that of the entry. -/
theorem reduced_entries_follow_sources (options : Options) (constraints : List Constraint) :
    (reduce options constraints).entries.keys.Nodup ∧
      ∀ name entry, (name, entry) ∈ (reduce options constraints).entries.toList →
        entry.var = name ∧ entry.sources ≠ [] ∧
        (∀ source ∈ entry.sources, source.var = name ∧ source.value ≠ .var source.var) ∧
        (entry.sources.Pairwise fun earlier later => ¬ earlier.sameFact later) ∧
        entry.relation = .strongest (entry.sources.map Constraint.relation) := by
  have horderly := orderly_course constraints options.reductionLimit
  rw [← entries_reduce] at horderly
  refine ⟨horderly.keys, ?_⟩
  intro name entry hrow
  obtain ⟨hvar, hentry⟩ := horderly.entries name entry ((Table.get?_eq_some_iff horderly.keys).mpr hrow)
  refine ⟨hvar, hentry.sourced, ?_, hentry.distinct, hentry.relation⟩
  intro source hsource
  exact ⟨(hentry.var source hsource).trans hvar, hentry.telling source hsource⟩

def threeRelations : List Constraint :=
  [.learned .evaluatesTo "x" (.var "a"), .learned .evaluatedFrom "x" (.var "b"),
    .learned .equals "x" (.var "x"), .learned .equals "x" (.var "c"),
    .learned .evaluatesTo "x" (.var "a")]

theorem threeRelations_follow_sources :
    ∃ entry, ("x", entry) ∈ (reduce {} threeRelations).entries.toList ∧
      entry.sources.map Constraint.relation = [.evaluatesTo, .evaluatedFrom, .equals] ∧
      entry.relation = .equals ∧
      (entry.sources.Pairwise fun earlier later => ¬ earlier.sameFact later) ∧
      ∀ source ∈ entry.sources, source.var = "x" ∧ source.value ≠ .var source.var := by
  have hx : ((reduce {} threeRelations).entries.get? "x").any fun entry =>
      entry.sources.map Constraint.relation = [.evaluatesTo, .evaluatedFrom, .equals] := by decide
  obtain ⟨entry, hentry, hrelations⟩ := (Option.any_eq_true _ _).mp hx
  have hrow := Table.mem_toList_of_get? hentry
  obtain ⟨-, -, htelling, hdistinct, hrelation⟩ :=
    (reduced_entries_follow_sources {} threeRelations).2 "x" entry hrow
  rw [of_decide_eq_true hrelations] at hrelation
  exact ⟨entry, hrow, of_decide_eq_true hrelations, hrelation, hdistinct, htelling⟩

section Provenance

def Signature.named (names : String → Prop) : Signature := ⟨names, fun _ => True⟩

theorem Value.within_named_iff {names : String → Prop} (v : Value) :
    v.Within (.named names) ↔ ∀ name ∈ v.freeVariables, names name := by
  simp only [mem_freeVariables]
  induction v using Value.induction with
  | var name => simp [Signature.named]
  | term form ih =>
    rw [within_term]
    constructor
    · rintro ⟨-, hchildren⟩ name hname
      obtain ⟨v, hv, hname⟩ := mem_occurrences_term.mp hname
      exact (ih v hv).mp (hchildren v hv) name hname
    · intro hnames
      refine ⟨trivial, fun v hv => (ih v hv).mpr fun name hname => ?_⟩
      exact hnames name (mem_occurrences_term.mpr ⟨v, hv, hname⟩)

def Constraint.LearnedFor (origin : String) (c : Constraint) : Prop :=
  c.origin = origin ∧ (c.relation = .equals ∧ c.provenance = .convergence ∨
    c.relation = .evaluatesTo ∧ c.provenance = .deferral)

theorem Entry.learnedFor_merge (e : Entry) (c : Constraint) (origin : String) :
    ∀ fact ∈ (e.merge c { origin }).2.facts, fact.LearnedFor origin := by
  intro fact hfact
  rcases Convergence.meet_learns { origin } (e.relation, e.value) (c.relation, c.value) with
    ⟨name, v, hdefer⟩ | ⟨left, right, hconverge⟩
  · simp only [Entry.merge, hdefer] at hfact
    rw [List.mem_singleton.mp hfact]
    exact ⟨rfl, .inr ⟨rfl, rfl⟩⟩
  · simp only [Entry.merge, hconverge] at hfact
    obtain ⟨assumed, -, rfl⟩ := List.mem_map.mp hfact
    exact ⟨rfl, .inl ⟨rfl, rfl⟩⟩

def OccursIn (constraints : List Constraint) (name : String) : Prop :=
  ∃ c ∈ constraints, name = c.var ∨ name ∈ c.value.freeVariables

/-- A constraint that was given, or learned for a node that a given one came from; all variables are
from the given ones. -/
structure Grounded (constraints : List Constraint) (c : Constraint) : Prop where
  given : c ∈ constraints ∨ ∃ source ∈ constraints, c.LearnedFor source.origin
  var : OccursIn constraints c.var
  value : c.value.Within (.named (OccursIn constraints))

variable {constraints : List Constraint} {c : Constraint}

theorem grounded_of_mem (hc : c ∈ constraints) : Grounded constraints c where
  given := .inl hc
  var := ⟨c, hc, .inl rfl⟩
  value := (Value.within_named_iff c.value).mpr fun _ hname => ⟨c, hc, .inr hname⟩

namespace Reduction

variable {r t : Reduction} {learned : List Constraint}

/-- What is learned from a grounded constraint is grounded. -/
theorem Step.grounded (h : Step r c t learned) (hc : Grounded constraints c)
    (hr : EntriesWithin (.named (OccursIn constraints)) r.entries) :
    ∀ fact ∈ learned, Grounded constraints fact := by
  intro fact hfact
  obtain ⟨hvar, hvalue⟩ := ((h.within hr hc.value).2 fact hfact).1
  refine ⟨.inr ?_, hvar, hvalue⟩
  cases h with
  | @merged entry _ _ =>
    have hlearned := entry.learnedFor_merge c c.origin fact hfact
    -- A learned fact has the origin of the constraint it was learned from, however long the way back.
    rcases hc.given with hgiven | ⟨source, hsource, hfor⟩
    · exact ⟨c, hgiven, hlearned⟩
    · exact ⟨source, hsource, hfor.1 ▸ hlearned⟩
  | _ => exact absurd hfact List.not_mem_nil

structure Traceable (constraints : List Constraint) (r : Reduction) (waiting : List Constraint) :
    Prop where
  values : EntriesWithin (.named (OccursIn constraints)) r.entries
  sources : Sources (Grounded constraints) r.entries
  waiting : ∀ c ∈ waiting, Grounded constraints c

theorem Traceable.step {queue : List Constraint} (h : Traceable constraints r (c :: queue)) :
    Traceable constraints (r.step c).1 (queue ++ (r.step c).2) := by
  obtain ⟨hc, hqueue⟩ := List.forall_mem_cons.mp h.waiting
  have hstep := step_taken r c
  exact {
    values := (hstep.within h.values hc.value).1
    sources := hstep.sources h.sources hc
    waiting := List.forall_mem_append.mpr ⟨hqueue, hstep.grounded hc h.values⟩ }

end Reduction

open Reduction in
theorem traceable_course (constraints : List Constraint) (n : Nat) :
    Traceable constraints (course constraints n).reduced (course constraints n).waiting := by
  apply State.keeps (Traceable constraints) (fun _ _ _ => Traceable.step)
  exact {
    values := fun _ _ h => absurd h (by simp [Table.get?])
    sources := .empty _
    waiting := fun _ => grounded_of_mem }

/-- A variable is evaluated from its value in the end only if a given constraint says so, and every
equation that was given for it is trivial. -/
theorem evaluatedFrom_of_reduce {options : Options} {entry : Entry}
    (hstops : ¬ Stops options constraints)
    (hentry : entry ∈ (reduce options constraints).entries.values)
    (hrelation : entry.relation = .evaluatedFrom) :
    (∃ c ∈ constraints, c.var = entry.var ∧ c.relation = .evaluatedFrom) ∧
      ∀ c ∈ constraints, c.var = entry.var → c.relation = .equals → c.isTrivial := by
  have horderly := orderly_course constraints options.reductionLimit
  have htraceable := traceable_course constraints options.reductionLimit
  have hstated := hasSource_of_reduce hstops
  unfold Reduction.HasSource at hstated
  rw [entries_reduce] at hentry hstated
  obtain ⟨⟨name, found⟩, hrow, rfl⟩ := List.mem_map.mp hentry
  have hget := (Table.get?_eq_some_iff horderly.keys).mpr hrow
  obtain ⟨rfl, hjustified⟩ := horderly.entries name found hget
  rw [hjustified.relation, Relation.strongest_eq_evaluatedFrom_iff] at hrelation
  obtain ⟨hevaluated, hequals⟩ := hrelation
  constructor
  · obtain ⟨source, hsource, hfrom⟩ := List.mem_map.mp hevaluated
    refine ⟨source, ?_, hjustified.var source hsource, hfrom⟩
    rcases (htraceable.sources _ _ hget source hsource).given with hgiven | ⟨_, _, -, hlearned⟩
    · exact hgiven
    · simp [hfrom] at hlearned
  · intro c hc hvar hrelation
    refine (hstated c hc).resolve_right ?_
    rintro ⟨entry, hentry, source, hsource, hstates⟩
    rw [hvar, hget] at hentry
    obtain rfl := Option.some.inj hentry
    apply hequals
    rw [← hrelation, ← hstates.relation_eq]
    exact List.mem_map_of_mem hsource

/-- A reduction that does not stop at its limit has taken in every constraint that is not trivial.
Under every limit all sources were given, or learned for the node that a given one came from, and all
variables are from the constraints that were given. -/
theorem reduction_keeps_to_constraints (options : Options) (constraints : List Constraint) :
    (¬ Stops options constraints → ∀ c ∈ constraints, c.value ≠ .var c.var →
      ∃ entry, (reduce options constraints).entries.get? c.var = some entry ∧
        ∃ source ∈ entry.sources, source = c ∨ source.sameFact c) ∧
    ∀ name entry, (name, entry) ∈ (reduce options constraints).entries.toList →
      OccursIn constraints name ∧ (∀ x ∈ entry.value.freeVariables, OccursIn constraints x) ∧
      ∀ source ∈ entry.sources,
        (source ∈ constraints ∨ ∃ c ∈ constraints, source.origin = c.origin ∧
          (source.relation = .equals ∧ source.provenance = .convergence ∨
            source.relation = .evaluatesTo ∧ source.provenance = .deferral)) ∧
        ∀ x ∈ source.value.freeVariables, OccursIn constraints x := by
  constructor
  · intro hstops c hc htelling
    have hstated := hasSource_of_reduce hstops c hc
    exact hstated.resolve_left fun htrivial => htelling (Reduction.value_of_isTrivial htrivial)
  · intro name entry hrow
    have horderly := orderly_course constraints options.reductionLimit
    have htraceable := traceable_course constraints options.reductionLimit
    rw [entries_reduce, ← Table.get?_eq_some_iff horderly.keys] at hrow
    obtain ⟨hvar, hjustified⟩ := horderly.entries name entry hrow
    have hgrounded := htraceable.sources name entry hrow
    refine ⟨?_, (Value.within_named_iff _).mp (htraceable.values name entry hrow), ?_⟩
    · obtain ⟨source, hsource⟩ := List.exists_mem_of_ne_nil _ hjustified.sourced
      rw [← hvar, ← hjustified.var source hsource]
      exact (hgrounded source hsource).var
    · intro source hsource
      exact ⟨(hgrounded source hsource).given,
        (Value.within_named_iff _).mp (hgrounded source hsource).value⟩

def passedOn : List Constraint :=
  [⟨.equals, "f", .function .implicit (.var "p") (.var "g"), "f", .shape .function⟩,
    ⟨.evaluatesTo, "f", .function .explicit (.var "a") (.var "b"), "call", .shape .application⟩,
    ⟨.equals, "g", .function .explicit (.number (.nan false)) (.var "c"), "g", .shape .function⟩]

theorem passedOn_reduction_keeps_to_constraints :
    ¬ Stops {} passedOn ∧
    (∀ c ∈ passedOn, c.value ≠ .var c.var →
      ∃ entry, (reduce {} passedOn).entries.get? c.var = some entry ∧
        ∃ source ∈ entry.sources, source = c ∨ source.sameFact c) ∧
    ∃ entry, ("a", entry) ∈ (reduce {} passedOn).entries.toList ∧ OccursIn passedOn "a" ∧
      ∀ source ∈ entry.sources, source ∈ passedOn ∨
        ∃ c ∈ passedOn, source.origin = c.origin ∧
          (source.relation = .equals ∧ source.provenance = .convergence ∨
            source.relation = .evaluatesTo ∧ source.provenance = .deferral) := by
  have hstops : ¬ Stops {} passedOn := by decide
  obtain ⟨hkept, hrows⟩ := reduction_keeps_to_constraints {} passedOn
  obtain ⟨entry, hentry⟩ := Option.isSome_iff_exists.mp
    (show ((reduce {} passedOn).entries.get? "a").isSome by decide)
  have hrow := Table.mem_toList_of_get? hentry
  obtain ⟨hname, -, hsources⟩ := hrows "a" entry hrow
  exact ⟨hstops, hkept hstops, entry, hrow, hname, fun source hsource => (hsources source hsource).1⟩

end Provenance

end ImplicitInference
