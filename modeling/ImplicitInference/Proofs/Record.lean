import ImplicitInference.Proofs.Reduction

/-!
What is on record when a reduction ends. The sources of an entry only grow, and a constraint that is
taken up is trivial, on record already or a new source. So after a run that reports nothing, and
hence did not stop at the limit, every constraint that was ever in the queue is noted by the entry of
its variable, unless it is trivial. Which constraints can become sources is an invariant as well:
what is learned is an equality or evaluates to its value. Whatever a run reports, it takes up the
constraints that it starts with in their order, and before anything that is learned.
-/

namespace ImplicitInference

/-- A constraint states another if it is that one or says the same. The first is not a case of the
second, for a NaN is not equal to itself. -/
def Constraint.States (source c : Constraint) : Prop := source = c ∨ source.sameFact c

theorem Constraint.States.relation_eq {source c : Constraint} (h : source.States c) :
    source.relation = c.relation := by
  rcases h with rfl | hsame
  · rfl
  · simp only [sameFact, Bool.and_eq_true, beq_iff_eq] at hsame
    exact hsame.1.1

namespace Reduction

variable {r t : Reduction} {c d : Constraint} {limit rest : Nat} {queue learned : List Constraint}

def HasSource (r : Reduction) (name : String) (Q : Constraint → Prop) : Prop :=
  ∃ entry, r.entries.get? name = some entry ∧ ∃ source ∈ entry.sources, Q source

def Notes (r : Reduction) (c : Constraint) : Prop :=
  r.HasSource c.var fun source =>
    source.relation = c.relation ∧ source.value.normal = c.value.normal

theorem records_iff : r.records c ↔ r.HasSource c.var fun source => source.sameFact c := by
  unfold records HasSource
  cases r.entries.get? c.var with
  | none => simp
  | some entry => simp [List.any_eq_true]

theorem notes_of_hasSource (h : r.HasSource c.var fun source => source.States c) : r.Notes c := by
  obtain ⟨entry, hentry, source, hsource, rfl | hsame⟩ := h
  · exact ⟨entry, hentry, source, hsource, rfl, rfl⟩
  · simp only [Constraint.sameFact, Bool.and_eq_true, beq_iff_eq] at hsame
    exact ⟨entry, hentry, source, hsource, hsame.1.1, Value.normal_eq_of_equal hsame.2⟩

theorem Precedes.hasSource (h : Precedes r t) {name : String} {Q : Constraint → Prop}
    (hr : r.HasSource name Q) : t.HasSource name Q := by
  obtain ⟨entry, hentry, source, hsource, hQ⟩ := hr
  obtain ⟨later, hlater, hprefix⟩ := h.sources name entry hentry
  exact ⟨later, hlater, source, hprefix.subset hsource, hQ⟩

/-- A constraint that is taken up is trivial, or a source states it from then on. -/
theorem Step.hasSource (h : Step r c t learned) :
    c.isTrivial ∨ t.HasSource c.var fun source => source.States c := by
  cases h with
  | trivial ht => exact .inl ht
  | repeated hrecorded =>
    obtain ⟨entry, hentry, source, hsource, hsame⟩ := records_iff.mp hrecorded
    exact .inr ⟨entry, hentry, source, hsource, .inr hsame⟩
  | opened _ =>
    exact .inr ⟨_, Table.get?_insert_self, c, List.mem_singleton.mpr rfl, .inl rfl⟩
  | merged _ _ =>
    refine .inr ⟨_, Table.get?_insert_self, c, ?_, .inl rfl⟩
    exact List.mem_append_right _ (List.mem_singleton.mpr rfl)

def Accounted (c : Constraint) (r : Reduction) (waiting : List Constraint) : Prop :=
  c ∈ waiting ∨ c.isTrivial ∨ r.HasSource c.var fun source => source.States c

theorem Accounted.step (h : Accounted c r (d :: queue)) :
    Accounted c (r.step d).1 (queue ++ (r.step d).2) := by
  rcases h with hwaits | htrivial | hstated
  · rcases List.mem_cons.mp hwaits with rfl | hlater
    · exact .inr (step_taken r c).hasSource
    · exact .inl (List.mem_append_left _ hlater)
  · exact .inr (.inl htrivial)
  · exact .inr (.inr ((step_taken r d).precedes.hasSource hstated))

/-- When no constraint waits any more, each one of the queue is trivial or stated by a source. -/
theorem run_hasSource (hended : (State.next^[rest] ⟨r, queue⟩).waiting = []) :
    ∀ c ∈ queue, c.isTrivial ∨
      (run limit rest queue r).1.HasSource c.var fun source => source.States c := by
  intro c hc
  have hstart : Accounted c r queue := .inl hc
  have haccounted := State.keeps (Accounted c) (fun _ _ _ => Accounted.step) hstart rest
  rw [hended] at haccounted
  rw [HasSource, entries_run]
  exact haccounted.resolve_left List.not_mem_nil

theorem run_notes (hdiagnostics : (run limit rest queue r).1.diagnostics = []) :
    ∀ c ∈ queue, c.isTrivial ∨ (run limit rest queue r).1.Notes c := by
  intro c hc
  exact (run_hasSource (ended_of_silent hdiagnostics) c hc).imp id notes_of_hasSource

section Sources

def Sources (P : Constraint → Prop) (entries : Table Entry) : Prop :=
  ∀ name entry, entries.get? name = some entry → ∀ source ∈ entry.sources, P source

theorem Sources.empty (P : Constraint → Prop) : Sources P {} :=
  fun _ _ h => absurd h (by simp [Table.get?])

theorem Step.sources {P : Constraint → Prop} (h : Step r c t learned) (hr : Sources P r.entries)
    (hc : P c) : Sources P t.entries := by
  cases h with
  | trivial _ => exact hr
  | repeated _ => exact hr
  | opened _ => exact Table.forall_get?_insert hr (List.forall_mem_singleton.mpr hc)
  | merged _ hentry =>
    refine Table.forall_get?_insert hr (List.forall_mem_append.mpr ⟨hr _ _ hentry, ?_⟩)
    exact List.forall_mem_singleton.mpr hc

def Requested (c : Constraint) : Prop := c.relation = .evaluatedFrom → c.isConsumption

/-- All that is on record or waits and says what a variable is evaluated from is a request. -/
structure AllRequested (r : Reduction) (queue : List Constraint) : Prop where
  dualFree : DualFree r queue
  sources : Sources Requested r.entries
  queue : ∀ c ∈ queue, Requested c

theorem AllRequested.step (h : AllRequested r (c :: queue)) :
    AllRequested (r.step c).1 (queue ++ (r.step c).2) := by
  obtain ⟨hdual, -⟩ := List.forall_mem_cons.mp h.dualFree.queue
  obtain ⟨hc, hqueue⟩ := List.forall_mem_cons.mp h.queue
  have hstep := step_taken r c
  have hlearned := hstep.dualFree_learned h.dualFree.entries hdual
  refine ⟨h.dualFree.step, hstep.sources h.sources hc, List.forall_mem_append.mpr ⟨hqueue, ?_⟩⟩
  intro fact hmem hrelation
  exact absurd hrelation (hlearned fact hmem).2

theorem run_sourcesRequested (h : AllRequested r queue) :
    Sources Requested (run limit rest queue r).1.entries := by
  rw [entries_run]
  exact (State.keeps AllRequested (fun _ _ _ => AllRequested.step) h rest).sources

end Sources

section Order

variable {waiting later : List Constraint}

def takeAll (r : Reduction) : List Constraint → Reduction × List Constraint
  | [] => (r, [])
  | c :: queue =>
    (((r.step c).1.takeAll queue).1, (r.step c).2 ++ ((r.step c).1.takeAll queue).2)

/-- What waits behind some constraints is untouched when these have been taken up, and comes before
all that was learned from them. -/
theorem iterate_next_append (r : Reduction) (waiting later : List Constraint) :
    State.next^[waiting.length] ⟨r, waiting ++ later⟩ =
      ⟨(r.takeAll waiting).1, later ++ (r.takeAll waiting).2⟩ := by
  induction waiting generalizing r later with
  | nil => simp [takeAll]
  | cons c waiting ih =>
    have hnext : State.next ⟨r, c :: waiting ++ later⟩ =
        ⟨(r.step c).1, waiting ++ (later ++ (r.step c).2)⟩ := by
      rw [← List.append_assoc]
      rfl
    rw [List.length_cons, Function.iterate_succ_apply, hnext, ih, List.append_assoc]
    rfl

theorem precedes_takeAll (r : Reduction) (queue : List Constraint) :
    Precedes r (r.takeAll queue).1 := by
  induction queue generalizing r with
  | nil => exact .refl r
  | cons c queue ih => exact (step_taken r c).precedes.trans (ih (r.step c).1)

/-- Each constraint that was taken up is trivial, or a source states it. -/
theorem takeAll_hasSource (r : Reduction) (queue : List Constraint) :
    ∀ c ∈ queue, c.isTrivial ∨
      (r.takeAll queue).1.HasSource c.var fun source => source.States c := by
  induction queue generalizing r with
  | nil => exact List.forall_mem_nil _
  | cons c queue ih =>
    refine List.forall_mem_cons.mpr ⟨?_, ih (r.step c).1⟩
    exact (step_taken r c).hasSource.imp id (precedes_takeAll (r.step c).1 queue).hasSource

theorem sources_takeAll {P : Constraint → Prop} (hr : Sources P r.entries)
    (hP : ∀ c ∈ queue, P c) : Sources P (r.takeAll queue).1.entries := by
  induction queue generalizing r with
  | nil => exact hr
  | cons c queue ih =>
    obtain ⟨hc, hP⟩ := List.forall_mem_cons.mp hP
    exact ih ((step_taken r c).sources hr hc) hP

theorem takeAll_frame {name : String} (hname : ∀ c ∈ queue, c.var ≠ name) :
    (r.takeAll queue).1.entries.get? name = r.entries.get? name := by
  induction queue generalizing r with
  | nil => rfl
  | cons c queue ih =>
    obtain ⟨hc, hname⟩ := List.forall_mem_cons.mp hname
    exact (ih hname).trans ((step_taken r c).frame hc.symm)

/-- With a step for each constraint that waits, all of them are taken up while there are only such
constraints on record. -/
theorem run_takes {P : Constraint → Prop} (hlimit : waiting.length ≤ rest)
    (hr : Sources P r.entries) (hP : ∀ c ∈ waiting, P c) :
    ∀ c ∈ waiting, c.isTrivial ∨ (run limit rest (waiting ++ later) r).1.HasSource c.var
      fun source => source.relation = c.relation ∧ P source := by
  intro c hc
  have hprecedes : Precedes (r.takeAll waiting).1 (run limit rest (waiting ++ later) r).1 := by
    obtain ⟨n, rfl⟩ := Nat.exists_eq_add_of_le hlimit
    rw [run_eq_cut, Nat.add_comm, Function.iterate_add_apply, iterate_next_append]
    exact (precedes_iterate ⟨_, _⟩ n).trans (precedes_cut limit _)
  rcases takeAll_hasSource r waiting c hc with htrivial | hstated
  · exact .inl htrivial
  · obtain ⟨entry, hentry, source, hsource, hrelation, -⟩ := notes_of_hasSource hstated
    have hkind := sources_takeAll hr hP _ _ hentry source hsource
    exact .inr (hprecedes.hasSource ⟨entry, hentry, source, hsource, hrelation, hkind⟩)

/-- With no more steps than constraints that wait, a variable that these are not about gets no
entry. -/
theorem run_frame (hlimit : rest ≤ waiting.length) {name : String}
    (hname : ∀ c ∈ waiting, c.var ≠ name) :
    (run limit rest (waiting ++ later) r).1.entries.get? name = r.entries.get? name := by
  have htaken := iterate_next_append r (waiting.take rest) (waiting.drop rest ++ later)
  rw [List.length_take_of_le hlimit, ← List.append_assoc, List.take_append_drop] at htaken
  rw [entries_run, htaken]
  exact takeAll_frame fun c hc => hname c (List.mem_of_mem_take hc)

end Order

end Reduction

open Reduction in
/-- A reduction that does not stop at its limit has a source for every constraint. -/
theorem hasSource_of_reduce {options : Options} {constraints : List Constraint}
    (hstops : ¬ Stops options constraints) :
    ∀ c ∈ constraints, c.isTrivial ∨
      (reduce options constraints).HasSource c.var fun source => source.States c :=
  run_hasSource (ended_of_not_stops hstops)

open Reduction in
/-- With a step for each constraint, all of them are taken up and none is forgotten for something
that was learned. -/
theorem takes_of_reduce {options : Options} {constraints : List Constraint} {P : Constraint → Prop}
    (hlimit : constraints.length ≤ options.reductionLimit) (hP : ∀ c ∈ constraints, P c) :
    ∀ c ∈ constraints, c.isTrivial ∨ (reduce options constraints).HasSource c.var
      fun source => source.relation = c.relation ∧ P source := by
  intro c hc
  rw [← List.append_nil constraints]
  exact run_takes hlimit (.empty P) hP c hc

open Reduction in
theorem frame_of_reduce {options : Options} {waiting later : List Constraint} {name : String}
    (hlimit : options.reductionLimit ≤ waiting.length) (hname : ∀ c ∈ waiting, c.var ≠ name) :
    (reduce options (waiting ++ later)).entries.get? name = none :=
  run_frame hlimit hname

open Reduction in
/-- A variable that a node wants evaluated is consumed, if that was not a trivial request. -/
theorem consumption_of_reduce {options : Options} {constraints : List Constraint} {c : Constraint}
    (hdual : ∀ c ∈ constraints, c.value.dualFree) (hrequested : ∀ c ∈ constraints, Requested c)
    (hdiagnostics : (reduce options constraints).diagnostics = []) (hc : c ∈ constraints)
    (hrelation : c.relation = .evaluatedFrom) (htrivial : ¬ c.isTrivial) :
    (reduce options constraints).HasSource c.var fun source => source.isConsumption := by
  have hsources : Sources Requested (reduce options constraints).entries :=
    run_sourcesRequested ⟨⟨wellFormed_empty, hdual⟩, .empty _, hrequested⟩
  obtain ⟨entry, hentry, source, hsource, hsame, -⟩ :=
    (run_notes hdiagnostics c hc).resolve_left htrivial
  exact ⟨entry, hentry, source, hsource,
    hsources _ _ hentry source hsource (hsame.trans hrelation)⟩

end ImplicitInference
