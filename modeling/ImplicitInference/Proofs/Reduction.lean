import ImplicitInference.Proofs.Course
import ImplicitInference.Proofs.Reading
import ImplicitInference.Proofs.Table

/-!
What a whole reduction keeps of its constraints. One step trades a constraint for an entry and the
facts learned, and the two say the same, with two exceptions. A variable related to itself is let
go, although evaluating to itself says that a variable has no implicit parameters. A fact that
repeats a constraint on record is let go too, although the entry which stands for that record may
have become what the fact was learned from. So a run is exact up to the facts it skipped. That
nothing else is lost holds for every reading of the constraints that merging respects.
-/

namespace ImplicitInference

namespace Entry

variable {s : String → Value} {e : Entry} {c : Constraint} {k : Convergence}

theorem within_merge {sig : Signature} (he : e.value.Within sig) (hc : c.value.Within sig) :
    (e.merge c { origin := c.origin }).1.value.Within sig ∧
      (e.merge c { origin := c.origin }).2.Within sig :=
  Convergence.Within.meet (fun _ hmem => absurd hmem List.not_mem_nil) he hc

theorem dualFree_merge (he : e.value.dualFree) (hc : c.value.dualFree) :
    (e.merge c { origin := c.origin }).1.value.dualFree ∧
      ∀ fact ∈ (e.merge c { origin := c.origin }).2.facts,
        fact.value.dualFree ∧ fact.relation ≠ .evaluatedFrom := by
  simp only [Value.dualFree_iff_within] at he hc ⊢
  obtain ⟨hvalue, hfacts⟩ := within_merge he hc
  exact ⟨hvalue, fun fact hmem => (hfacts fact hmem).imp And.right id⟩

theorem keeps_of_merge {R : Reading} (he : e.value.dualFree) (hc : c.value.dualFree)
    (hvar : e.var = c.var) (hsilent : (e.merge c k).2.diagnostics = [])
    (hfacts : ∀ fact ∈ (e.merge c k).2.facts, R.Says fact) (h : R.Keeps (e.merge c k).1) :
    R.Keeps e ∧ R.Says c := by
  have hboth := R.of_meet he hc hsilent hfacts h
  exact ⟨hboth.1, by rw [Reading.Says, ← hvar]; exact hboth.2⟩

theorem merge_holds (he : e.value.dualFree) (hc : c.value.dualFree) (hvar : e.var = c.var)
    (hne : e.relation = .evaluatedFrom → c.relation ≠ .evaluatedFrom) (hk : k.Holds s)
    (h : e.Holds s) (hholds : c.Holds s) : (e.merge c k).2.Holds s ∧ (e.merge c k).1.Holds s := by
  rw [Constraint.Holds, ← hvar] at hholds
  exact Convergence.meet_holds he hc hne hk h hholds

end Entry

namespace Reduction

/-- What taking up a constraint lets go: the constraint, if it is trivial, and otherwise what is
learned although it is on record. -/
def skips (r : Reduction) (c : Constraint) : List Constraint :=
  if c.isTrivial then [c] else (r.step c).2.filter (r.step c).1.records

def skipped : Nat → List Constraint → Reduction → List Constraint
  | _, [], _ => []
  | 0, _ :: _, _ => []
  | rest + 1, c :: queue, r => r.skips c ++ skipped rest (queue ++ (r.step c).2) (r.step c).1

variable {s : String → Value} {R : Reading} {r t : Reduction} {c : Constraint} {limit rest : Nat}
  {queue learned : List Constraint}

section Invariant

def WellFormed (entries : Table Entry) : Prop :=
  ∀ name entry, entries.get? name = some entry → entry.var = name ∧ entry.value.dualFree

theorem WellFormed.insert {entries : Table Entry} {entry : Entry} {name : String}
    (h : WellFormed entries) (hname : entry.var = name) (hvalue : entry.value.dualFree) :
    WellFormed (entries.insert name entry) :=
  Table.forall_get?_insert h ⟨hname, hvalue⟩

theorem Step.wellFormed (h : Step r c t learned) (hr : WellFormed r.entries)
    (hc : c.value.dualFree) : WellFormed t.entries := by
  cases h with
  | trivial _ => exact hr
  | repeated _ => exact hr
  | opened _ => exact WellFormed.insert hr rfl hc
  | merged _ hentry =>
    obtain ⟨hvar, hvalue⟩ := hr _ _ hentry
    exact WellFormed.insert hr hvar (Entry.dualFree_merge hvalue hc).1

theorem Step.dualFree_learned (h : Step r c t learned) (hr : WellFormed r.entries)
    (hc : c.value.dualFree) :
    ∀ fact ∈ learned, fact.value.dualFree ∧ fact.relation ≠ .evaluatedFrom := by
  cases h with
  | merged _ hentry => exact (Entry.dualFree_merge (hr _ _ hentry).2 hc).2
  | _ => exact fun _ hmem => absurd hmem List.not_mem_nil

structure DualFree (r : Reduction) (queue : List Constraint) : Prop where
  entries : WellFormed r.entries
  queue : ∀ c ∈ queue, c.value.dualFree

theorem DualFree.step (h : DualFree r (c :: queue)) :
    DualFree (r.step c).1 (queue ++ (r.step c).2) := by
  obtain ⟨hc, hqueue⟩ := List.forall_mem_cons.mp h.queue
  have hlearned := (step_taken r c).dualFree_learned h.entries hc
  constructor
  · exact (step_taken r c).wellFormed h.entries hc
  · exact List.forall_mem_append.mpr ⟨hqueue, fun fact hmem => (hlearned fact hmem).1⟩

theorem wellFormed_run (h : DualFree r queue) : WellFormed (run limit rest queue r).1.entries := by
  rw [entries_run]
  exact (State.keeps DualFree (fun _ _ _ => DualFree.step) h rest).entries

def EntriesWithin (sig : Signature) (entries : Table Entry) : Prop :=
  ∀ name entry, entries.get? name = some entry → entry.value.Within sig

theorem Step.within {sig : Signature} (h : Step r c t learned) (hr : EntriesWithin sig r.entries)
    (hc : c.value.Within sig) :
    EntriesWithin sig t.entries ∧ ∀ fact ∈ learned,
      (sig.names fact.var ∧ fact.value.Within sig) ∧ fact.relation ≠ .evaluatedFrom := by
  cases h with
  | trivial _ => exact ⟨hr, List.forall_mem_nil _⟩
  | repeated _ => exact ⟨hr, List.forall_mem_nil _⟩
  | opened _ => exact ⟨Table.forall_get?_insert hr hc, List.forall_mem_nil _⟩
  | merged _ hentry =>
    obtain ⟨hvalue, hfacts⟩ := Entry.within_merge (hr _ _ hentry) hc
    exact ⟨Table.forall_get?_insert hr hvalue, hfacts⟩

end Invariant

section Sound

theorem Step.records (h : Step r c t learned) {d : Constraint} (hd : t.records d) :
    r.records d ∨ ¬ r.records c ∧ c.sameFact d := by
  by_cases hvar : d.var = c.var
  · cases h with
    | trivial _ => exact .inl hd
    | repeated _ => exact .inl hd
    | opened hnone =>
      simp only [Reduction.records, hvar, Table.get?_insert_self] at hd
      exact .inr ⟨by simp [Reduction.records, hnone], by simpa [Entry.ofConstraint] using hd⟩
    | merged hnew hentry =>
      simp only [Reduction.records, hvar, Table.get?_insert_self, Entry.merge,
        List.any_append, Bool.or_eq_true] at hd
      rcases hd with hearlier | hsame
      · exact .inl (by simpa only [Reduction.records, hvar, hentry] using hearlier)
      · exact .inr ⟨hnew, by simpa using hsame⟩
  · rw [Reduction.records, h.frame hvar] at hd
    exact .inl hd

theorem mem_skips {fact : Constraint} (hmem : fact ∈ (r.step c).2)
    (hrecorded : (r.step c).1.records fact) : fact ∈ r.skips c := by
  by_cases ht : c.isTrivial
  · rw [step, if_pos ht] at hmem
    exact absurd hmem List.not_mem_nil
  · rw [skips, if_neg ht]
    exact List.mem_filter.mpr ⟨hmem, hrecorded⟩

/-- Before a step, what its outcome says holds of the entries and of the constraint. -/
theorem Step.sound (h : Step r c t learned) (hr : WellFormed r.entries) (hc : c.value.dualFree)
    (hdiagnostics : t.diagnostics = []) (htrivial : c.isTrivial → R.Says c)
    (hentries : ∀ name entry, t.entries.get? name = some entry → R.Keeps entry)
    (hlearned : ∀ fact ∈ learned, R.Says fact) :
    (∀ name entry, r.entries.get? name = some entry → R.Keeps entry) ∧
      (r.records c ∨ R.Says c) := by
  cases h with
  | trivial ht => exact ⟨hentries, .inr (htrivial ht)⟩
  | repeated hrecorded => exact ⟨hentries, .inl hrecorded⟩
  | opened hnone =>
    constructor
    · intro name entry hentry
      have hne : name ≠ c.var := fun heq => by simp [← heq, hentry] at hnone
      exact hentries name entry (by rwa [Table.get?_insert_of_ne hne])
    · exact .inr (hentries c.var (.ofConstraint c) Table.get?_insert_self)
  | merged _ hold =>
    obtain ⟨hvar, hvalue⟩ := hr _ _ hold
    have hmerged := hentries c.var _ Table.get?_insert_self
    obtain ⟨hexisting, hincoming⟩ := Entry.keeps_of_merge hvalue hc hvar
      (List.append_eq_nil_iff.mp hdiagnostics).2 hlearned hmerged
    refine ⟨fun name entry hentry => ?_, .inr hincoming⟩
    by_cases hname : name = c.var
    · rw [hname, hold] at hentry
      exact Option.some.inj hentry ▸ hexisting
    · exact hentries name entry (by rwa [Table.get?_insert_of_ne hname])

/-- Before a run that reports nothing, what its outcome says holds of the entries and of every
constraint in the queue that is not on record. -/
theorem run_sound (hr : WellFormed r.entries) (hqueue : ∀ c ∈ queue, c.value.dualFree)
    (hdiagnostics : (run limit rest queue r).1.diagnostics = [])
    (hskipped : ∀ fact ∈ skipped rest queue r, R.Says fact)
    (hentries : ∀ name entry,
      (run limit rest queue r).1.entries.get? name = some entry → R.Keeps entry) :
    (∀ name entry, r.entries.get? name = some entry → R.Keeps entry) ∧
      ∀ c ∈ queue, r.records c ∨ R.Says c := by
  induction rest generalizing queue r with
  | zero =>
    cases queue with
    | nil => exact ⟨hentries, fun _ hmem => absurd hmem List.not_mem_nil⟩
    | cons c queue => simp [run, stop] at hdiagnostics
  | succ rest ih =>
    cases queue with
    | nil => exact ⟨hentries, fun _ hmem => absurd hmem List.not_mem_nil⟩
    | cons c queue =>
      obtain ⟨hc, hrest⟩ := List.forall_mem_cons.mp hqueue
      obtain ⟨hskips, hlater⟩ := List.forall_mem_append.mp hskipped
      have hstep := step_taken r c
      have hsilent := (precedes_run limit rest _ _).silent hdiagnostics
      have hlearned := hstep.dualFree_learned hr hc
      obtain ⟨hnext, hqueued⟩ := ih (hstep.wellFormed hr hc)
        (List.forall_mem_append.mpr ⟨hrest, fun fact hmem => (hlearned fact hmem).1⟩)
        hdiagnostics hlater hentries
      obtain ⟨hqueue, hfacts⟩ := List.forall_mem_append.mp hqueued
      have htrivial : c.isTrivial → R.Says c := by
        intro ht
        exact hskips c (by simp [skips, ht])
      have hlearned : ∀ fact ∈ (r.step c).2, R.Says fact := by
        intro fact hmem
        rcases hfacts fact hmem with hrecorded | hholds
        · exact hskips fact (mem_skips hmem hrecorded)
        · exact hholds
      obtain ⟨hbefore, htaken⟩ := hstep.sound hr hc hsilent htrivial hnext hlearned
      refine ⟨hbefore, List.forall_mem_cons.mpr ⟨htaken, fun d hd => ?_⟩⟩
      rcases hqueue d hd with hrecorded | hholds
      · rcases hstep.records hrecorded with hearlier | ⟨hnew, hsame⟩
        · exact .inl hearlier
        · exact .inr (R.says_of_sameFact hsame (htaken.resolve_left hnew))
      · exact .inr hholds

end Sound

section Complete

def Apart (c d : Constraint) : Prop :=
  c.relation = .evaluatedFrom → d.relation = .evaluatedFrom → c.var ≠ d.var

/-- A substitution that solves the entries so far and the queue, when nothing was reported and no
two values are left that have to be merged although both evaluate to one variable. -/
structure Solved (s : String → Value) (r : Reduction) (queue : List Constraint) : Prop where
  wellFormed : WellFormed r.entries
  dualFree : ∀ c ∈ queue, c.value.dualFree
  silent : r.diagnostics = []
  entries : ∀ entry ∈ r.entries.values, entry.Holds s
  waiting : ∀ c ∈ queue, c.Holds s
  apart : queue.Pairwise Apart
  unmet : ∀ c ∈ queue, ∀ entry, r.entries.get? c.var = some entry →
    entry.relation = .evaluatedFrom → c.relation ≠ .evaluatedFrom

/-- A variable is evaluated from its value only if a constraint says so. -/
theorem Step.evaluatedFrom (h : Step r c t learned) {name : String} {entry : Entry}
    (hentry : t.entries.get? name = some entry) (hrelation : entry.relation = .evaluatedFrom) :
    (c.var = name ∧ c.relation = .evaluatedFrom) ∨
      ∃ old, r.entries.get? name = some old ∧ old.relation = .evaluatedFrom := by
  by_cases hname : name = c.var
  · subst hname
    cases h with
    | trivial _ => exact .inr ⟨entry, hentry, hrelation⟩
    | repeated _ => exact .inr ⟨entry, hentry, hrelation⟩
    | opened _ =>
      rw [Table.get?_insert_self] at hentry
      exact .inl ⟨rfl, by rw [← hrelation, ← Option.some.inj hentry]; rfl⟩
    | merged _ hold =>
      rw [Table.get?_insert_self] at hentry
      rw [← Option.some.inj hentry] at hrelation
      rcases Convergence.evaluatedFrom_of_meet hrelation with hexisting | hincoming
      · exact .inr ⟨_, hold, hexisting⟩
      · exact .inl ⟨rfl, hincoming⟩
  · rw [h.frame hname] at hentry
    exact .inr ⟨entry, hentry, hrelation⟩

/-- A solution of the entries and a constraint solves the outcome of the step. -/
theorem Step.complete (h : Step r c t learned) (hsolved : Solved s r (c :: queue)) :
    t.diagnostics = [] ∧ (∀ entry ∈ t.entries.values, entry.Holds s) ∧
      ∀ fact ∈ learned, fact.Holds s := by
  obtain ⟨hc, -⟩ := List.forall_mem_cons.mp hsolved.dualFree
  obtain ⟨hholds, -⟩ := List.forall_mem_cons.mp hsolved.waiting
  have hnone : ∀ fact ∈ ([] : List Constraint), fact.Holds s := List.forall_mem_nil _
  cases h with
  | trivial _ => exact ⟨hsolved.silent, hsolved.entries, hnone⟩
  | repeated _ => exact ⟨hsolved.silent, hsolved.entries, hnone⟩
  | opened _ =>
    refine ⟨hsolved.silent, fun entry hmem => ?_, hnone⟩
    rcases Table.mem_values_insert hmem with rfl | hold
    · exact hholds
    · exact hsolved.entries entry hold
  | merged _ hentry =>
    obtain ⟨hvar, hvalue⟩ := hsolved.wellFormed _ _ hentry
    have hstart : Convergence.Holds s { origin := c.origin } := ⟨rfl, hnone⟩
    obtain ⟨hlearned, hmerged⟩ := Entry.merge_holds hvalue hc hvar
      (hsolved.unmet c List.mem_cons_self _ hentry) hstart
      (hsolved.entries _ (Table.mem_values_of_get? hentry)) hholds
    refine ⟨by rw [hsolved.silent, hlearned.1]; rfl, fun entry hmem => ?_, hlearned.2⟩
    rcases Table.mem_values_insert hmem with rfl | hold
    · exact hmerged
    · exact hsolved.entries entry hold

theorem Solved.step (h : Solved s r (c :: queue)) :
    Solved s (r.step c).1 (queue ++ (r.step c).2) := by
  have hstep := step_taken r c
  obtain ⟨hc, hdualFree⟩ := List.forall_mem_cons.mp h.dualFree
  obtain ⟨hapart, hqueue⟩ := List.pairwise_cons.mp h.apart
  have hlearned := hstep.dualFree_learned h.wellFormed hc
  obtain ⟨hsilent, hentries, hfacts⟩ := hstep.complete h
  exact {
    wellFormed := hstep.wellFormed h.wellFormed hc
    dualFree := List.forall_mem_append.mpr ⟨hdualFree, fun fact hmem => (hlearned fact hmem).1⟩
    silent := hsilent
    entries := hentries
    waiting := List.forall_mem_append.mpr ⟨(List.forall_mem_cons.mp h.waiting).2, hfacts⟩
    apart := by
      have hnever : ∀ fact ∈ (r.step c).2, ∀ d, Apart d fact ∧ Apart fact d := fun fact hmem d =>
        ⟨fun _ hf => absurd hf (hlearned fact hmem).2, fun hf => absurd hf (hlearned fact hmem).2⟩
      refine List.pairwise_append.mpr ⟨hqueue, ?_, fun d _ fact hmem => (hnever fact hmem d).1⟩
      exact List.pairwise_iff_forall_sublist.mpr fun {fact other} hsub =>
        (hnever fact (hsub.subset List.mem_cons_self) other).2
    unmet := by
      refine List.forall_mem_append.mpr ⟨fun d hd entry hentry hrelation => ?_,
        fun fact hmem _ _ _ => (hlearned fact hmem).2⟩
      rcases hstep.evaluatedFrom hentry hrelation with ⟨hvar, hevaluated⟩ | ⟨old, hold, hevaluated⟩
      · exact fun hd' => hapart d hd hevaluated hd' hvar
      · exact h.unmet d (List.mem_cons_of_mem c hd) old hold hevaluated }

theorem run_complete (limit rest : Nat) (h : Solved s r queue) :
    (∀ d ∈ (run limit rest queue r).1.diagnostics, d = .reductionLimit limit) ∧
      ∀ entry ∈ (run limit rest queue r).1.entries.values, entry.Holds s := by
  have hsolved := State.keeps (Solved s) (fun _ _ _ => Solved.step) h rest
  rw [run_eq_cut, State.entries_cut]
  refine ⟨fun d hd => ?_, hsolved.entries⟩
  rcases State.mem_diagnostics_cut hd with hearlier | hlimit
  · rw [hsolved.silent] at hearlier
    exact absurd hearlier List.not_mem_nil
  · exact hlimit

theorem skips_hold (h : Solved s r (c :: queue)) : ∀ fact ∈ r.skips c, fact.Holds s := by
  intro fact hmem
  unfold skips at hmem
  split at hmem
  · rw [List.mem_singleton.mp hmem]
    exact h.waiting c List.mem_cons_self
  · exact ((step_taken r c).complete h).2.2 fact (List.mem_filter.mp hmem).1

/-- Nothing is skipped that a solution would not satisfy, so what `run_sound` asks for is no more
than what the constraints say. -/
theorem skipped_hold (h : Solved s r queue) : ∀ fact ∈ skipped rest queue r, fact.Holds s := by
  induction rest generalizing queue r with
  | zero => cases queue <;> exact List.forall_mem_nil _
  | succ rest ih =>
    cases queue with
    | nil => exact List.forall_mem_nil _
    | cons c queue => exact List.forall_mem_append.mpr ⟨skips_hold h, ih h.step⟩

end Complete

end Reduction

section Reduce

open Reduction

variable {s : String → Value} {options : Options} {constraints : List Constraint}

def skippedFacts (options : Options) (constraints : List Constraint) : List Constraint :=
  skipped options.reductionLimit constraints {}

theorem wellFormed_empty : WellFormed ({} : Table Entry) :=
  fun _ _ h => absurd h (by simp [Table.get?])

theorem wellFormed_reduce (options : Options) (hdual : ∀ c ∈ constraints, c.value.dualFree) :
    WellFormed (reduce options constraints).entries := wellFormed_run ⟨wellFormed_empty, hdual⟩

/-- What the entries and the skipped facts say in a reading gives back the constraints. -/
theorem says_of_reduce {R : Reading} (hdual : ∀ c ∈ constraints, c.value.dualFree)
    (hdiagnostics : (reduce options constraints).diagnostics = [])
    (hskipped : ∀ fact ∈ skippedFacts options constraints, R.Says fact)
    (hentries : ∀ name entry,
      (reduce options constraints).entries.get? name = some entry → R.Keeps entry) :
    ∀ c ∈ constraints, R.Says c := by
  intro c hmem
  have hrun := (run_sound wellFormed_empty hdual hdiagnostics hskipped hentries).2 c hmem
  exact hrun.resolve_left (by simp [records, Table.get?])

theorem holds_of_reduce (hdual : ∀ c ∈ constraints, c.value.dualFree)
    (hdiagnostics : (reduce options constraints).diagnostics = [])
    (hskipped : ∀ fact ∈ skippedFacts options constraints, fact.Holds s)
    (hentries : ∀ name entry,
      (reduce options constraints).entries.get? name = some entry → entry.Holds s) :
    ∀ c ∈ constraints, c.Holds s :=
  says_of_reduce (R := .under s) hdual hdiagnostics hskipped hentries

theorem solved_start (hdual : ∀ c ∈ constraints, c.value.dualFree)
    (hapart : constraints.Pairwise Apart) (hholds : ∀ c ∈ constraints, c.Holds s) :
    Solved s {} constraints where
  wellFormed := wellFormed_empty
  dualFree := hdual
  silent := rfl
  entries := List.forall_mem_nil _
  waiting := hholds
  apart := hapart
  unmet := fun _ _ _ h => absurd h (by simp [Table.get?])

/-- Reduction keeps the solutions, except for what it skipped. -/
theorem solutions_iff (hdual : ∀ c ∈ constraints, c.value.dualFree)
    (hapart : constraints.Pairwise Apart)
    (hdiagnostics : (reduce options constraints).diagnostics = []) :
    (∀ c ∈ constraints, c.Holds s) ↔
      (∀ entry ∈ (reduce options constraints).entries.values, entry.Holds s) ∧
        ∀ fact ∈ skippedFacts options constraints, fact.Holds s := by
  constructor
  · intro hholds
    have hsolved := solved_start hdual hapart hholds
    exact ⟨(run_complete _ _ hsolved).2, skipped_hold hsolved⟩
  · rintro ⟨hentries, hskipped⟩
    exact holds_of_reduce hdual hdiagnostics hskipped fun _ entry h =>
      hentries entry (Table.mem_values_of_get? h)

/-- A reduction that reports nothing forgets nothing but what it skipped. -/
theorem reduced_entries_entail_inputs (options : Options) (constraints : List Constraint)
    (s : String → Value) (hdual : ∀ c ∈ constraints, c.value.dualFree)
    (hdiagnostics : (reduce options constraints).diagnostics = [])
    (hskipped : ∀ fact ∈ skippedFacts options constraints, fact.Holds s)
    (hentries : ∀ entry ∈ (reduce options constraints).entries.values, entry.Holds s) :
    ∀ c ∈ constraints, c.Holds s := by
  apply holds_of_reduce hdual hdiagnostics hskipped
  intro name entry hentry
  exact hentries entry (Table.mem_values_of_get? hentry)

def Value.ofBool (b : Bool) : Value := .term (.literal (.boolean b))

def Constraint.learned (relation : Relation) (var : String) (value : Value) : Constraint :=
  ⟨relation, var, value, "", .convergence⟩

def implicitCall : List Constraint :=
  [.learned .evaluatedFrom "g" (.var "f"),
    .learned .evaluatesTo "f" (.term (.function .explicit (.var "a") (.var "b"))),
    .learned .equals "f" (.term (.function .implicit (.ofBool true)
      (.term (.function .explicit (.ofBool true) (.ofBool false))))),
    .learned .equals "a" (.ofBool true), .learned .evaluatesTo "b" (.var "b"),
    .learned .evaluatesTo "h" (.var "g")]

def implicitCallTypes : String → Value
  | "f" => .term (.function .implicit (.ofBool true)
      (.term (.function .explicit (.ofBool true) (.ofBool false))))
  | "g" | "h" => .term (.function .explicit (.ofBool true) (.ofBool false))
  | "a" => .ofBool true
  | name => if name = "b" then .ofBool false else .var name

theorem reduced_entries_entail_implicitCall :
    (∀ fact ∈ skippedFacts {} implicitCall, fact.Holds implicitCallTypes) ∧
      ∀ c ∈ implicitCall, c.Holds implicitCallTypes := by
  have hskipped : ∀ fact ∈ skippedFacts {} implicitCall, fact.Holds implicitCallTypes := by decide
  exact ⟨hskipped, reduced_entries_entail_inputs {} implicitCall implicitCallTypes (by decide)
    (by decide) hskipped (by decide)⟩

def Forgets (constraints : List Constraint) (s : String → Value) : Prop :=
  (∀ c ∈ constraints, c.value.dualFree) ∧ (reduce {} constraints).diagnostics = [] ∧
    (∀ entry ∈ (reduce {} constraints).entries.values, entry.Holds s) ∧
    ¬ ∀ c ∈ constraints, c.Holds s

instance (constraints : List Constraint) (s : String → Value) :
    Decidable (Forgets constraints s) := inferInstanceAs (Decidable (_ ∧ _))

/-- The entries alone do not give back the constraints. A variable that evaluates to itself leaves
no entry. Two variables that are each other pass a constraint on until it comes up again, and
neither keeps it. -/
theorem entries_alone_forget_inputs :
    Forgets [.learned .evaluatesTo "x" (.var "x")]
        (fun _ => .term (.function .implicit (.ofBool true) (.ofBool true))) ∧
      Forgets [.learned .equals "x" (.var "y"), .learned .equals "y" (.var "x"),
          .learned .evaluatesTo "x" (.var "z")]
        (fun _ => .term (.function .implicit (.ofBool true) (.ofBool true))) := by
  constructor
  · decide
  · decide

/-- Constraints that have a solution are not reported, and it solves the entries as well. -/
theorem solutions_survive_reduction (options : Options) (constraints : List Constraint)
    (s : String → Value) (hdual : ∀ c ∈ constraints, c.value.dualFree)
    (hapart : constraints.Pairwise fun c d =>
      c.relation = .evaluatedFrom → d.relation = .evaluatedFrom → c.var ≠ d.var)
    (hholds : ∀ c ∈ constraints, c.Holds s) :
    (∀ d ∈ (reduce options constraints).diagnostics, d = .reductionLimit options.reductionLimit) ∧
      ∀ entry ∈ (reduce options constraints).entries.values, entry.Holds s := by
  have hsolved := solved_start hdual hapart hholds
  exact run_complete options.reductionLimit options.reductionLimit hsolved

theorem implicitCallTypes_survive_reduction :
    (∀ c ∈ implicitCall, c.Holds implicitCallTypes) ∧
      (∀ d ∈ (reduce {} implicitCall).diagnostics, d = .reductionLimit 100000) ∧
      ∀ entry ∈ (reduce {} implicitCall).entries.values, entry.Holds implicitCallTypes := by
  have hholds : ∀ c ∈ implicitCall, c.Holds implicitCallTypes := by decide
  exact ⟨hholds, solutions_survive_reduction {} implicitCall implicitCallTypes (by decide)
    (by decide) hholds⟩

end Reduce

end ImplicitInference
