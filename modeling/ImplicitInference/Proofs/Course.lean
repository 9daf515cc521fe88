import ImplicitInference.Reduction
import ImplicitInference.Proofs.Table
import Mathlib.Logic.Function.Iterate

/-!
What a step of a reduction can do, and the course of its steps. A step drops its constraint, opens an
entry with it or merges it into one; what was there before stays and comes first. The course is the
sequence of states that constraints go through if there is no limit, and a limit only cuts it off. So
whatever every step keeps holds of all reductions, and reductions of the same constraints with
different limits are cuts of one course.
-/

namespace ImplicitInference

namespace Reduction

section Step

/-- Whether a constraint that says the same was taken in before. -/
def records (r : Reduction) (c : Constraint) : Bool :=
  match r.entries.get? c.var with
  | none => false
  | some entry => entry.sources.any fun source => source.sameFact c

theorem value_of_isTrivial {c : Constraint} (h : c.isTrivial) : c.value = .var c.var := by
  have hvar : c.value.asVar? = some c.var := beq_iff_eq.mp h
  cases hvalue : c.value with
  | var name =>
    rw [hvalue] at hvar
    rw [Option.some.inj hvar]
  | term form =>
    rw [hvalue] at hvar
    cases hvar

inductive Step (r : Reduction) (c : Constraint) : Reduction → List Constraint → Prop
  | trivial (h : c.isTrivial) : Step r c r []
  | repeated (h : r.records c) : Step r c r []
  | opened (h : r.entries.get? c.var = none) :
      Step r c { r with entries := r.entries.insert c.var (.ofConstraint c) } []
  | merged {entry : Entry} (hnew : ¬ r.records c) (h : r.entries.get? c.var = some entry) :
      Step r c
        { entries := r.entries.insert c.var (entry.merge c { origin := c.origin }).1
          diagnostics := r.diagnostics ++ (entry.merge c { origin := c.origin }).2.diagnostics
          events := r.events.push (.merging c entry) }
        (entry.merge c { origin := c.origin }).2.facts

theorem step_taken (r : Reduction) (c : Constraint) : Step r c (r.step c).1 (r.step c).2 := by
  unfold step
  by_cases ht : c.isTrivial
  · rw [if_pos ht]
    exact .trivial ht
  rw [if_neg ht]
  split
  · rename_i h
    exact .opened h
  · rename_i entry h
    have hrecords : r.records c = entry.sources.any fun source => source.sameFact c := by
      rw [records, h]
    rw [← hrecords]
    split
    · rename_i hrecorded
      exact .repeated hrecorded
    · rename_i hnew
      exact .merged hnew h

variable {r t u : Reduction} {c : Constraint} {learned : List Constraint}

theorem Step.frame (h : Step r c t learned) {name : String} (hname : name ≠ c.var) :
    t.entries.get? name = r.entries.get? name := by
  cases h with
  | trivial _ => rfl
  | repeated _ => rfl
  | opened _ => exact Table.get?_insert_of_ne hname
  | merged _ _ => exact Table.get?_insert_of_ne hname

/-- All that is in one reduction is in another, and comes first there. -/
structure Precedes (r t : Reduction) : Prop where
  keys : r.entries.keys <+: t.entries.keys
  sources : ∀ name entry, r.entries.get? name = some entry →
    ∃ later, t.entries.get? name = some later ∧ entry.sources <+: later.sources
  diagnostics : r.diagnostics <+: t.diagnostics

theorem Precedes.refl (r : Reduction) : Precedes r r where
  keys := List.prefix_rfl
  sources := fun _ entry hentry => ⟨entry, hentry, List.prefix_rfl⟩
  diagnostics := List.prefix_rfl

theorem Precedes.trans (h : Precedes r t) (h' : Precedes t u) : Precedes r u where
  keys := h.keys.trans h'.keys
  sources := by
    intro name entry hentry
    obtain ⟨later, hlater, hprefix⟩ := h.sources name entry hentry
    obtain ⟨last, hlast, hprefix'⟩ := h'.sources name later hlater
    exact ⟨last, hlast, hprefix.trans hprefix'⟩
  diagnostics := h.diagnostics.trans h'.diagnostics

theorem Precedes.silent (h : Precedes r t) (ht : t.diagnostics = []) : r.diagnostics = [] :=
  List.prefix_nil.mp (ht ▸ h.diagnostics)

theorem Step.precedes (h : Step r c t learned) : Precedes r t := by
  cases h with
  | trivial _ => exact .refl r
  | repeated _ => exact .refl r
  | opened hnone =>
    refine ⟨Table.keys_prefix_insert, ?_, List.prefix_rfl⟩
    intro name entry hentry
    have hname : name ≠ c.var := by
      rintro rfl
      rw [hnone] at hentry
      cases hentry
    exact ⟨entry, by rw [Table.get?_insert_of_ne hname, hentry], List.prefix_rfl⟩
  | @merged old _ hold =>
    refine ⟨Table.keys_prefix_insert, ?_, List.prefix_append _ _⟩
    intro name entry hentry
    by_cases hname : name = c.var
    · subst hname
      rw [hold] at hentry
      obtain rfl := Option.some.inj hentry
      exact ⟨_, Table.get?_insert_self, List.prefix_append _ _⟩
    · exact ⟨entry, by rw [Table.get?_insert_of_ne hname, hentry], List.prefix_rfl⟩

end Step

structure State where
  reduced : Reduction
  waiting : List Constraint

namespace State

def next (s : State) : State :=
  match s.waiting with
  | [] => s
  | c :: queue => ⟨(s.reduced.step c).1, queue ++ (s.reduced.step c).2⟩

def cut (limit : Nat) (s : State) : Reduction :=
  match s.waiting with
  | [] => s.reduced
  | c :: queue => s.reduced.stop limit (c :: queue).length

variable {s : State} {limit : Nat}

theorem next_of_ended (h : s.waiting = []) : s.next = s := by
  rw [next, h]

theorem cut_of_ended (h : s.waiting = []) : s.cut limit = s.reduced := by
  rw [cut, h]

theorem cut_of_waiting (h : s.waiting ≠ []) :
    s.cut limit = s.reduced.stop limit s.waiting.length := by
  unfold cut
  split
  · rename_i hnone
    exact absurd hnone h
  · rename_i hsome
    rw [hsome]

@[simp] theorem entries_cut (limit : Nat) (s : State) : (s.cut limit).entries = s.reduced.entries := by
  unfold cut
  split <;> rfl

theorem mem_diagnostics_cut {d : Diagnostic} (h : d ∈ (s.cut limit).diagnostics) :
    d ∈ s.reduced.diagnostics ∨ d = .reductionLimit limit := by
  unfold cut at h
  split at h
  · exact .inl h
  · rcases List.mem_append.mp h with hearlier | hlast
    · exact .inl hearlier
    · exact .inr (List.mem_singleton.mp hlast)

/-- What holds of a state and is kept by every step holds of all later states. -/
theorem keeps (I : Reduction → List Constraint → Prop)
    (hstep : ∀ r c queue, I r (c :: queue) → I (r.step c).1 (queue ++ (r.step c).2))
    {r : Reduction} {queue : List Constraint} (h : I r queue) (n : Nat) :
    I (next^[n] ⟨r, queue⟩).reduced (next^[n] ⟨r, queue⟩).waiting := by
  apply Function.Iterate.rec (fun s : State => I s.reduced s.waiting) h
  intro s hs
  cases hwaiting : s.waiting with
  | nil => rwa [next_of_ended hwaiting]
  | cons c queue =>
    rw [hwaiting] at hs
    rw [next, hwaiting]
    exact hstep s.reduced c queue hs

end State

variable {r : Reduction} {limit rest : Nat} {queue : List Constraint}

/-- A run with a number of steps is the course up to that number, cut off there. -/
theorem run_eq_cut : (run limit rest queue r).1 = (State.next^[rest] ⟨r, queue⟩).cut limit := by
  induction rest generalizing queue r with
  | zero => cases queue <;> rfl
  | succ rest ih =>
    cases queue with
    | nil =>
      rw [Function.iterate_fixed (State.next_of_ended rfl)]
      rfl
    | cons c queue => exact ih

theorem entries_run :
    (run limit rest queue r).1.entries = (State.next^[rest] ⟨r, queue⟩).reduced.entries := by
  rw [run_eq_cut, State.entries_cut]

theorem precedes_cut (limit : Nat) (s : State) : Precedes s.reduced (s.cut limit) := by
  unfold State.cut
  split
  · exact .refl _
  · exact ⟨List.prefix_rfl, fun _ entry hentry => ⟨entry, hentry, List.prefix_rfl⟩,
      List.prefix_append _ _⟩

theorem precedes_iterate (s : State) (n : Nat) : Precedes s.reduced (State.next^[n] s).reduced :=
  State.keeps (fun t _ => Precedes s.reduced t)
    (fun t c _ h => h.trans (step_taken t c).precedes) (.refl _) n

theorem precedes_run (limit rest : Nat) (queue : List Constraint) (r : Reduction) :
    Precedes r (run limit rest queue r).1 := by
  rw [run_eq_cut]
  exact (precedes_iterate ⟨r, queue⟩ rest).trans (precedes_cut limit _)

/-- A run that reports nothing has taken up all constraints. -/
theorem ended_of_silent (h : (run limit rest queue r).1.diagnostics = []) :
    (State.next^[rest] ⟨r, queue⟩).waiting = [] := by
  rw [run_eq_cut] at h
  by_contra hwaiting
  rw [State.cut_of_waiting hwaiting] at h
  exact List.append_ne_nil_of_right_ne_nil _ (List.cons_ne_nil _ _) h

end Reduction

section Reduce

open Reduction

def course (constraints : List Constraint) (n : Nat) : State := State.next^[n] ⟨{}, constraints⟩

def Diagnostic.isReductionLimit : Diagnostic → Bool
  | reductionLimit _ => true
  | _ => false

def Stops (options : Options) (constraints : List Constraint) : Prop :=
  (reduce options constraints).diagnostics.any Diagnostic.isReductionLimit

instance (options : Options) (constraints : List Constraint) :
    Decidable (Stops options constraints) := inferInstanceAs (Decidable (_ = true))

variable {options : Options} {constraints : List Constraint} {m n : Nat}

theorem entries_reduce : (reduce options constraints).entries =
    (course constraints options.reductionLimit).reduced.entries :=
  entries_run

theorem diagnostics_reduce : (reduce options constraints).diagnostics =
    ((course constraints options.reductionLimit).cut options.reductionLimit).diagnostics := by
  rw [course, ← run_eq_cut]
  rfl

theorem ended_of_not_stops (h : ¬ Stops options constraints) :
    (course constraints options.reductionLimit).waiting = [] := by
  by_contra hwaiting
  apply h
  rw [Stops, diagnostics_reduce, State.cut_of_waiting hwaiting]
  simp [stop, Diagnostic.isReductionLimit]

theorem not_stops_of_silent (h : (reduce options constraints).diagnostics = []) :
    ¬ Stops options constraints := by
  simp [Stops, h]

theorem course_add (m n : Nat) :
    course constraints (m + n) = State.next^[n] (course constraints m) := by
  rw [Nat.add_comm]
  exact Function.iterate_add_apply _ _ _ _

/-- Once no constraint waits, nothing changes any more. -/
theorem course_of_ended (hended : (course constraints m).waiting = []) (h : m ≤ n) :
    course constraints n = course constraints m := by
  obtain ⟨k, rfl⟩ := Nat.exists_eq_add_of_le h
  rw [course_add, Function.iterate_fixed (State.next_of_ended hended)]

end Reduce

end ImplicitInference
