import ImplicitInference.Proofs.Naming

/-!
The numbers that a counter gives out. The number in a name depends only on how often its stem was
asked for before, in whatever order other stems were asked for in between, and it comes back to where
it began after 2 ^ 64 times. A number can be read off a name, since no stem goes on from another one
with digits, so the names are distinct.
-/

namespace ImplicitInference

theorem continues_iff {stem longer : String} :
    Continues stem longer ↔ stem.toList.isPrefixOf longer.toList ∧
      (longer.toList.drop stem.toList.length).isEmpty = false ∧
      (longer.toList.drop stem.toList.length).all Char.isDigit := by
  rw [List.isPrefixOf_iff_prefix, List.isEmpty_eq_false_iff, List.all_eq_true]
  constructor
  · rintro ⟨digits, hsome, hdigits, hlonger⟩
    rw [hlonger, List.drop_left]
    exact ⟨List.prefix_append _ _, hsome, hdigits⟩
  · rintro ⟨hstem, hsome, hdigits⟩
    exact ⟨_, hsome, hdigits, (List.prefix_iff_eq_append.mp hstem).symm⟩

instance (stem longer : String) : Decidable (Continues stem longer) :=
  decidable_of_iff _ continues_iff.symm

namespace Counter

/-- The number in the name that a stem gets after some others of its own. -/
def number (c : Counter) (stem : String) (k : Nat) : Nat :=
  if k = 0 then c.count stem else (c.count stem + k) % 2 ^ 64

theorem number_ne {k : Nat} (c : Counter) (stem : String) (hpos : 0 < k) (hround : k < 2 ^ 64) :
    c.number stem 0 ≠ c.number stem k := by
  rw [number, number, if_pos rfl, if_neg hpos.ne']
  omega

theorem number_fresh_self (c : Counter) (stem : String) (k : Nat) :
    (fresh stem c).2.number stem k = c.number stem (k + 1) := by
  rw [number, number, count_fresh, if_neg k.succ_ne_zero]
  by_cases hk : k = 0
  · rw [if_pos hk, hk]
  · rw [if_neg hk]
    omega

theorem number_fresh_of_ne (c : Counter) {stem other : String} (h : other ≠ stem) (k : Nat) :
    (fresh stem c).2.number other k = c.number other k := by
  rw [number, number, count_fresh_of_ne c h]

/-- A new counter numbers from zero. -/
theorem number_empty (stem : String) {k : Nat} (hround : k < 2 ^ 64) :
    ({} : Counter).number stem k = k := by
  rw [number, show ({} : Counter).count stem = 0 from rfl]
  by_cases hk : k = 0
  · rw [if_pos hk, hk]
  · rw [if_neg hk, Nat.zero_add, Nat.mod_eq_of_lt hround]

/-- The count of a stem goes on by one for each time that it is asked for. -/
theorem count_draw (stems : List String) (c : Counter) (stem : String) :
    (draw stems c).2.count stem = c.number stem (stems.count stem) := by
  induction stems generalizing c with
  | nil => rfl
  | cons first stems ih =>
    by_cases hfirst : stem = first
    · subst hfirst
      rw [List.count_cons_self, ← number_fresh_self]
      exact ih _
    · rw [List.count_cons_of_ne (Ne.symm hfirst), ← number_fresh_of_ne c hfirst]
      exact ih _

/-- What a stem gets depends on how often it was asked for before. -/
theorem getElem?_draw (before after : List String) (stem : String) (c : Counter) :
    (draw (before ++ stem :: after) c).1[before.length]? =
      some (stem ++ toString (c.number stem (before.count stem))) := by
  rw [draw_append, List.getElem?_append_right (length_draw before c).le, length_draw, Nat.sub_self,
    ← count_draw]
  rfl

variable {stems : List String}

theorem exists_number {c : Counter} {name : String} (h : name ∈ (draw stems c).1) :
    ∃ before stem after, stems = before ++ stem :: after ∧
      name = stem ++ toString (c.number stem (before.count stem)) := by
  obtain ⟨i, hname⟩ := List.mem_iff_getElem?.mp h
  have hi : i < stems.length := by
    rw [← length_draw stems c]
    exact (List.getElem?_eq_some_iff.mp hname).1
  have hsplit : stems = stems.take i ++ stems[i] :: stems.drop (i + 1) := by
    rw [List.getElem_cons_drop, List.take_append_drop]
  have hhere := getElem?_draw (stems.take i) (stems.drop (i + 1)) stems[i] c
  rw [← hsplit, List.length_take_of_le hi.le, hname] at hhere
  exact ⟨_, _, _, hsplit, Option.some.inj hhere⟩

/-- A counter answers with distinct names if no stem goes on from another one with digits and none
is asked for so often that its numbers come round. -/
theorem nodup_draw (c : Counter) (hstems : ∀ stem ∈ stems, ∀ other ∈ stems, ¬ Continues stem other)
    (hroom : ∀ stem, stems.count stem ≤ 2 ^ 64) : (draw stems c).1.Nodup := by
  induction stems generalizing c with
  | nil => exact List.nodup_nil
  | cons first stems ih =>
    have hlater : ∀ stem ∈ stems, ∀ other ∈ stems, ¬ Continues stem other := by
      intro stem hstem other hother
      exact hstems stem (List.mem_cons_of_mem _ hstem) other (List.mem_cons_of_mem _ hother)
    have hrest : ∀ stem, stems.count stem ≤ 2 ^ 64 := fun stem =>
      (List.count_le_count_cons).trans (hroom stem)
    refine List.nodup_cons.mpr ⟨fun hmem => ?_, ih _ hlater hrest⟩
    obtain ⟨before, stem, after, rfl, hname⟩ := exists_number hmem
    have hstem : stem ∈ first :: (before ++ stem :: after) := by simp
    obtain ⟨rfl, hnumber⟩ := append_numeral_inj (hstems first List.mem_cons_self stem hstem)
      (hstems stem hstem first List.mem_cons_self) hname
    have hcount := hroom first
    rw [List.count_cons_self, List.count_append, List.count_cons_self] at hcount
    rw [show c.count first = c.number first 0 from rfl] at hnumber
    refine number_ne c first (before.count first).succ_pos (by omega) ?_
    rw [hnumber]
    exact number_fresh_self c first _

end Counter

/-- A new counter never gives out a name twice, unless a stem that it is asked for is another one of
them followed by digits or a stem is asked for 2 ^ 64 times. There is a name for each stem, which is the
stem followed by how often it was asked for before, and the count of a stem is how often it was asked
for. -/
theorem counted_names_never_repeat (stems : List String)
    (hstems : ∀ stem ∈ stems, ∀ other ∈ stems, ¬ Continues stem other)
    (hroom : ∀ stem, stems.count stem < 2 ^ 64) :
    (draw stems ({} : Counter)).1.Nodup ∧
      (draw stems ({} : Counter)).1.length = stems.length ∧
      (∀ before stem after, stems = before ++ stem :: after →
        (draw stems ({} : Counter)).1[before.length]? =
          some (stem ++ toString (before.count stem))) ∧
      ∀ stem, (draw stems ({} : Counter)).2.count stem = stems.count stem := by
  refine ⟨Counter.nodup_draw {} hstems fun stem => (hroom stem).le, length_draw stems _, ?_, ?_⟩
  · rintro before stem after rfl
    have hbefore : before.count stem < 2 ^ 64 := by
      refine lt_of_le_of_lt ?_ (hroom stem)
      rw [List.count_append]
      exact Nat.le_add_right _ _
    rw [Counter.getElem?_draw, Counter.number_empty stem hbefore]
  · intro stem
    rw [Counter.count_draw, Counter.number_empty stem (hroom stem)]

def stemsByTurns : List String := ["t", "t$", "t", "t1$", "t$", "t"]

theorem stemsByTurns_names_never_repeat :
    (∀ stem ∈ stemsByTurns, ∀ other ∈ stemsByTurns, ¬ Continues stem other) ∧
      (∀ stem, stemsByTurns.count stem < 2 ^ 64) ∧
      (draw stemsByTurns ({} : Counter)).1 = ["t0", "t$0", "t1", "t1$0", "t$1", "t2"] ∧
      (draw stemsByTurns ({} : Counter)).1.Nodup ∧
      (draw stemsByTurns ({} : Counter)).2.count "t" = 3 := by
  have hstems : ∀ stem ∈ stemsByTurns, ∀ other ∈ stemsByTurns, ¬ Continues stem other := by
    decide +kernel
  have hroom : ∀ stem, stemsByTurns.count stem < 2 ^ 64 := by
    intro stem
    refine lt_of_le_of_lt List.count_le_length ?_
    decide
  obtain ⟨hnodup, -, -, hcount⟩ := counted_names_never_repeat stemsByTurns hstems hroom
  exact ⟨hstems, hroom, by decide +kernel, hnodup, hcount "t"⟩

/-- A stem that goes on from another one with a digit gets a name that the other one has had. -/
example : (draw (List.replicate 11 "t" ++ ["t1"]) ({} : Counter)).1.count "t10" = 2 := by
  decide +kernel

end ImplicitInference
