import ImplicitInference.Unification
import ImplicitInference.Proofs.Agreement
import Mathlib.Algebra.GroupWithZero.Nat
import Mathlib.Algebra.Order.BigOperators.Group.List
import Mathlib.Algebra.Order.Group.Nat

/-!
How two layers go together. Either they are literals that agree, or they are the two sides of one
layer of pairs, or they clash; in each case the left layer is kept, and no child of the right one is
the partner of two children. Values are measured by their size, of which a child has less.
-/

namespace ImplicitInference

namespace Form

variable {α β γ : Type}

theorem map_eq_map_iff_zip {f : α → γ} {g : β → γ} {as : List α} {bs : List β} :
    as.map f = bs.map g ↔ as.length = bs.length ∧ ∀ pair ∈ as.zip bs, f pair.1 = g pair.2 := by
  induction as generalizing bs with
  | nil => cases bs <;> simp
  | cons a as ih =>
    cases bs with
    | nil => simp
    | cons b bs => simp [ih, and_left_comm]

theorem zipWith_eq_left {f : α → β → α} {as : List α} {bs : List β} (h : as.length = bs.length)
    (hf : ∀ pair ∈ as.zip bs, f pair.1 pair.2 = pair.1) : List.zipWith f as bs = as := by
  rw [← List.map_uncurry_zip_eq_zipWith]
  nth_rewrite 2 [← List.map_fst_zip (Nat.le_of_eq h)]
  exact List.map_congr_left hf

theorem zipWith_eq_right {f : α → β → β} {as : List α} {bs : List β} (h : as.length = bs.length)
    (hf : ∀ pair ∈ as.zip bs, f pair.1 pair.2 = pair.2) : List.zipWith f as bs = bs := by
  rw [← List.map_uncurry_zip_eq_zipWith]
  nth_rewrite 2 [← List.map_snd_zip (Nat.le_of_eq h.symm)]
  exact List.map_congr_left hf

theorem map_fst_alone (x : Form α) : x.alone.map Prod.fst = x := by
  rw [alone, map_map]
  exact map_id x

/-- Two layers clash: their outer forms differ, so no map makes them equal. A child of the right layer
is still the partner of at most one child of the left. -/
structure Clashes (x y : Form α) : Prop where
  clash : (x.join y).2 ≠ none
  left : (x.join y).1.map Prod.fst = x
  right : ((x.join y).1.children.filterMap Prod.snd).Sublist y.children
  ne : ∀ {γ : Type} (f : α → γ), (x.map f).normal ≠ (y.map f).normal

theorem Clashes.of_alone {x y : Form α} {clash : Clash} (h : x.join y = (x.alone, some clash))
    (hne : ∀ {γ : Type} (f : α → γ), (x.map f).normal ≠ (y.map f).normal) : Clashes x y where
  clash := by simp [h]
  left := by rw [h, map_fst_alone]
  right := by simp [h, alone, List.filterMap_map]
  ne := hne

/-- What joining two layers can come to: equal literals, pairs of all children, or a clash. -/
theorem join_cases (x y : Form α) :
    (∃ a b, x = literal a ∧ y = literal b ∧ a.agrees b ∧ x.join y = (literal a, none)) ∨
    (∃ q : Form (α × α), x = q.map Prod.fst ∧ y = q.map Prod.snd ∧ q.normal = q ∧
      x.join y = (q.map fun pair => (pair.1, some pair.2), none)) ∨
    Clashes x y := by
  cases x with
  | literal a =>
    cases y with
    | literal b =>
      by_cases h : a.agrees b
      · exact .inl ⟨a, b, rfl, rfl, h, by simp [join, h]⟩
      · refine .inr (.inr ⟨?_, rfl, by simp [join, children], fun f => ?_⟩)
        · by_cases hk : a.sameKind b <;> simp [join, h, hk]
        · simpa [map, normal, ← Literal.agrees_iff] using h
    | _ => exact .inr (.inr (.of_alone rfl fun f => by simp [map, normal]))
  | record fs =>
    cases y with
    | record gs =>
      by_cases h : fs.map Prod.fst = gs.map Prod.fst
      · obtain ⟨hlength, hnames⟩ := map_eq_map_iff_zip.mp h
        refine .inr (.inl ⟨record (List.zipWith (fun f g => (f.1, f.2, g.2)) fs gs), ?_, ?_, rfl, ?_⟩)
        · simp only [map, List.map_zipWith]
          rw [zipWith_eq_left hlength fun _ _ => rfl]
        · simp only [map, List.map_zipWith]
          rw [zipWith_eq_right hlength fun pair hpair => by rw [hnames pair hpair]]
        · simp [join, h, map, List.map_zipWith]
      · refine .inr (.inr (.of_alone (by rw [join, if_neg h]) fun f heq => h ?_))
        simp only [map, normal, record.injEq] at heq
        simpa [Function.comp_def] using congrArg (List.map Prod.fst) heq
    | _ => exact .inr (.inr (.of_alone rfl fun f => by simp [map, normal]))
  | function i a b =>
    cases y with
    | function j c d =>
      by_cases h : i = j
      · exact .inr (.inl ⟨function i (a, c) (b, d), rfl, by simp [map, h], rfl, by simp [join, map, h]⟩)
      · refine .inr (.inr (.of_alone (by rw [join, if_neg h]) fun f => ?_))
        simp [map, normal, h]
    | _ => exact .inr (.inr (.of_alone rfl fun f => by simp [map, normal]))
  | application a b =>
    cases y with
    | application c d => exact .inr (.inl ⟨application (a, c) (b, d), rfl, rfl, rfl, rfl⟩)
    | _ => exact .inr (.inr (.of_alone rfl fun f => by simp [map, normal]))
  | data a as =>
    cases y with
    | data b bs =>
      by_cases h : as.length = bs.length
      · refine .inr (.inl ⟨data (a, b) (as.zip bs), ?_, ?_, rfl, ?_⟩)
        · simp [map, List.map_fst_zip (Nat.le_of_eq h)]
        · simp [map, List.map_snd_zip (Nat.le_of_eq h.symm)]
        · simp [join, h, map, ← List.map_uncurry_zip_eq_zipWith, Function.uncurry_def]
      · refine .inr (.inr ⟨by simp [join, h], ?_, by simp [join, h, children], fun f heq => h ?_⟩)
        · simp [join, h, map, Function.comp_def]
        · simp only [map, normal, data.injEq] at heq
          simpa using congrArg List.length heq.2
    | _ => exact .inr (.inr (.of_alone rfl fun f => by simp [map, normal]))
  | dual a b =>
    cases y with
    | dual c d => exact .inr (.inl ⟨dual (a, c) (b, d), rfl, rfl, rfl, rfl⟩)
    | _ => exact .inr (.inr (.of_alone rfl fun f => by simp [map, normal]))
  | read a i =>
    cases y with
    | read b j =>
      by_cases h : i = j
      · exact .inr (.inl ⟨read (a, b) i, rfl, by simp [map, h], rfl, by simp [join, map, h]⟩)
      · refine .inr (.inr ⟨?_, ?_, ?_, fun f => by simp [map, normal, h]⟩)
        · by_cases hk : i.sameKind j <;> simp [join, h, hk]
        · simp [join, h, map_fst_alone]
        · simp [join, h, alone]
    | _ => exact .inr (.inr (.of_alone rfl fun f => by simp [map, normal]))
  | choice a as =>
    cases y with
    | choice b bs =>
      by_cases h : as.length = bs.length
      · refine .inr (.inl ⟨choice (a, b) (List.zipWith (fun x y => ((x.1, y.1), (x.2, y.2))) as bs),
          ?_, ?_, rfl, ?_⟩)
        · simp only [map, List.map_zipWith]
          rw [zipWith_eq_left h fun _ _ => rfl]
        · simp only [map, List.map_zipWith]
          rw [zipWith_eq_right h fun _ _ => rfl]
        · simp [join, h, map, List.map_zipWith]
      · refine .inr (.inr (.of_alone (by rw [join, if_neg h]) fun f heq => h ?_))
        simp only [map, normal, choice.injEq] at heq
        simpa using congrArg List.length heq.2
    | _ => exact .inr (.inr (.of_alone rfl fun f => by simp [map, normal]))

/-- Layers that go together are the two sides of one layer of pairs. -/
theorem join_pairs (q : Form (α × α)) : (q.map Prod.fst).join (q.map Prod.snd) =
    (q.map fun pair => (pair.1, some pair.2), none) := by
  cases q with
  | literal a => simp [map, join, Literal.agrees_iff]
  | record fields => simp [map, join, Function.comp_def, List.zipWith_map]
  | choice subject arms => simp [map, join, List.zipWith_map]
  | _ => simp [map, join, List.zipWith_map]

/-- Joining keeps the left layer. -/
theorem map_fst_join (x y : Form α) : (x.join y).1.map Prod.fst = x := by
  obtain ⟨a, b, rfl, rfl, -, h⟩ | ⟨q, rfl, rfl, -, h⟩ | h := join_cases x y
  · rw [h]; rfl
  · rw [h, map_map]; rfl
  · exact h.left

/-- No child of the right layer is a partner twice. -/
theorem snd_join_sublist (x y : Form α) :
    ((x.join y).1.children.filterMap Prod.snd).Sublist y.children := by
  obtain ⟨a, b, rfl, rfl, -, h⟩ | ⟨q, rfl, rfl, -, h⟩ | h := join_cases x y
  · simp [h, children]
  · have hpartners : (q.children.map fun pair => (pair.1, some pair.2)).filterMap Prod.snd =
        q.children.map Prod.snd := by
      rw [List.filterMap_map]
      exact congrFun List.filterMap_eq_map q.children
    rw [h, children_map, children_map, hpartners]
  · exact h.right

theorem mem_children_of_mem_join {x y : Form α} {a b : α}
    (hmem : (a, some b) ∈ (x.join y).1.children) : a ∈ x.children ∧ b ∈ y.children := by
  constructor
  · have hleft := List.mem_map_of_mem (f := Prod.fst) hmem
    rwa [← children_map, map_fst_join] at hleft
  · exact (snd_join_sublist x y).subset (List.mem_filterMap.mpr ⟨(a, some b), hmem, rfl⟩)

/-- Layers that join without a clash leave no child alone. -/
theorem exists_partner {x y : Form α} (hjoin : (x.join y).2 = none) :
    ∀ pair ∈ (x.join y).1.children, ∃ b, pair.2 = some b := by
  obtain ⟨a, b, rfl, rfl, -, h⟩ | ⟨q, rfl, rfl, -, h⟩ | h := join_cases x y
  · simp [h, children]
  · rw [h, children_map, List.forall_mem_map]
    exact fun pair _ => ⟨pair.2, rfl⟩
  · exact absurd hjoin h.clash

/-- Layers become equal under a map exactly if they join without a clash and the map makes the
members of each pair equal. -/
theorem normal_map_eq_iff_join (f : α → γ) (x y : Form α) :
    (x.map f).normal = (y.map f).normal ↔
      (x.join y).2 = none ∧
        ∀ pair ∈ (x.join y).1.children, ∀ b, pair.2 = some b → f pair.1 = f b := by
  obtain ⟨a, b, rfl, rfl, hab, h⟩ | ⟨q, rfl, rfl, hq, h⟩ | h := join_cases x y
  · simpa [h, map, normal, children] using (Literal.agrees_iff a b).mp hab
  · simp only [← map_normal, hq, map_map, map_eq_map_iff, h, children_map, List.forall_mem_map,
      Option.some.injEq, forall_eq', true_and]
    rfl
  · exact iff_of_false (h.ne f) fun hjoin => h.clash hjoin.1

def partners (pairs : List (α × Option α)) : List (α × α) :=
  pairs.filterMap fun pair => pair.2.map (pair.1, ·)

theorem mem_partners {pairs : List (α × Option α)} {a b : α} :
    (a, b) ∈ partners pairs ↔ (a, some b) ∈ pairs := by
  simp [partners]

theorem mem_children_of_mem_partners {x y : Form α} {pair : α × α}
    (h : pair ∈ partners (x.join y).1.children) : pair.1 ∈ x.children ∧ pair.2 ∈ y.children :=
  mem_children_of_mem_join (mem_partners.mp h)

theorem partners_pairs (q : Form (α × α)) :
    partners (q.map fun pair => (pair.1, some pair.2)).children = q.children := by
  rw [children_map, partners, List.filterMap_map]
  exact List.filterMap_some

theorem sides?_map (f : α → β) (x : Form α) : (x.map f).sides? = x.sides?.map (Prod.map f f) := by
  cases x <;> rfl

theorem eq_dual_of_sides? {form : Form α} {sides : α × α} (h : form.sides? = some sides) :
    form = .dual sides.1 sides.2 := by
  cases form with
  | dual left right =>
    obtain rfl := Option.some.inj h
    rfl
  | _ => cases h

end Form

namespace Value

def dualFree : Value → Bool :=
  fold (fun _ => true) fun form => form.sides?.isNone && form.children.all id

@[simp] theorem dualFree_var (name : String) : (var name).dualFree := by simp [dualFree]

theorem dualFree_term (form : Form Value) :
    (term form).dualFree ↔ form.sides? = none ∧ ∀ v ∈ form.children, v.dualFree := by
  simp [dualFree, Form.sides?_map]

theorem dualFree_stripImplicits {v : Value} (h : v.dualFree) : v.stripImplicits.dualFree := by
  fun_induction stripImplicits v with
  | case1 parameter body ih => exact ih (((dualFree_term _).mp h).2 body (by simp [Form.children]))
  | case2 v _ => exact h

theorem size_pos (v : Value) : 0 < v.size := by
  cases v <;> simp [size]

theorem size_term (form : Form Value) : (term form).size = 1 + (form.children.map size).sum := by
  simp [size, List.sum_eq_foldr]

theorem size_dual (left right : Value) : (dual left right).size = 1 + (left.size + right.size) := by
  rw [size_term]
  simp [Form.children]

theorem size_lt_of_mem_children {form : Form Value} {v : Value} (h : v ∈ form.children) :
    v.size < (term form).size := by
  have hsize := size_term form
  have hle := List.le_sum_of_mem (List.mem_map_of_mem (f := size) h)
  omega

end Value

end ImplicitInference
