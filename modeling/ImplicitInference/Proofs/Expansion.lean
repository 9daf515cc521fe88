import ImplicitInference.Simplification
import ImplicitInference.Proofs.Substitution
import ImplicitInference.Proofs.Traversal
import Mathlib.Data.List.Perm.Subperm
import Mathlib.Logic.Relation

/-!
What simplification computes. `expand` replaces variables all the way down and remembers nothing; it
leaves a variable that is being expanded. Simplification gives the same values although it remembers
some of them: it remembers an expansion only if nothing was left in it, and then no cycle can be
reached from its variable, so the expansion is the same wherever the variable turns up.
-/

namespace ImplicitInference

def Entry.settle (e : Entry) (v : Value) : Value :=
  if e.relation = .evaluatedFrom then v.stripImplicits else v

section Graph

variable (entries : Table Entry)

def Refers (name other : String) : Prop :=
  (∃ entry, entries.get? name = some entry ∧ other ∈ entry.value.freeVariables) ∧
    other ∈ entries.keys

abbrev LeadsTo : String → String → Prop := Relation.TransGen (Refers entries)

abbrev Reaches : String → String → Prop := Relation.ReflTransGen (Refers entries)

def Acyclic : Prop := ∀ name, ¬ LeadsTo entries name name

def Whole (name : String) : Prop :=
  ∀ other, Reaches entries name other → ¬ LeadsTo entries other other

/-- The variable can be expanded inside the expansions of `outer` without leaving any in it. -/
def Clear (outer : List String) (name : String) : Prop :=
  Whole entries name ∧ ∀ other ∈ outer, ¬ Reaches entries name other

variable {entries} {name other : String} {outer : List String} {entry : Entry}

theorem refers_of_mem (hentry : entries.get? name = some entry)
    (hother : other ∈ entry.value.occurrences) (hkey : other ∈ entries.keys) :
    Refers entries name other :=
  ⟨⟨entry, hentry, Value.mem_freeVariables.mpr hother⟩, hkey⟩

theorem mem_occurrences_of_refers (hentry : entries.get? name = some entry)
    (h : Refers entries name other) : other ∈ entry.value.occurrences := by
  obtain ⟨⟨found, hfound, hother⟩, -⟩ := h
  rw [hentry] at hfound
  rw [Option.some.inj hfound]
  exact Value.mem_freeVariables.mp hother

theorem not_refers (hname : name ∉ entries.keys) : ¬ Refers entries name other := by
  rintro ⟨⟨entry, hentry, -⟩, -⟩
  exact hname (Table.mem_keys_of_get? hentry)

def height (entries : Table Entry) : Nat → String → Nat
  | 0, _ => 0
  | n + 1, name =>
    match entries.get? name with
    | none => 0
    | some entry => 1 + (entry.value.freeVariables.map (height entries n)).foldr max 0

def Descends (entries : Table Entry) (n : Nat) : Prop :=
  ∀ row ∈ entries.toList, ∀ other ∈ row.2.value.freeVariables, other ∈ entries.keys →
    height entries n other < height entries n row.1

instance (n : Nat) : Decidable (Descends entries n) :=
  inferInstanceAs (Decidable (∀ row ∈ entries.toList, _))

theorem Descends.acyclic {n : Nat} (h : Descends entries n) : Acyclic entries := by
  have hstep : ∀ name other, Refers entries name other →
      height entries n other < height entries n name := by
    rintro name other ⟨⟨entry, hentry, hother⟩, hkey⟩
    exact h (name, entry) (Table.mem_toList_of_get? hentry) other hother hkey
  have hpath : ∀ name other, LeadsTo entries name other →
      height entries n other < height entries n name := by
    intro name other hleads
    induction hleads with
    | single hrefers => exact hstep _ _ hrefers
    | tail _ hrefers ih => exact Nat.lt_trans (hstep _ _ hrefers) ih
  exact fun name hcycle => Nat.lt_irrefl _ (hpath name name hcycle)

theorem clear_of_not_mem_keys (hname : name ∉ entries.keys)
    (houter : ∀ z ∈ outer, z ∈ entries.keys) : Clear entries outer name := by
  have hreach : ∀ z, Reaches entries name z → z = name := by
    intro z hz
    rcases hz.cases_head with rfl | ⟨y, hy, -⟩
    · rfl
    · exact absurd hy (not_refers hname)
  constructor
  · intro z hz hcycle
    rw [hreach z hz] at hcycle
    obtain ⟨y, hy, -⟩ := Relation.TransGen.head'_iff.mp hcycle
    exact not_refers hname hy
  · intro z hz hpath
    exact hname (hreach z hpath ▸ houter z hz)

/-- A variable that leads to a variable being expanded would close a cycle. -/
theorem Whole.clear (h : Whole entries name) (houter : ∀ z ∈ outer, z ∈ entries.keys)
    (hchain : name ∈ entries.keys → ∀ z ∈ outer, LeadsTo entries z name) :
    Clear entries outer name := by
  by_cases hname : name ∈ entries.keys
  · exact ⟨h, fun z hz hpath => h z hpath ((hchain hname z hz).trans_left hpath)⟩
  · exact clear_of_not_mem_keys hname houter

theorem clear_of_occurrences (hentry : entries.get? name = some entry) (hname : name ∉ outer)
    (h : ∀ y ∈ entry.value.occurrences, Clear entries (name :: outer) y) :
    Clear entries outer name := by
  constructor
  · intro z hz hcycle
    rcases hz.cases_head with rfl | ⟨y, hy, hyz⟩
    · obtain ⟨y, hy, hpath⟩ := Relation.TransGen.head'_iff.mp hcycle
      exact (h y (mem_occurrences_of_refers hentry hy)).2 _ List.mem_cons_self hpath
    · exact (h y (mem_occurrences_of_refers hentry hy)).1 z hyz hcycle
  · intro z hz hpath
    rcases hpath.cases_head with rfl | ⟨y, hy, hyz⟩
    · exact hname hz
    · exact (h y (mem_occurrences_of_refers hentry hy)).2 z (List.mem_cons_of_mem _ hz) hyz

end Graph

section Expand

theorem length_filter_cons_lt {keys outer : List String} {name : String} (hkey : name ∈ keys)
    (hname : name ∉ outer) :
    (keys.filter fun key => key ∉ name :: outer).length <
      (keys.filter fun key => key ∉ outer).length := by
  have hsplit : (keys.filter fun key => key ∉ name :: outer) =
      (keys.filter fun key => key ∉ outer).filter fun key => key ≠ name := by
    rw [List.filter_filter]
    exact List.filter_congr fun key _ => by simp [not_or]
  rw [hsplit, List.length_filter_lt_length_iff_exists]
  exact ⟨name, List.mem_filter.mpr ⟨hkey, by simpa using hname⟩, by simp⟩

/-- Replaces a variable by the value of its entry, all the way down, except for the variables of
`outer`, inside whose expansions it stands. -/
def expand (entries : Table Entry) (outer : List String) (name : String) : Value :=
  match _h : entries.get? name with
  | none => .var name
  | some entry =>
    if name ∈ outer then .var name
    else entry.settle (entry.value.subst fun other => expand entries (name :: outer) other)
termination_by (entries.keys.filter fun key => key ∉ outer).length
decreasing_by exact length_filter_cons_lt (Table.mem_keys_of_get? _h) ‹_›

variable {entries : Table Entry} {name : String} {outer others : List String} {entry : Entry}

theorem expand_of_none (h : entries.get? name = none) : expand entries outer name = .var name := by
  rw [expand]
  split
  · rfl
  · rename_i hsome
    rw [h] at hsome
    cases hsome

theorem expand_of_mem (h : name ∈ outer) : expand entries outer name = .var name := by
  rw [expand]
  split
  · rfl
  · exact if_pos h

theorem expand_of_not_mem (hentry : entries.get? name = some entry) (h : name ∉ outer) :
    expand entries outer name =
      entry.settle (entry.value.subst (expand entries (name :: outer))) := by
  rw [expand]
  split
  · rename_i hnone
    rw [hentry] at hnone
    cases hnone
  · rename_i found hfound
    rw [hentry] at hfound
    rw [if_neg h, Option.some.inj hfound]

/-- Only the variables that can be reached matter to what is left. -/
theorem expand_congr (h : ∀ z, Reaches entries name z → (z ∈ outer ↔ z ∈ others)) :
    expand entries outer name = expand entries others name := by
  fun_induction expand entries outer name generalizing others with
  | case1 outer name hnone => exact (expand_of_none hnone).symm
  | case2 outer name entry hentry hmem => exact (expand_of_mem ((h name .refl).mp hmem)).symm
  | case3 outer name entry hentry hmem ih =>
    rw [expand_of_not_mem hentry fun hothers => hmem ((h name .refl).mpr hothers)]
    congr 1
    apply Value.subst_congr
    intro y hy
    by_cases hkey : y ∈ entries.keys
    · apply ih
      intro z hz
      have hreach := h z (.head (refers_of_mem hentry hy hkey) hz)
      simp only [List.mem_cons, hreach]
    · have hnone : entries.get? y = none := Table.get?_eq_none hkey
      rw [expand_of_none hnone, expand_of_none hnone]

theorem expand_eq_of_get? {others : Table Entry} (h : ∀ name, others.get? name = entries.get? name)
    (outer : List String) (name : String) : expand others outer name = expand entries outer name := by
  fun_induction expand entries outer name with
  | case1 outer name hnone => exact expand_of_none ((h name).trans hnone)
  | case2 outer name entry hentry hmem => exact expand_of_mem hmem
  | case3 outer name entry hentry hmem ih =>
    rw [expand_of_not_mem ((h name).trans hentry) hmem]
    congr 1
    exact Value.subst_congr fun y _ => ih y

theorem Clear.expand_eq (h : Clear entries outer name) :
    expand entries outer name = expand entries [] name :=
  expand_congr fun z hz => ⟨fun hmem => absurd hz (h.2 z hmem), fun hmem => nomatch hmem⟩

/-- A variable that does not lead to itself is what its entry makes of the expansions of the
variables in its value. -/
theorem expand_eq_settle (hentry : entries.get? name = some entry)
    (hname : ¬ LeadsTo entries name name) :
    expand entries [] name = entry.settle (entry.value.subst (expand entries [])) := by
  rw [expand_of_not_mem hentry List.not_mem_nil]
  congr 1
  apply Value.subst_congr
  intro y hy
  by_cases hkey : y ∈ entries.keys
  · apply expand_congr
    intro z hz
    have hne : z ≠ name := by
      rintro rfl
      exact hname (.head' (refers_of_mem hentry hy hkey) hz)
    simp [hne]
  · have hnone : entries.get? y = none := Table.get?_eq_none hkey
    rw [expand_of_none hnone, expand_of_none hnone]

end Expand

namespace Simplification

variable {entries : Table Entry}

theorem expandValue_term (f : String → StateM Memo Expansion) (form : Form Value) :
    expandValue f (.term form) = do
      let parts ← form.mapM (expandValue f)
      return ⟨.term (parts.map Expansion.value), parts.children.any Expansion.cut⟩ := by
  rw [expandValue, Value.fold_term, Form.mapM_map]
  rfl

/-- What holds of every variable's expansion holds of a value's. -/
theorem expandValue_spec {f : String → StateM Memo Expansion} {g : String → Value}
    {C : String → Prop} {I : Memo → Prop} {v : Value}
    (hf : ∀ y ∈ v.occurrences, ∀ memo out memo', f y memo = (out, memo') → I memo →
      I memo' ∧ out.value = g y ∧ (out.cut = false → C y))
    {memo memo' : Memo} {out : Expansion} (h : expandValue f v memo = (out, memo'))
    (hmemo : I memo) :
    I memo' ∧ out.value = v.subst g ∧ (out.cut = false → ∀ y ∈ v.occurrences, C y) := by
  induction v using Value.induction generalizing memo memo' out with
  | var name => simpa using hf name (by simp) memo out memo' (by simpa [expandValue] using h) hmemo
  | term form ih =>
    have hyields : (Execution.state Memo).Yields (expandValue f (.term form)) memo out memo' := h
    rw [expandValue_term, Execution.yields_bind] at hyields
    obtain ⟨parts, u, hparts, hout⟩ := hyields
    obtain ⟨rfl, rfl⟩ := (Execution.yields_pure _).mp hout
    obtain ⟨pairs, rfl, rfl, hvisits⟩ := Form.yields_mapM _ hparts
    obtain ⟨hend, hq⟩ : I memo' ∧ ∀ pair ∈ pairs.children, pair.2.value = pair.1.subst g ∧
        (pair.2.cut = false → ∀ y ∈ pair.1.occurrences, C y) := by
      refine hvisits.spec (Q := fun pair _ => _) hmemo fun pair hpair u w hstep hu => ?_
      have hchild : pair.1 ∈ (pairs.map Prod.fst).children := by
        rw [Form.children_map]
        exact List.mem_map_of_mem hpair
      obtain ⟨hw, hq⟩ := ih pair.1 hchild
        (fun y hy => hf y (Value.mem_occurrences_term.mpr ⟨pair.1, hchild, hy⟩)) hstep hu
      exact ⟨hw, hq, fun _ hother => hother⟩
    refine ⟨hend, ?_, fun hcut y hy => ?_⟩
    · rw [Value.subst_term, Form.map_map, Form.map_map]
      exact congrArg Value.term (Form.map_congr fun pair hpair => (hq pair hpair).1)
    · obtain ⟨v, hv, hy⟩ := Value.mem_occurrences_term.mp hy
      rw [Form.children_map] at hv
      obtain ⟨pair, hpair, rfl⟩ := List.mem_map.mp hv
      refine (hq pair hpair).2 ?_ y hy
      rw [Form.children_map, List.any_map, List.any_eq_false] at hcut
      simpa using hcut pair hpair

def Memo.Sound (entries : Table Entry) (memo : Memo) : Prop :=
  ∀ name v, memo.known.get? name = some v → v = expand entries [] name ∧ Whole entries name

theorem Memo.Sound.learn {memo : Memo} {outer : List String} {name : String} {out : Expansion}
    (h : memo.Sound entries) (hvalue : out.value = expand entries outer name)
    (hcut : out.cut = false → Clear entries outer name) : (memo.learn name out).Sound entries := by
  unfold Memo.learn
  split
  · exact h
  · rename_i hwhole
    have hclear := hcut (by simpa using hwhole)
    exact Table.forall_get?_insert h ⟨hvalue.trans hclear.expand_eq, hclear.1⟩

/-- Where a variable is expanded: inside the expansions of variables that have entries and lead to
it, with depth left for all the others. -/
structure Inside (entries : Table Entry) (depth : Nat) (outer : List String) (name : String) :
    Prop where
  keys : ∀ z ∈ outer, z ∈ entries.keys
  nodup : outer.Nodup
  depth : entries.size ≤ outer.length + depth
  chain : name ∈ entries.keys → ∀ z ∈ outer, LeadsTo entries z name

theorem Inside.depth_ne_zero {depth : Nat} {outer : List String} {name : String}
    (h : Inside entries depth outer name) (hname : name ∉ outer) (hkey : name ∈ entries.keys) :
    depth ≠ 0 := by
  have hnodup : (name :: outer).Nodup := List.nodup_cons.mpr ⟨hname, h.nodup⟩
  have hsubset : name :: outer ⊆ entries.keys := List.cons_subset.mpr ⟨hkey, h.keys⟩
  have hlength := (List.subperm_of_subset hnodup hsubset).length_le
  have hsize : entries.keys.length = entries.size := List.length_map _
  have hdepth := h.depth
  rw [List.length_cons] at hlength
  omega

theorem Inside.child {depth : Nat} {outer : List String} {name y : String} {entry : Entry}
    (h : Inside entries (depth + 1) outer name) (hname : name ∉ outer)
    (hentry : entries.get? name = some entry) (hy : y ∈ entry.value.occurrences) :
    Inside entries depth (name :: outer) y where
  keys := List.forall_mem_cons.mpr ⟨Table.mem_keys_of_get? hentry, h.keys⟩
  nodup := List.nodup_cons.mpr ⟨hname, h.nodup⟩
  depth := by
    have hdepth := h.depth
    rw [List.length_cons]
    omega
  chain := by
    intro hkey
    have hrefers := refers_of_mem hentry hy hkey
    exact List.forall_mem_cons.mpr ⟨.single hrefers,
      fun z hz => (h.chain (Table.mem_keys_of_get? hentry) z hz).tail hrefers⟩

inductive Expands (entries : Table Entry) (depth : Nat) (outer : List String) (name : String)
    (memo : Memo) : Expansion → Memo → Prop
  | known {v : Value} (h : memo.known.get? name = some v) :
      Expands entries depth outer name memo ⟨v, false⟩ memo
  | free (h : entries.get? name = none) :
      Expands entries depth outer name memo ⟨.var name, false⟩ memo
  | left (h : name ∈ outer) :
      Expands entries depth outer name memo ⟨.var name, true⟩
        { memo with events := memo.events.push (.selfReference name) }
  | exhausted {entry : Entry} (h : entries.get? name = some entry) (hname : name ∉ outer)
      (hdepth : depth = 0) : Expands entries depth outer name memo ⟨.var name, false⟩ memo
  | entered {entry : Entry} {d : Nat} {inner : Expansion} {memo' : Memo}
      (h : entries.get? name = some entry) (hname : name ∉ outer) (hdepth : depth = d + 1)
      (hinner : expandValue (expandVar entries d (name :: outer)) entry.value memo = (inner, memo')) :
      Expands entries depth outer name memo ⟨entry.settle inner.value, inner.cut⟩
        (memo'.learn name ⟨entry.settle inner.value, inner.cut⟩)

theorem expandVar_expands (entries : Table Entry) (depth : Nat) (outer : List String)
    (name : String) (memo : Memo) :
    Expands entries depth outer name memo (expandVar entries depth outer name memo).1
      (expandVar entries depth outer name memo).2 := by
  unfold expandVar
  split
  · rename_i hknown
    exact .known hknown
  · rename_i hnone
    exact .free hnone
  · rename_i entry _ hentry
    split
    · rename_i hmem
      exact .left (by simpa using hmem)
    · rename_i hmem
      have hname : name ∉ outer := by simpa using hmem
      cases depth with
      | zero => exact .exhausted hentry hname rfl
      | succ d => exact .entered hentry hname rfl rfl

/-- Remembering changes nothing: a variable becomes its expansion. -/
theorem expandVar_spec {depth : Nat} {outer : List String} {name : String} {memo memo' : Memo}
    {out : Expansion} (hinside : Inside entries depth outer name)
    (h : expandVar entries depth outer name memo = (out, memo')) (hmemo : memo.Sound entries) :
    memo'.Sound entries ∧ out.value = expand entries outer name ∧
      (out.cut = false → Clear entries outer name) := by
  -- The memo is shared by the variables of a value, so its soundness goes through the induction.
  induction depth using Nat.strongRecOn generalizing outer name memo memo' out with
  | ind depth ih =>
    have hcases := expandVar_expands entries depth outer name memo
    rw [h] at hcases
    cases hcases with
    | @known v hknown =>
      obtain ⟨hv, hwhole⟩ := hmemo name v hknown
      have hclear := hwhole.clear hinside.keys hinside.chain
      exact ⟨hmemo, hv.trans hclear.expand_eq.symm, fun _ => hclear⟩
    | free hnone =>
      have hkey : name ∉ entries.keys := Table.not_mem_keys hnone
      exact ⟨hmemo, (expand_of_none hnone).symm, fun _ => clear_of_not_mem_keys hkey hinside.keys⟩
    | left hmem => exact ⟨hmemo, (expand_of_mem hmem).symm, fun hcut => nomatch hcut⟩
    | exhausted hentry hname hdepth =>
      exact absurd hdepth (hinside.depth_ne_zero hname (Table.mem_keys_of_get? hentry))
    | entered hentry hname hdepth hinner =>
      subst hdepth
      obtain ⟨hsound, hvalue, hcut⟩ := expandValue_spec
        (fun y hy memo out memo' hstep hmemo =>
          ih _ (Nat.lt_succ_self _) (hinside.child hname hentry hy) hstep hmemo) hinner hmemo
      have hexpand : Entry.settle _ _ = expand entries outer name :=
        (congrArg _ hvalue).trans (expand_of_not_mem hentry hname).symm
      have hclear := fun hwhole => clear_of_occurrences hentry hname (hcut hwhole)
      exact ⟨hsound.learn hexpand hclear, hexpand, hclear⟩

theorem inside_nothing {depth : Nat} (hdepth : entries.size ≤ depth) (name : String) :
    Inside entries depth [] name where
  keys := List.forall_mem_nil _
  nodup := List.nodup_nil
  depth := by simpa using hdepth
  chain := fun _ => List.forall_mem_nil _

def expandKeys (entries : Table Entry) (depth : Nat) : StateM Memo (List (String × Value)) :=
  entries.keys.mapM fun name => do
    let expansion ← expandVar entries depth [] name
    return (name, expansion.value)

theorem expandKeys_eq {depth : Nat} (hdepth : entries.size ≤ depth) :
    (expandKeys entries depth {}).1 =
      entries.keys.map fun name => (name, expand entries [] name) := by
  obtain ⟨pairs, hkeys, hrows, hvisits⟩ := Execution.yields_mapM (Execution.state Memo)
    (s := {}) (t := (expandKeys entries depth {}).2)
    (show expandKeys entries depth {} = ((expandKeys entries depth {}).1, _) from rfl)
  obtain ⟨-, hpairs⟩ : Memo.Sound entries _ ∧
      ∀ pair ∈ pairs, pair.2 = (pair.1, expand entries [] pair.1) := by
    refine hvisits.spec (Q := fun pair _ => _) (fun _ _ h => nomatch h) ?_
    intro pair _ u v hstep hu
    obtain ⟨out, w, hout, hreturn⟩ := (Execution.yields_bind _).mp hstep
    obtain ⟨hpair, rfl⟩ := (Execution.yields_pure _).mp hreturn
    obtain ⟨hv, hvalue, -⟩ := expandVar_spec (inside_nothing hdepth pair.1) hout hu
    exact ⟨hv, by rw [hpair, hvalue], fun _ h => h⟩
  rw [← hrows, ← hkeys, List.map_map]
  exact List.map_congr_left hpairs

theorem simplify_values (entries : Table Entry) : (simplify entries).values =
    ⟨entries.keys.map fun name => (name, expand entries [] name)⟩ :=
  congrArg Table.mk (expandKeys_eq (Nat.le_refl entries.size))

theorem keys_simplify (entries : Table Entry) : (simplify entries).values.keys = entries.keys := by
  rw [simplify_values, Table.keys, List.map_map]
  exact List.map_id _

theorem get?_simplify {entries : Table Entry} {name : String} (h : name ∈ entries.keys) :
    (simplify entries).values.get? name = some (expand entries [] name) := by
  rw [simplify_values]
  exact Table.get?_map_keys _ h

theorem assign_simplify (entries : Table Entry) (name : String) :
    (simplify entries).values.assign name = expand entries [] name := by
  by_cases hkey : name ∈ entries.keys
  · rw [Table.assign, get?_simplify hkey]
    rfl
  · have hvalues : name ∉ (simplify entries).values.keys := by rwa [keys_simplify]
    rw [Table.assign, Table.get?_eq_none hvalues, expand_of_none (Table.get?_eq_none hkey)]
    rfl

theorem get?_simplify_perm {others : Table Entry} (hnodup : entries.keys.Nodup)
    (hperm : others.toList.Perm entries.toList) (name : String) :
    (simplify others).values.get? name = (simplify entries).values.get? name := by
  have hkeys : name ∈ others.keys ↔ name ∈ entries.keys := (hperm.map Prod.fst).mem_iff
  by_cases hkey : name ∈ entries.keys
  · rw [get?_simplify hkey, get?_simplify (hkeys.mpr hkey),
      expand_eq_of_get? fun name => Table.get?_perm hnodup hperm]
  · rw [Table.get?_eq_none (by rwa [keys_simplify, hkeys]),
      Table.get?_eq_none (by rwa [keys_simplify])]

end Simplification

open Simplification

/-- Simplification gives every variable that has an entry its expansion, in the order of the entries.
The bound on its depth never matters, and neither does the order of entries for different variables. -/
theorem simplification_is_expansion (entries : Table Entry) :
    (simplify entries).values.keys = entries.keys ∧
      (∀ name ∈ entries.keys,
        (simplify entries).values.get? name = some (expand entries [] name)) ∧
      (∀ depth, entries.size ≤ depth →
        (expandKeys entries depth {}).1 = (simplify entries).values.toList) ∧
      ∀ others : Table Entry, entries.keys.Nodup → others.toList.Perm entries.toList →
        ∀ name, (simplify others).values.get? name = (simplify entries).values.get? name := by
  refine ⟨keys_simplify entries, fun name => get?_simplify, fun depth hdepth => ?_,
    fun others hnodup hperm name => get?_simplify_perm hnodup hperm name⟩
  rw [simplify_values, expandKeys_eq hdepth]

def tangled : Table Entry :=
  ⟨[("x", ⟨.equals, "x", .record [("a", .var "y"), ("b", .var "w")], []⟩),
    ("y", ⟨.evaluatedFrom, "y", .function .implicit (.var "x") (.record [("c", .var "x")]), []⟩),
    ("z", ⟨.evaluatesTo, "z", .data (.symbol "P") [.var "y", .var "x", .var "w"], []⟩),
    ("w", ⟨.equals, "w", .symbol "W", []⟩)]⟩

theorem tangled_simplification_is_expansion :
    tangled.keys.Nodup ∧
      (simplify tangled).values.get? "z" = some (expand tangled [] "z") ∧
      (expandKeys tangled 100 {}).1 = (simplify tangled).values.toList ∧
      (simplify ⟨tangled.toList.reverse⟩).values.get? "z" = (simplify tangled).values.get? "z" := by
  have hnodup : tangled.keys.Nodup := by decide
  obtain ⟨-, hvalues, hdepth, horder⟩ := simplification_is_expansion tangled
  exact ⟨hnodup, hvalues "z" (by decide), hdepth 100 (by decide),
    horder ⟨tangled.toList.reverse⟩ hnodup (List.reverse_perm _) "z"⟩

end ImplicitInference
