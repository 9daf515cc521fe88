import ImplicitInference.Proofs.Shaping
import ImplicitInference.Proofs.Table
import Mathlib

/-!
The names of nodes. A counter numbers the names of each stem, and no stem of a node goes on from
another with digits, so the number of a node can be read off its name. While a tree is shaped the
counts of these stems only grow, and a node has a number between the counts before and after it:
the nodes of a tree that is not too large have different names. What layers make up for themselves
starts with other letters, so only an identifier of that name could be typed by its own variable.
Every constraint is about the name of a node, and the last one is the only one about the root.
-/

namespace ImplicitInference

section Numerals

def Continues (stem longer : String) : Prop :=
  ∃ digits : List Char, digits ≠ [] ∧ (∀ c ∈ digits, c.isDigit) ∧
    longer.toList = stem.toList ++ digits

theorem toList_numeral (n : Nat) : (toString n).toList = Nat.toDigits 10 n := Nat.toList_repr

variable {stem stem' : String} {i j : Nat}

theorem eq_of_numeral (hstem : ¬ Continues stem stem') {digits : List Char}
    (hlonger : stem'.toList = stem.toList ++ digits)
    (hnumeral : (toString i).toList = digits ++ (toString j).toList) : stem = stem' ∧ i = j := by
  have hdigits : ∀ c ∈ digits, c.isDigit := by
    intro c hc
    have hmem : c ∈ Nat.toDigits 10 i := by
      rw [← toList_numeral, hnumeral]
      exact List.mem_append_left _ hc
    exact Nat.isDigit_of_mem_toDigits (by omega) (by omega) hmem
  have hnone : digits = [] := by
    by_contra hsome
    exact hstem ⟨digits, hsome, hdigits, hlonger⟩
  rw [hnone, List.append_nil] at hlonger
  rw [hnone, List.nil_append] at hnumeral
  exact ⟨(String.toList_inj.mp hlonger).symm, Nat.repr_inj.mp (String.toList_inj.mp hnumeral)⟩

/-- A number can be read off the end of a text if the stem in front of it is known up to stems that
do not go on with digits. -/
theorem append_numeral_inj (hstem : ¬ Continues stem stem') (hstem' : ¬ Continues stem' stem)
    (h : stem ++ toString i = stem' ++ toString j) : stem = stem' ∧ i = j := by
  have hlists := congrArg String.toList h
  rw [String.toList_append, String.toList_append] at hlists
  rcases List.append_eq_append_iff.mp hlists with ⟨digits, hlonger, hnumeral⟩ |
    ⟨digits, hlonger, hnumeral⟩
  · exact eq_of_numeral hstem hlonger hnumeral
  · obtain ⟨hsame, hnumber⟩ := eq_of_numeral hstem' hlonger hnumeral
    exact ⟨hsame.symm, hnumber.symm⟩

end Numerals

section Stems

/-- A text that does not end with a digit is not another one followed by digits. -/
theorem not_continues_of_dollar {stem longer : String} (h : longer.toList.getLast? = some '$') :
    ¬ Continues stem longer := by
  rintro ⟨digits, hsome, hdigits, hlonger⟩
  have hlast := congrArg List.getLast? hlonger
  rw [h, List.getLast?_append, List.getLast?_eq_getLast_of_ne_nil hsome] at hlast
  have hdollar : digits.getLast hsome = '$' := by simpa using hlast.symm
  have hdigit := hdigits _ (List.getLast_mem hsome)
  rw [hdollar] at hdigit
  cases hdigit

theorem not_continues_stem (stem : String) (kind : Kind) : ¬ Continues stem (Shaped.stem kind) := by
  apply not_continues_of_dollar
  rw [Shaped.stem, String.toList_append, List.getLast?_append]
  simp

theorem not_continues_of_mem (stem : String) {longer : String} (h : longer ∈ Shaped.stems) :
    ¬ Continues stem longer := by
  apply not_continues_of_dollar
  simp only [Shaped.stems, List.mem_cons, List.not_mem_nil, or_false] at h
  rcases h with rfl | rfl | rfl | rfl | rfl | rfl | rfl | rfl | rfl <;> rfl

/-- What layers make up starts with other letters than the names of nodes. -/
theorem letters_ne {stem : String} (hstem : stem ∈ Shaped.stems) (kind : Kind) (rest rest' : String) :
    stem ++ rest ≠ Shaped.stem kind ++ rest' := by
  intro h
  have hletters := congrArg (fun name => name.toList.take 2) h
  simp only [Shaped.stem, String.toList_append] at hletters
  simp only [Shaped.stems, List.mem_cons, List.not_mem_nil, or_false] at hstem
  rcases hstem with rfl | rfl | rfl | rfl | rfl | rfl | rfl | rfl | rfl <;> simp at hletters

theorem stem_ne {stem : String} (hstem : stem ∈ Shaped.stems) (kind : Kind) :
    stem ≠ Shaped.stem kind := by
  intro h
  exact letters_ne hstem kind "" "" (by rw [h])

/-- No node has a name that was made up for a layer. -/
theorem Attached.name_ne {n : Node Shaped} (h : Attached Counter n) {name : String}
    (hmade : MadeUp Counter name) : name ≠ n.decoration.name := by
  obtain ⟨d, t, asked, hattaches⟩ := h
  obtain ⟨stem, hstem, names, rfl⟩ := hmade
  rw [hattaches.name]
  exact letters_ne hstem n.kind _ _

end Stems

section Counts

namespace Counter

variable {c c' c'' : Counter} {names more : List String}

theorem count_fresh (stem : String) (c : Counter) :
    (fresh stem c).2.count stem = (c.count stem + 1) % 2 ^ 64 := by
  rw [count, fresh, Table.get?_insert_self, Option.getD_some]
  rfl

theorem count_fresh_self (stem : String) (c : Counter) (h : c.count stem + 1 < 2 ^ 64) :
    (fresh stem c).2.count stem = c.count stem + 1 := by
  rw [count_fresh, Nat.mod_eq_of_lt h]

theorem count_fresh_of_ne {stem other : String} (c : Counter) (h : other ≠ stem) :
    (fresh stem c).2.count other = c.count other := by
  rw [count, fresh, Table.get?_insert_of_ne h]
  rfl

/-- Different names of nodes, with numbers from the counts of one counter up to those of another. -/
structure Numbers (c c' : Counter) (names : List String) : Prop where
  nodup : names.Nodup
  counts : ∀ kind, c.count (Shaped.stem kind) ≤ c'.count (Shaped.stem kind) ∧
    c'.count (Shaped.stem kind) ≤ c.count (Shaped.stem kind) + names.length
  number : ∀ name ∈ names, ∃ kind i, name = Shaped.stem kind ++ toString i ∧
    c.count (Shaped.stem kind) ≤ i ∧ i < c'.count (Shaped.stem kind)

theorem Numbers.nil (h : ∀ kind, c'.count (Shaped.stem kind) = c.count (Shaped.stem kind)) :
    Numbers c c' [] where
  nodup := List.nodup_nil
  counts kind := by rw [h kind]; simp
  number := List.forall_mem_nil _

theorem Numbers.append (h : Numbers c c' names) (h' : Numbers c' c'' more) :
    Numbers c c'' (names ++ more) where
  nodup := by
    refine List.nodup_append.mpr ⟨h.nodup, h'.nodup, fun name hname other hother heq => ?_⟩
    obtain ⟨kind, i, rfl, -, hbelow⟩ := h.number name hname
    obtain ⟨kind', j, rfl, habove, -⟩ := h'.number other hother
    obtain ⟨hstem, rfl⟩ :=
      append_numeral_inj (not_continues_stem _ kind') (not_continues_stem _ kind) heq
    rw [hstem] at hbelow
    omega
  counts kind := by
    have hfirst := h.counts kind
    have hsecond := h'.counts kind
    rw [List.length_append]
    omega
  number := by
    refine List.forall_mem_append.mpr ⟨fun name hname => ?_, fun name hname => ?_⟩
    · obtain ⟨kind, i, heq, habove, hbelow⟩ := h.number name hname
      exact ⟨kind, i, heq, habove, hbelow.trans_le (h'.counts kind).1⟩
    · obtain ⟨kind, i, heq, habove, hbelow⟩ := h'.number name hname
      exact ⟨kind, i, heq, (h.counts kind).1.trans habove, hbelow⟩

theorem Numbers.perm (h : Numbers c c' names) (hperm : names.Perm more) : Numbers c c' more where
  nodup := hperm.nodup_iff.mp h.nodup
  counts := by rw [← hperm.length_eq]; exact h.counts
  number name hname := h.number name (hperm.mem_iff.mpr hname)

theorem numbers_fresh (kind : Kind) (c : Counter) (h : c.count (Shaped.stem kind) + 1 < 2 ^ 64) :
    Numbers c (fresh (Shaped.stem kind) c).2 [(fresh (Shaped.stem kind) c).1] where
  nodup := List.nodup_singleton _
  counts other := by
    by_cases hother : Shaped.stem other = Shaped.stem kind
    · rw [hother, count_fresh_self _ c h]
      simp
    · rw [count_fresh_of_ne c hother]
      simp
  number := by
    refine List.forall_mem_singleton.mpr ⟨kind, c.count (Shaped.stem kind), rfl, le_rfl, ?_⟩
    rw [count_fresh_self _ c h]
    omega

end Counter

open Counter

/-- Names made up for layers do not count as names of nodes. -/
theorem numbers_draw {stems : List String} (hstems : stems ⊆ Shaped.stems) (c : Counter) :
    Numbers c (draw stems c).2 [] := by
  refine .nil fun kind => ?_
  induction stems generalizing c with
  | nil => rfl
  | cons stem stems ih =>
    obtain ⟨hstem, hrest⟩ := List.cons_subset.mp hstems
    exact (ih hrest _).trans (count_fresh_of_ne c (stem_ne hstem kind).symm)

end Counts

def Node.names (n : Node Shaped) : List String := n.toList.map fun m => m.decoration.name

theorem Node.names_eq (n : Node Shaped) :
    n.names = n.decoration.name :: n.expression.children.flatMap names := by
  obtain ⟨e, d⟩ := n
  rw [names, toList_mk, List.map_cons, List.map_flatMap]
  rfl

theorem Node.name_mem_names {m n : Node Shaped} (h : m ∈ n.toList) : m.decoration.name ∈ n.names :=
  List.mem_map_of_mem h

section Nodup

open Counter

variable {D : Type}

def Room (names : Counter) (size : Nat) : Prop :=
  ∀ kind, names.count (Shaped.stem kind) + size < 2 ^ 64

theorem numbers_visits {pairs : List (Node D × Node Shaped)} {d t : Draft Counter}
    (h : Visits (fun _ m d t => Room d.names m.names.length → Numbers d.names t.names m.names)
      pairs d t)
    (hroom : Room d.names (pairs.flatMap fun pair => pair.2.names).length) :
    Numbers d.names t.names (pairs.flatMap fun pair => pair.2.names) := by
  induction h with
  | nil => exact .nil fun _ => rfl
  | @cons a b rest d u t hfirst _ ih =>
    have hall : Room d.names
        (b.names.length + (rest.flatMap fun pair => pair.2.names).length) := by
      rw [← List.length_append]
      exact hroom
    have hhere : Numbers d.names u.names b.names := hfirst fun kind => by
      have := hall kind
      omega
    refine hhere.append (ih fun kind => ?_)
    have := hall kind
    have := (hhere.counts kind).2
    omega

/-- The names that a tree gets are numbered from the counts before to the counts after. -/
theorem numbers_yields (tree : Node D) {m : Node Shaped} {d t : Draft Counter}
    (h : (Execution.state (Draft Counter)).Yields (tree.rebuildM fun e _ => Shaped.attach e) d m t)
    (hroom : Room d.names m.names.length) : Numbers d.names t.names m.names := by
  revert hroom
  refine Node.rebuildM_induction (Execution.state (Draft Counter)) (P := fun _ m d t =>
    Room d.names m.names.length → Numbers d.names t.names m.names) ?_ h
  intro pairs _ m d u t hvisits hattach hroom
  obtain ⟨hexpression, asked, hattaches⟩ := yields_attach hattach
  have hchildren : m.expression.children.flatMap Node.names =
      pairs.children.flatMap fun pair => pair.2.names := by
    rw [hexpression, Expr.children_map, List.flatMap_map]
  rw [Node.names_eq, hchildren] at hroom ⊢
  rw [List.length_cons] at hroom
  have hparts := numbers_visits hvisits fun kind => by
    have := hroom kind
    omega
  have hname := numbers_fresh m.kind u.names (by
    have := hroom m.kind
    have := (hparts.counts m.kind).2
    omega)
  have hown : Numbers u.names t.names [m.decoration.name] := by
    rw [hattaches.name, hattaches.drafted.names]
    exact hname.append (numbers_draw m.expression.innerStems_subset _)
  exact (hparts.append hown).perm (List.perm_append_singleton _ _)

/-- The nodes of a tree that is not too large have different names. -/
theorem nodup_names (tree : Node D) (hsize : tree.size < 2 ^ 64) :
    (attachShapes tree ({} : Counter)).node.names.Nodup := by
  refine (numbers_yields tree (d := ⟨{}, []⟩) rfl fun kind => ?_).nodup
  have hlength : (attachShapes tree ({} : Counter)).node.names.length = tree.size := by
    rw [Node.names, List.length_map, Node.length_toList, size_attachShapes]
  have hcount : Counter.count {} (Shaped.stem kind) = 0 := rfl
  rw [show (Draft.mk ({} : Counter) []).names = {} from rfl, hcount, Nat.zero_add]
  exact hlength.trans_lt hsize

end Nodup

section Variables

variable {σ D : Type} [NameSource σ]

/-- A layer asks about its children only, and about each of them once. -/
theorem Draws.asks_sublist {e : Expr String} {type : Value} {asked : List Request}
    (h : Draws e type asked) : (asked.map fun request => request.2.1).Sublist e.children := by
  cases h with
  | application callee parameter result => exact (List.nil_sublist _).cons_cons callee
  | dual left right result => exact .refl _
  | property source name result => exact .refl _
  | position source name result before => exact .refl _
  | choice subject test result arms =>
    refine List.Sublist.cons_cons subject ?_
    rw [List.map_flatMap]
    exact .refl _
  | binding name value body => exact (List.nil_sublist _).cons_cons value
  | _ => exact List.nil_sublist _

theorem Draws.asks_children {e : Expr String} {type : Value} {asked : List Request}
    (h : Draws e type asked) : ∀ request ∈ asked, request.2.1 ∈ e.children :=
  fun _ hrequest => h.asks_sublist.subset (List.mem_map_of_mem hrequest)

def Shaped.own (m : Node Shaped) : Constraint :=
  Shaped.note m.decoration.name m.kind (.equals, m.decoration.name, m.decoration.type)

/-- The constraints that a tree adds are about names of its nodes; the equation of its root comes
last, and the others are about nodes below the root. -/
theorem own_comes_last (tree : Node D) {m : Node Shaped} {d t : Draft σ}
    (h : (Execution.state (Draft σ)).Yields (tree.rebuildM fun e _ => Shaped.attach e) d m t) :
    ∃ before, t.constraints = d.constraints ++ (before ++ [Shaped.own m]) ∧
      ∀ c ∈ before, c.var ∈ m.expression.children.flatMap Node.names := by
  refine Node.rebuildM_induction (Execution.state (Draft σ)) (P := fun _ m d t =>
    ∃ before, t.constraints = d.constraints ++ (before ++ [Shaped.own m]) ∧
      ∀ c ∈ before, c.var ∈ m.expression.children.flatMap Node.names) ?_ h
  intro pairs _ m d u t hvisits hattach
  obtain ⟨added, hu, hadded⟩ : ∃ added, u.constraints = d.constraints ++ added ∧
      ∀ c ∈ added, c.var ∈ (pairs.map Prod.snd).children.flatMap Node.names := by
    refine hvisits.invariant (I := fun v => ∃ added, v.constraints = d.constraints ++ added ∧
      ∀ c ∈ added, c.var ∈ (pairs.map Prod.snd).children.flatMap Node.names) ⟨[], by simp⟩ ?_
    rintro pair hpair v w ⟨before, hw, hbefore⟩ ⟨added, hv, hadded⟩
    have hnames : ∀ c ∈ before ++ [Shaped.own pair.2], c.var ∈ pair.2.names := by
      rw [Node.names_eq]
      refine List.forall_mem_append.mpr ⟨fun c hc => ?_, ?_⟩
      · exact List.mem_cons_of_mem _ (hbefore c hc)
      · exact List.forall_mem_singleton.mpr List.mem_cons_self
    refine ⟨added ++ (before ++ [Shaped.own pair.2]), by rw [hw, hv, List.append_assoc], ?_⟩
    refine List.forall_mem_append.mpr ⟨hadded, fun c hc => ?_⟩
    exact List.mem_flatMap.mpr ⟨pair.2, Expr.mem_children_map hpair, hnames c hc⟩
  obtain ⟨hexpression, asked, hattaches⟩ := yields_attach hattach
  rw [← hexpression] at hadded
  refine ⟨added ++ asked.map (Shaped.note m.decoration.name m.kind), ?_, ?_⟩
  · rw [hattaches.drafted.constraints, List.map_append, hu, List.append_assoc, List.append_assoc]
    rfl
  · refine List.forall_mem_append.mpr ⟨hadded, List.forall_mem_map.mpr fun request hrequest => ?_⟩
    have hchild := hattaches.draws.asks_children request hrequest
    rw [Expr.children_map] at hchild
    obtain ⟨child, hchild, hname⟩ := List.mem_map.mp hchild
    refine List.mem_flatMap.mpr ⟨child, hchild, ?_⟩
    rw [show Constraint.var _ = child.decoration.name from hname.symm]
    exact Node.name_mem_names (Node.mem_toList_self child)

end Variables

theorem Sketched.own_mem {constraints : List Constraint} {m : Node Shaped}
    (h : Sketched constraints m) : Shaped.own m ∈ constraints := by
  obtain ⟨asked, -, hasked⟩ := h
  exact hasked _ (List.mem_append_right _ List.mem_cons_self)

/-- No node is typed by its own variable. -/
def Proper (tree : Node Shaped) : Prop :=
  ∀ m ∈ tree.toList, m.decoration.type ≠ .var m.decoration.name

section Proper

variable {D : Type}

/-- A node below another one has another name. -/
theorem name_ne_of_child {tree m child : Node Shaped} (hnodup : tree.names.Nodup)
    (hm : m ∈ tree.toList) (hchild : child ∈ m.expression.children) :
    child.decoration.name ≠ m.decoration.name := by
  induction tree using Node.induction with
  | mk e d ih =>
    rw [Node.names_eq, List.nodup_cons] at hnodup
    rcases Node.mem_toList_mk.mp hm with rfl | ⟨part, hpart, hm⟩
    · intro heq
      refine hnodup.1 (List.mem_flatMap.mpr ⟨child, hchild, ?_⟩)
      rw [← show child.decoration.name = d.name from heq]
      exact Node.name_mem_names (Node.mem_toList_self child)
    · exact ih part hpart ((List.nodup_flatMap.mp hnodup.2).1 part hpart) hm

/-- A node is typed by its own variable only if it is an identifier that refers to it. -/
theorem type_ne_own {names : Counter} (tree : Node D)
    (hnodup : (attachShapes tree names).node.names.Nodup) {m : Node Shaped}
    (hm : m ∈ (attachShapes tree names).node.toList)
    (hrefers : ¬ m.expression.refersTo m.decoration.name) :
    m.decoration.type ≠ .var m.decoration.name := by
  intro htype
  have hattached := attached_attachShapes tree names m hm
  obtain ⟨_, _, asked, hattaches⟩ := attached_attachShapes tree names m hm
  rcases hattaches.named.type _ htype with hmade | hidentifier | ⟨bound, value, hbinding⟩
  · exact hattached.name_ne hmade rfl
  · rw [← Expr.refersTo_map fun child : Node Shaped => child.decoration.name, hidentifier] at hrefers
    exact hrefers (beq_self_eq_true _)
  · have hbody : m.decoration.name ∈
        (m.expression.map fun child => child.decoration.name).children := by
      rw [hbinding]
      exact List.mem_cons_of_mem _ List.mem_cons_self
    rw [Expr.children_map] at hbody
    obtain ⟨body, hbody, hname⟩ := List.mem_map.mp hbody
    exact name_ne_of_child hnodup hm hbody hname

/-- The names of a new counter are proper for a tree with no more nodes than can be numbered, unless
one of its identifiers is such a name. -/
theorem proper_counter (tree : Node D) (hsize : tree.size < 2 ^ 64)
    (hrefers : ∀ n ∈ tree.toList, ∀ name ∈ (attachShapes tree ({} : Counter)).node.names,
      ¬ n.expression.refersTo name) : Proper (attachShapes tree ({} : Counter)).node := by
  intro m hm
  obtain ⟨n, hn, hsame⟩ :=
    Node.exists_of_undecorated (undecorated_attachShapes tree ({} : Counter)) hm
  apply type_ne_own tree (nodup_names tree hsize) hm
  rw [← Expr.refersTo_map Node.undecorated, ← hsame, Expr.refersTo_map]
  exact hrefers n hn _ (Node.name_mem_names hm)

end Proper

end ImplicitInference
