import ImplicitInference.Proofs.Correspondence
import ImplicitInference.Proofs.Numbering
import Mathlib.Data.List.Flatten

/-!
The draft of a whole tree. A counter has 2 ^ 64 numbers for a stem before it comes back to one that it
has given out, so all names that a tree needs are distinct, those of its nodes and those that its
layers make up. `Drawn` builds the constraints of a tree from those of its parts: a node adds, behind
what its children have left, what it asks of each of them and then its own equation. With distinct names
the constraints about a node, and the constraints that it has left, can be told from all others.
-/

namespace ImplicitInference

section Stems

theorem Node.mem_stems {D : Type} {tree : Node D} {stem : String} (h : stem ∈ tree.stems) :
    (∃ kind, stem = Shaped.stem kind) ∨ stem ∈ Shaped.stems := by
  induction tree using Node.induction with
  | mk e d ih =>
    rw [stems_mk] at h
    rcases List.mem_append.mp h with h | h
    · obtain ⟨child, hchild, h⟩ := List.mem_flatMap.mp h
      exact ih child hchild h
    · rcases List.mem_cons.mp h with rfl | h
      · exact .inl ⟨e.kind, rfl⟩
      · exact .inr (e.innerStems_subset h)

theorem Node.not_continues_stems {D : Type} {tree : Node D} {stem : String}
    (h : stem ∈ tree.stems) (other : String) : ¬ Continues other stem := by
  rcases mem_stems h with ⟨kind, rfl⟩ | hmem
  · exact not_continues_stem other kind
  · exact not_continues_of_mem other hmem

end Stems

section Drawn

def Shaped.notes (m : Node Shaped) (asked : List Request) : List Constraint :=
  asked.map (Shaped.note m.decoration.name m.kind) ++ [Shaped.own m]

structure Drawing where
  node : Node Shaped
  made : List String
  constraints : List Constraint

inductive Drawing.Drawn : Drawing → Prop
  | mk {m : Node Shaped} {parts : List Drawing} {asked : List Request} :
      parts.map Drawing.node = m.expression.children → (∀ part ∈ parts, part.Drawn) →
      Draws (m.expression.map fun child => child.decoration.name) m.decoration.type asked →
      Drawn ⟨m,
        parts.flatMap made ++
          m.expression.invented m.decoration.type (asked.map fun request => request.2.2),
        parts.flatMap constraints ++ Shaped.notes m asked⟩

variable {σ D : Type} [NameSource σ] {d t : Draft σ}

def ShapedAs (tree : Node D) (m : Node Shaped) (d t : Draft σ) : Prop :=
  ∃ made added, Drawing.Drawn ⟨m, made, added⟩ ∧
    (m.names ++ made).Perm (draw tree.stems d.names).1 ∧ Drafted tree.stems d t added

theorem shapedAs_visits {pairs : List (Node D × Node Shaped)} (h : Visits ShapedAs pairs d t) :
    ∃ parts : List Drawing, parts.map Drawing.node = pairs.map Prod.snd ∧
      (∀ part ∈ parts, part.Drawn) ∧
      (parts.flatMap (fun part => part.node.names) ++ parts.flatMap Drawing.made).Perm
        (draw ((pairs.map Prod.fst).flatMap Node.stems) d.names).1 ∧
      Drafted ((pairs.map Prod.fst).flatMap Node.stems) d t (parts.flatMap Drawing.constraints) := by
  induction h with
  | nil => exact ⟨[], rfl, List.forall_mem_nil _, .refl _, .refl _⟩
  | @cons tree m rest d u t hfirst _ ih =>
    obtain ⟨made, added, hdrawn, hnames, hu⟩ := hfirst
    obtain ⟨parts, hnodes, hparts, hrest, ht⟩ := ih
    refine ⟨⟨m, made, added⟩ :: parts, congrArg (m :: ·) hnodes,
      List.forall_mem_cons.mpr ⟨hdrawn, hparts⟩, ?_, hu.trans ht⟩
    rw [hu.names] at hrest
    simp only [List.map_cons, List.flatMap_cons, draw_append]
    refine List.Perm.trans ?_ (hnames.append hrest)
    rw [List.append_assoc, List.append_assoc]
    refine List.Perm.append_left _ ?_
    rw [← List.append_assoc, ← List.append_assoc]
    exact List.perm_append_comm.append_right _

/-- Shaping a tree draws it. -/
theorem shapedAs_yields (tree : Node D) {m : Node Shaped}
    (h : (Execution.state (Draft σ)).Yields (tree.rebuildM fun e _ => Shaped.attach e) d m t) :
    ShapedAs tree m d t := by
  refine Node.rebuildM_induction (Execution.state (Draft σ)) (P := ShapedAs) ?_ h
  intro pairs _ m d u t hvisits hattach
  obtain ⟨parts, hnodes, hparts, hnames, hu⟩ := shapedAs_visits hvisits
  obtain ⟨hexpression, asked, hattaches⟩ := yields_attach hattach
  rw [← Expr.children_map, ← hexpression] at hnodes
  have hstems : (pairs.map Prod.fst).stems = m.expression.stems := by
    rw [hexpression, Expr.stems_map, Expr.stems_map]
  have hown : (draw m.expression.stems u.names).1 = m.decoration.name ::
      (draw m.expression.innerStems (NameSource.fresh (Shaped.stem m.kind) u.names).2).1 := by
    rw [hattaches.name]
    rfl
  refine ⟨_, _, .mk hnodes hparts hattaches.draws, ?_, ?_⟩
  · rw [Node.stems_mk, Expr.children_map, hstems, draw_append, ← hu.names, hown]
    refine List.Perm.trans ?_ (hnames.append (hattaches.invented.cons _))
    rw [Node.names_eq, ← hnodes, List.flatMap_map, List.cons_append, ← List.append_assoc]
    exact List.perm_middle.symm
  · have hnotes := hattaches.drafted
    rw [List.map_append] at hnotes
    rw [Node.stems_mk, Expr.children_map, hstems]
    exact hu.trans hnotes

end Drawn

/-- A layer whose first request is looked at has asked for something. -/
theorem Draws.invented_append {e : Expr String} {type : Value} {asked : List Request}
    (h : Draws e type asked) (more : List Value) :
    e.invented type (asked.map (fun request => request.2.2) ++ more) =
      e.invented type (asked.map fun request => request.2.2) := by
  cases h <;> rfl

/-- The variables that a node has made up, where its type and its constraints mention them. -/
def Node.invented (constraints : List Constraint) (n : Node Shaped) : List String :=
  n.expression.invented n.decoration.type
    ((constraints.filter fun c => c.origin = n.decoration.name).map Constraint.value)

section Parts

variable {α : Type} {parts : List α} {names : α → List String}

theorem eq_of_mem_names (hnodup : (parts.flatMap names).Nodup) {part other : α}
    (hpart : part ∈ parts) (hother : other ∈ parts) {name : String} (h : name ∈ names part)
    (h' : name ∈ names other) : part = other := by
  induction parts with
  | nil => cases hpart
  | cons first rest ih =>
    rw [List.flatMap_cons, List.nodup_append] at hnodup
    obtain ⟨-, hrest, hdisjoint⟩ := hnodup
    rcases List.mem_cons.mp hpart with rfl | hlater
    · rcases List.mem_cons.mp hother with rfl | hlater'
      · rfl
      · exact absurd rfl (hdisjoint name h name (List.mem_flatMap.mpr ⟨other, hlater', h'⟩))
    · rcases List.mem_cons.mp hother with rfl | hlater'
      · exact absurd rfl (hdisjoint name h' name (List.mem_flatMap.mpr ⟨part, hlater, h⟩))
      · exact ih hrest hlater hlater'

/-- If no name belongs to two parts, what is about a name of one part is in that part. -/
theorem filter_flatMap_of_mem {constraints : α → List Constraint} (key : Constraint → String)
    (hkeys : ∀ part ∈ parts, ∀ c ∈ constraints part, key c ∈ names part)
    (hnodup : (parts.flatMap names).Nodup) {part : α} (hpart : part ∈ parts) {name : String}
    (hname : name ∈ names part) : (parts.flatMap constraints).filter (fun c => key c = name) =
      (constraints part).filter fun c => key c = name := by
  induction parts with
  | nil => cases hpart
  | cons first rest ih =>
    have hrest : ∀ part ∈ rest, ∀ c ∈ constraints part, key c ∈ names part :=
      fun part hpart => hkeys part (List.mem_cons_of_mem _ hpart)
    rw [List.flatMap_cons, List.nodup_append] at hnodup
    obtain ⟨-, hnodupRest, hdisjoint⟩ := hnodup
    rw [List.flatMap_cons, List.filter_append]
    rcases List.mem_cons.mp hpart with rfl | hpart
    · have hnone : (rest.flatMap constraints).filter (fun c => key c = name) = [] := by
        refine List.filter_eq_nil_iff.mpr fun c hc heq => ?_
        obtain ⟨other, hother, hc⟩ := List.mem_flatMap.mp hc
        have hkey := List.mem_flatMap.mpr ⟨other, hother, hrest other hother c hc⟩
        exact hdisjoint name hname _ hkey (of_decide_eq_true heq).symm
      rw [hnone, List.append_nil]
    · have hnone : (constraints first).filter (fun c => key c = name) = [] := by
        refine List.filter_eq_nil_iff.mpr fun c hc heq => ?_
        have hkey := hkeys first List.mem_cons_self c hc
        have hlater := List.mem_flatMap.mpr ⟨part, hpart, hname⟩
        exact hdisjoint _ hkey name hlater (of_decide_eq_true heq)
      rw [hnone, List.nil_append, ih hrest hnodupRest hpart]

theorem length_filter_le_one {l : List Constraint} {key : Constraint → String}
    (h : (l.map key).Nodup) (name : String) : (l.filter fun c => key c = name).length ≤ 1 := by
  have hcount := List.nodup_iff_count_le_one.mp h name
  rw [List.count, List.countP_map, List.countP_eq_length_filter] at hcount
  exact hcount

end Parts

namespace Drawing

variable {m : Node Shaped} {parts : List Drawing} {asked : List Request}

theorem names_eq (hnodes : parts.map node = m.expression.children) :
    m.names = m.decoration.name :: parts.flatMap fun part => part.node.names := by
  rw [Node.names_eq, ← hnodes, List.flatMap_map]

theorem names_subset (hnodes : parts.map node = m.expression.children) {part : Drawing}
    (hpart : part ∈ parts) : part.node.names ⊆ m.names := by
  intro name hname
  rw [names_eq hnodes]
  exact List.mem_cons_of_mem _ (List.mem_flatMap.mpr ⟨part, hpart, hname⟩)

theorem exists_part_of_mem (hnodes : parts.map node = m.expression.children) {child : Node Shaped}
    (hchild : child ∈ m.expression.children) : ∃ part ∈ parts, part.node = child := by
  rw [← hnodes] at hchild
  exact List.mem_map.mp hchild

theorem toList_eq (hnodes : parts.map node = m.expression.children) :
    m.toList = m :: parts.flatMap fun part => part.node.toList := by
  obtain ⟨e, d⟩ := m
  rw [Node.toList_mk, ← show parts.map node = e.children from hnodes, List.flatMap_map]

theorem mem_toList_iff (hnodes : parts.map node = m.expression.children) {n : Node Shaped} :
    n ∈ m.toList ↔ n = m ∨ ∃ part ∈ parts, n ∈ part.node.toList := by
  rw [toList_eq hnodes, List.mem_cons, List.mem_flatMap]

/-- A node asks about the names of its children. -/
theorem exists_part_of_asked (hnodes : parts.map node = m.expression.children)
    (hdraws : Draws (m.expression.map fun child => child.decoration.name) m.decoration.type asked)
    {request : Request} (hrequest : request ∈ asked) :
    ∃ part ∈ parts, part.node.decoration.name = request.2.1 := by
  have hchild := hdraws.asks_children request hrequest
  rw [Expr.children_map] at hchild
  obtain ⟨child, hchild, hname⟩ := List.mem_map.mp hchild
  obtain ⟨part, hpart, rfl⟩ := exists_part_of_mem hnodes hchild
  exact ⟨part, hpart, hname⟩

theorem origin_of_mem_notes {c : Constraint} (hc : c ∈ Shaped.notes m asked) :
    c.origin = m.decoration.name := by
  rcases List.mem_append.mp hc with hc | hown
  · obtain ⟨request, -, rfl⟩ := List.mem_map.mp hc
    rfl
  · rw [List.mem_singleton.mp hown]
    rfl

/-- A constraint is about a node of the tree, and a node of the tree has left it. -/
theorem Drawn.names_of_mem {g : Drawing} (h : g.Drawn) {c : Constraint} (hc : c ∈ g.constraints) :
    c.var ∈ g.node.names ∧ c.origin ∈ g.node.names := by
  induction h with
  | @mk m parts asked hnodes hparts hdraws ih =>
    rcases List.mem_append.mp hc with hc | hc
    · obtain ⟨part, hpart, hc⟩ := List.mem_flatMap.mp hc
      obtain ⟨hvar, horigin⟩ := ih part hpart hc
      exact ⟨names_subset hnodes hpart hvar, names_subset hnodes hpart horigin⟩
    · have hroot : m.decoration.name ∈ m.names := Node.name_mem_names (Node.mem_toList_self m)
      rcases List.mem_append.mp hc with hc | hown
      · obtain ⟨request, hrequest, rfl⟩ := List.mem_map.mp hc
        obtain ⟨part, hpart, hname⟩ := exists_part_of_asked hnodes hdraws hrequest
        refine ⟨names_subset hnodes hpart ?_, hroot⟩
        rw [show (Shaped.note _ _ request).var = _ from hname.symm]
        exact Node.name_mem_names (Node.mem_toList_self part.node)
      · rw [List.mem_singleton.mp hown]
        exact ⟨hroot, hroot⟩

section Distinct

variable (hnodes : parts.map node = m.expression.children) (hparts : ∀ part ∈ parts, part.Drawn)
  (hnodup : m.names.Nodup)

include hnodes hnodup

theorem nodup_parts : (parts.flatMap fun part => part.node.names).Nodup := by
  rw [names_eq hnodes] at hnodup
  exact (List.nodup_cons.mp hnodup).2

theorem nodup_part {part : Drawing} (hpart : part ∈ parts) : part.node.names.Nodup :=
  (List.nodup_flatMap.mp (nodup_parts hnodes hnodup)).1 part hpart

theorem name_ne_of_part {part : Drawing} (hpart : part ∈ parts) {name : String}
    (hname : name ∈ part.node.names) : name ≠ m.decoration.name := by
  rintro rfl
  rw [names_eq hnodes] at hnodup
  exact (List.nodup_cons.mp hnodup).1 (List.mem_flatMap.mpr ⟨part, hpart, hname⟩)

theorem filter_parts_eq_nil (key : Constraint → String)
    (hkeys : ∀ part ∈ parts, ∀ c ∈ part.constraints, key c ∈ part.node.names) :
    (parts.flatMap constraints).filter (fun c => key c = m.decoration.name) = [] := by
  refine List.filter_eq_nil_iff.mpr fun c hc heq => ?_
  obtain ⟨part, hpart, hc⟩ := List.mem_flatMap.mp hc
  exact name_ne_of_part hnodes hnodup hpart (hkeys part hpart c hc) (of_decide_eq_true heq)

include hparts

/-- The root has left its notes and nothing else. -/
theorem filter_origin_root :
    (parts.flatMap constraints ++ Shaped.notes m asked).filter
      (fun c => c.origin = m.decoration.name) = Shaped.notes m asked := by
  have hnone := filter_parts_eq_nil hnodes hnodup Constraint.origin
    fun part hpart c hc => ((hparts part hpart).names_of_mem hc).2
  rw [List.filter_append, hnone, List.nil_append, List.filter_eq_self]
  exact fun c hc => decide_eq_true (origin_of_mem_notes hc)

/-- What a node below the root has left is in its part. -/
theorem filter_origin_part {part : Drawing} (hpart : part ∈ parts) {name : String}
    (hname : name ∈ part.node.names) :
    (parts.flatMap constraints ++ Shaped.notes m asked).filter (fun c => c.origin = name) =
      part.constraints.filter fun c => c.origin = name := by
  have hnone : (Shaped.notes m asked).filter (fun c => c.origin = name) = [] := by
    refine List.filter_eq_nil_iff.mpr fun c hc heq => ?_
    refine name_ne_of_part hnodes hnodup hpart hname ?_
    rw [← origin_of_mem_notes hc]
    exact (of_decide_eq_true heq).symm
  rw [List.filter_append, hnone, List.append_nil]
  exact filter_flatMap_of_mem Constraint.origin (fun part hpart c hc => ((hparts part hpart).names_of_mem hc).2)
    (nodup_parts hnodes hnodup) hpart hname

/-- What is about a node below the root is in its part, or the root asks for it. -/
theorem filter_var_part (asked : List Request) {part : Drawing} (hpart : part ∈ parts) {name : String}
    (hname : name ∈ part.node.names) :
    (parts.flatMap constraints ++ Shaped.notes m asked).filter (fun c => c.var = name) =
      part.constraints.filter (fun c => c.var = name) ++
        (asked.map (Shaped.note m.decoration.name m.kind)).filter fun c => c.var = name := by
  have hown : ([Shaped.own m]).filter (fun c => c.var = name) = [] := by
    refine List.filter_eq_nil_iff.mpr (List.forall_mem_singleton.mpr fun heq => ?_)
    exact name_ne_of_part hnodes hnodup hpart hname (of_decide_eq_true heq).symm
  have hthere := filter_flatMap_of_mem Constraint.var
    (fun part hpart c hc => ((hparts part hpart).names_of_mem hc).1) (nodup_parts hnodes hnodup)
    hpart hname
  rw [List.filter_append, hthere, Shaped.notes, List.filter_append, hown, List.append_nil]

omit hparts

variable
  (hdraws : Draws (m.expression.map fun child => child.decoration.name) m.decoration.type asked)

include hdraws

theorem length_asked_le_one (name : String) :
    ((asked.map (Shaped.note m.decoration.name m.kind)).filter
      fun c => c.var = name).length ≤ 1 := by
  refine length_filter_le_one ?_ name
  have hchildren : (m.expression.children.map fun child => child.decoration.name).Sublist
      (parts.flatMap fun part => part.node.names) := by
    rw [← hnodes, List.map_map, List.map_eq_flatMap]
    refine .flatMap_right parts fun part _ => List.singleton_sublist.mpr ?_
    exact Node.name_mem_names (Node.mem_toList_self part.node)
  have hsublist := hdraws.asks_sublist
  rw [Expr.children_map] at hsublist
  rw [List.map_map]
  exact (hsublist.trans hchildren).nodup (nodup_parts hnodes hnodup)

/-- The root asks nothing of the nodes below its children. -/
theorem asked_eq_nil {part : Drawing} (hpart : part ∈ parts) {n : Node Shaped}
    (hn : n ∈ part.node.toList) (hne : n ≠ part.node) :
    (asked.map (Shaped.note m.decoration.name m.kind)).filter
      (fun c => c.var = n.decoration.name) = [] := by
  refine List.filter_eq_nil_iff.mpr fun c hc heq => hne ?_
  obtain ⟨request, hrequest, rfl⟩ := List.mem_map.mp hc
  obtain ⟨other, hother, hname⟩ := exists_part_of_asked hnodes hdraws hrequest
  have hsame : other.node.decoration.name = n.decoration.name := hname.trans (of_decide_eq_true heq)
  have hmem : n.decoration.name ∈ other.node.names :=
    hsame ▸ Node.name_mem_names (Node.mem_toList_self other.node)
  obtain rfl := eq_of_mem_names (nodup_parts hnodes hnodup) hpart hother (Node.name_mem_names hn) hmem
  exact List.inj_on_of_nodup_map (nodup_part hnodes hnodup hpart) hn
    (Node.mem_toList_self part.node) hsame.symm

end Distinct

/-- The only constraint of a tree about its root is the equation of the root. -/
theorem Drawn.about_root {g : Drawing} (h : g.Drawn) (hnodup : g.node.names.Nodup) :
    g.constraints.filter (fun c => c.var = g.node.decoration.name) = [Shaped.own g.node] := by
  obtain @⟨m, parts, asked, hnodes, hparts, hdraws⟩ := h
  have hnone := filter_parts_eq_nil hnodes hnodup Constraint.var
    fun part hpart c hc => ((hparts part hpart).names_of_mem hc).1
  have hasked : (asked.map (Shaped.note m.decoration.name m.kind)).filter
      (fun c => c.var = m.decoration.name) = [] := by
    refine List.filter_eq_nil_iff.mpr fun c hc heq => ?_
    obtain ⟨request, hrequest, rfl⟩ := List.mem_map.mp hc
    obtain ⟨part, hpart, hname⟩ := exists_part_of_asked hnodes hdraws hrequest
    refine name_ne_of_part hnodes hnodup hpart
      (Node.name_mem_names (Node.mem_toList_self part.node)) ?_
    rw [hname]
    exact of_decide_eq_true heq
  rw [List.filter_append, hnone, List.nil_append, Shaped.notes, List.filter_append, hasked,
    List.nil_append]
  exact List.filter_eq_self.mpr (List.forall_mem_singleton.mpr (decide_eq_true rfl))

/-- The constraints about a node are its own equation, which comes first, and at most one that its
parent has left. -/
def About (g : Drawing) (n : Node Shaped) : Prop :=
  ∃ further, g.constraints.filter (fun c => c.var = n.decoration.name) = Shaped.own n :: further ∧
    further.length ≤ 1 ∧ ∀ c ∈ further, ∃ parent ∈ g.node.toList,
      n ∈ parent.expression.children ∧ c.origin = parent.decoration.name

theorem Drawn.about {g : Drawing} (h : g.Drawn) (hnodup : g.node.names.Nodup) :
    ∀ n ∈ g.node.toList, g.About n := by
  induction h with
  | @mk m parts asked hnodes hparts hdraws ih =>
    intro n hn
    rcases (mem_toList_iff hnodes).mp hn with rfl | ⟨part, hpart, hn⟩
    · exact ⟨[], (Drawn.mk hnodes hparts hdraws).about_root hnodup, by simp⟩
    · have hpartNodup := nodup_part hnodes hnodup hpart
      have hfilter := filter_var_part hnodes hparts hnodup asked hpart (Node.name_mem_names hn)
      by_cases hchild : n = part.node
      · subst hchild
        have hown := (hparts part hpart).about_root hpartNodup
        refine ⟨_, hfilter.trans (congrArg (· ++ _) hown),
          length_asked_le_one hnodes hnodup hdraws _, fun c hc => ?_⟩
        obtain ⟨request, -, rfl⟩ := List.mem_map.mp (List.mem_filter.mp hc).1
        refine ⟨m, Node.mem_toList_self m, ?_, rfl⟩
        rw [← hnodes]
        exact List.mem_map_of_mem hpart
      · obtain ⟨further, hfurther, hlength, hparent⟩ := ih part hpart hpartNodup n hn
        refine ⟨further, ?_, hlength, fun c hc => ?_⟩
        · rw [hfilter, asked_eq_nil hnodes hnodup hdraws hpart hn hchild, List.append_nil]
          exact hfurther
        · obtain ⟨parent, hmem, hrest⟩ := hparent c hc
          exact ⟨parent, (mem_toList_iff hnodes).mpr (.inr ⟨part, hpart, hmem⟩), hrest⟩

/-- What the nodes of a tree have made up is what its layers made up. -/
theorem Drawn.invented_perm {g : Drawing} (h : g.Drawn) (hnodup : g.node.names.Nodup) :
    (g.node.toList.flatMap (Node.invented g.constraints)).Perm g.made := by
  induction h with
  | @mk m parts asked hnodes hparts hdraws ih =>
    have hroot : Node.invented (parts.flatMap constraints ++ Shaped.notes m asked) m =
        m.expression.invented m.decoration.type (asked.map fun request => request.2.2) := by
      have hfirst := hdraws.invented_append [m.decoration.type]
      rw [Expr.invented_map, Expr.invented_map] at hfirst
      rw [Node.invented, filter_origin_root hnodes hparts hnodup, Shaped.notes, List.map_append,
        List.map_map]
      exact hfirst
    rw [toList_eq hnodes, List.flatMap_cons, hroot, List.flatMap_assoc]
    refine List.perm_append_comm.trans (List.Perm.append_right _ ?_)
    refine List.Perm.flatMap_left parts fun part hpart => ?_
    have hsame : ∀ n ∈ part.node.toList,
        Node.invented (parts.flatMap constraints ++ Shaped.notes m asked) n =
          Node.invented part.constraints n := by
      intro n hn
      rw [Node.invented, Node.invented, filter_origin_part hnodes hparts hnodup hpart
        (Node.name_mem_names hn)]
    rw [List.flatMap_congr hsame]
    exact ih part hpart (nodup_part hnodes hnodup hpart)

/-- No variable is evaluated from two values. -/
theorem Drawn.nodup_evaluatedFrom {g : Drawing} (h : g.Drawn) (hnodup : g.node.names.Nodup) :
    ((g.constraints.filter fun c => c.relation = .evaluatedFrom).map Constraint.var).Nodup := by
  refine List.nodup_iff_count_le_one.mpr fun name => ?_
  rw [List.count, List.countP_map, List.countP_eq_length_filter,
    show ((· == name) ∘ Constraint.var) = fun c => decide (c.var = name) from rfl, List.filter_comm]
  by_cases hname : name ∈ g.node.names
  · obtain ⟨n, hn, rfl⟩ := List.mem_map.mp hname
    obtain ⟨further, hfilter, hlength, -⟩ := h.about hnodup n hn
    rw [hfilter, List.filter_cons_of_neg (by simp [Shaped.own, Shaped.note])]
    exact (List.length_filter_le _ _).trans hlength
  · have hnone : g.constraints.filter (fun c => c.var = name) = [] := by
      refine List.filter_eq_nil_iff.mpr fun c hc heq => hname ?_
      rw [← of_decide_eq_true heq]
      exact (h.names_of_mem hc).1
    rw [hnone]
    exact Nat.zero_le 1

end Drawing

section WellFormed

variable {D : Type}

/-- The drawing of a tree that a counter has names for. -/
theorem exists_drawing (tree : Node D) (names : Counter)
    (hroom : ∀ stem, tree.stems.count stem ≤ 2 ^ 64) :
    ∃ made, Drawing.Drawn
        ⟨(attachShapes tree names).node, made, (attachShapes tree names).constraints⟩ ∧
      ((attachShapes tree names).node.names ++ made).Perm (generated tree names) ∧
      (generated tree names).Nodup := by
  obtain ⟨made, added, hdrawn, hnames, hdrafted⟩ := shapedAs_yields tree (d := ⟨names, []⟩) rfl
  have hadded : (attachShapes tree names).constraints = added := hdrafted.constraints
  rw [generated_eq, hadded]
  refine ⟨made, hdrawn, hnames, Counter.nodup_draw names ?_ hroom⟩
  exact fun stem _ _ hother => Node.not_continues_stems hother stem

/-- The names of the nodes and the variables that they make up are all that a counter is asked for
when a tree is shaped, and they are distinct, unless one stem needs more names than there are numbers.
Every constraint is about a node. The first constraint about a node is its own equation, and there is
at most one more, which its parent has left. -/
theorem attached_shapes_are_well_formed (tree : Node D) (names : Counter)
    (hroom : ∀ stem, tree.stems.count stem ≤ 2 ^ 64) :
    let shaping := attachShapes tree names
    let nodes := shaping.node.toList
    (generated tree names).Nodup ∧
      (nodes.flatMap fun n => n.decoration.name :: n.invented shaping.constraints).Perm
        (generated tree names) ∧
      (∀ c ∈ shaping.constraints, ∃ n ∈ nodes, c.var = n.decoration.name) ∧
      (∀ n ∈ nodes, ∃ further,
        shaping.constraints.filter (fun c => c.var = n.decoration.name) = Shaped.own n :: further ∧
          further.length ≤ 1 ∧ ∀ c ∈ further, ∃ parent ∈ nodes,
            n ∈ parent.expression.children ∧ c.origin = parent.decoration.name) ∧
      ((shaping.constraints.filter fun c => c.relation = .evaluatedFrom).map
        Constraint.var).Nodup := by
  intro shaping nodes
  obtain ⟨made, hdrawn, hmade, hdistinct⟩ := exists_drawing tree names hroom
  have hnodup : shaping.node.names.Nodup :=
    (List.nodup_append.mp (hmade.nodup_iff.mpr hdistinct)).1
  refine ⟨hdistinct, ?_, fun c hc => ?_, hdrawn.about hnodup, hdrawn.nodup_evaluatedFrom hnodup⟩
  · have hnames : shaping.node.names = nodes.flatMap fun n => [n.decoration.name] :=
      List.map_eq_flatMap
    have hboth := List.flatMap_append_perm nodes (fun n => [n.decoration.name])
      (Node.invented shaping.constraints)
    rw [← hnames] at hboth
    exact (hboth.symm.trans ((hdrawn.invented_perm hnodup).append_left _)).trans hmade
  · obtain ⟨n, hn, hname⟩ := List.mem_map.mp (hdrawn.names_of_mem hc).1
    exact ⟨n, hn, hname.symm⟩

def nativeParameter : Node Unit :=
  ⟨.form (.read ⟨.form (.dual ⟨.native [], ()⟩ ⟨.native [], ()⟩), ()⟩ (.position 2)), ()⟩

def wornCounter : Counter := ⟨({} : Table Nat).insert "native$" 18446744073709551615⟩

theorem nativeParameter_shapes_are_well_formed :
    (∀ stem, nativeParameter.stems.count stem ≤ 2 ^ 64) ∧
      generated nativeParameter wornCounter =
        ["nodeNativeType$0", "native$18446744073709551615", "nodeNativeType$1", "native$0",
          "nodeDualType$0", "dualResult$0", "nodeReadDataPropertyType$0", "dataPropertyResult$0",
          "dataPropertyName$0", "dataPropertyParameter$0", "dataPropertyParameter$1"] ∧
      (generated nativeParameter wornCounter).Nodup := by
  have hroom : ∀ stem, nativeParameter.stems.count stem ≤ 2 ^ 64 := by
    intro stem
    refine List.count_le_length.trans ?_
    decide +kernel
  exact ⟨hroom, by decide +kernel,
    (attached_shapes_are_well_formed nativeParameter wornCounter hroom).1⟩

end WellFormed

end ImplicitInference
