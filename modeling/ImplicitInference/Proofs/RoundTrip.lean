import ImplicitInference.Constraint.Document
import ImplicitInference.Diagnostic.Document
import ImplicitInference.Node.Document
import ImplicitInference.Proofs.Signature
import ImplicitInference.Proofs.Spelling
import ImplicitInference.Proofs.Traversal

/-!
Documents are read back. The spellings of values, trees, constraints and diagnostics are made of the
spellings of their layers; a tree need not have its null decorations. What is written is a spelling, and
every spelling is read as what it spells. If the numbers are finite it is a document that a text can
hold.
-/

namespace ImplicitInference

section Values

namespace Value

def Ordered (v : Value) : Prop := v.Within ⟨fun _ => True, Form.Ordered⟩

/-- All numbers are finite, and all positions are 64-bit words. -/
def Finite (v : Value) : Prop := v.Within ⟨fun _ => True, Form.Finite⟩

theorem words_clear : words.Clear := ⟨by decide, by decide, nofun⟩

inductive Spells : Value → Json → Prop
  | var {name : String} {j : Json} :
      Json.IsVariant "freeVariable" (.string name) j → Spells (var name) j
  | term {pairs : Form (Value × Json)} {j : Json} : (∀ p ∈ pairs.children, Spells p.1 p.2) →
      (pairs.map Prod.snd).Spells words j → Spells (term (pairs.map Prod.fst)) j

theorem spells_encode (v : Value) : v.Spells v.encode := by
  induction v using Value.induction with
  | var name =>
    refine .var (.inl ?_)
    simp [encode]
  | term form ih =>
    have hparts : ∀ p ∈ (form.map fun v => (v, v.encode)).children, p.1.Spells p.2 := by
      rw [Form.children_map]
      exact List.forall_mem_map.mpr ih
    have hencode : (term form).encode =
        Form.encode words ((form.map fun v => (v, v.encode)).map Prod.snd) := by
      rw [encode, fold_term, Form.map_map]
      rfl
    have hspells := Spells.term hparts (Form.spells_encode words _)
    rw [← hencode, Form.map_map] at hspells
    have hfst : (Prod.fst ∘ fun v : Value => (v, v.encode)) = id := rfl
    rwa [hfst, Form.map_id] at hspells

theorem within_pairs {sig : Signature} {pairs : Form (Value × Json)}
    (h : (term (pairs.map Prod.fst)).Within sig) :
    sig.layers pairs.outline ∧ ∀ p ∈ pairs.children, p.1.Within sig := by
  rw [within_term, Form.outline_map, Form.children_map, List.forall_mem_map] at h
  exact h

theorem Spells.decodeWithin {v : Value} {j : Json} (h : v.Spells j) (hordered : v.Ordered) {n : Nat}
    (hn : j.height ≤ n) : Value.decodeWithin n .inPlace j = some v := by
  induction h generalizing n with
  | @var name j hvariant =>
    have hlower := hvariant.height_lt
    obtain _ | n := n
    · omega
    simp [Value.decodeWithin, hvariant.variant?, Json.text?]
  | @term pairs j hparts hspells ih =>
    obtain ⟨tag, content, hcontent, hvariant⟩ := hspells
    have hlower := hvariant.height_lt
    obtain _ | n := n
    · omega
    obtain ⟨hlayer, hchildren⟩ := within_pairs hordered
    have htag : tag ≠ "freeVariable" :=
      (show ∀ tag ∈ words.tags, tag ≠ "freeVariable" by decide) tag hcontent.tag_mem
    have hparts : ∀ p ∈ pairs.children, Value.decodeWithin n .inPlace p.2 = some p.1 := by
      intro p hp
      have hchild := hcontent.height_lt (Form.mem_children_map hp)
      exact ih p hp (hchildren p hp) (by omega)
    have hread := Form.decode_content words_clear ((Form.ordered_map _ _).mp hlayer) hparts hcontent
    simp [Value.decodeWithin, hvariant.variant?, htag, hread]

theorem Spells.writable {v : Value} {j : Json} (h : v.Spells j) (hfinite : v.Finite) :
    j.Writable := by
  induction h with
  | @var name j hvariant => exact hvariant.writable (.string name)
  | @term pairs j hparts hspells ih =>
    obtain ⟨tag, content, hcontent, hvariant⟩ := hspells
    obtain ⟨hlayer, hchildren⟩ := within_pairs hfinite
    refine hvariant.writable (hcontent.writable ?_ ?_)
    · rwa [Form.finite_map, ← Form.finite_map fun _ => ()]
    · rw [Form.children_map]
      exact List.forall_mem_map.mpr fun p hp => ih p hp (hchildren p hp)

end Value

end Values

section Trees

namespace Expr

variable {α β : Type}

def Ordered : Expr α → Prop
  | form layer => layer.Ordered
  | native implementations => Fields.Sorted implementations
  | _ => True

def Finite : Expr α → Prop
  | form layer => layer.Finite
  | _ => True

theorem ordered_map (f : α → β) (e : Expr α) : (e.map f).Ordered ↔ e.Ordered := by
  cases e with
  | form layer => exact Form.ordered_map f layer
  | _ => rfl

theorem finite_map (f : α → β) (e : Expr α) : (e.map f).Finite ↔ e.Finite := by
  cases e with
  | form layer => exact Form.finite_map f layer
  | _ => rfl

inductive Content : Expr Json → String → Json → Prop
  | full {e : Expr Json} {tag : String} {content : Json} :
      Node.encodeExpr e = .tagged tag content → Content e tag content
  | layer {layer : Form Json} {tag : String} {content : Json} :
      layer.Content Node.words tag content → Content (form layer) tag content

def Spells (e : Expr Json) (j : Json) : Prop :=
  ∃ tag content, e.Content tag content ∧ Json.IsVariant tag content j

theorem spells_encode (e : Expr Json) : e.Spells (Node.encodeExpr e) := by
  cases e with
  | form layer =>
    obtain ⟨tag, content, h⟩ := layer.exists_encode Node.words
    exact ⟨tag, content, .full h, .inl h⟩
  | _ => exact ⟨_, _, .full rfl, .inl rfl⟩

theorem content_form_iff {layer : Form Json} {tag : String} {content : Json} :
    Content (form layer) tag content ↔ layer.Content Node.words tag content := by
  constructor
  · intro h
    cases h with
    | full h => exact .full h
    | layer h => exact h
  · exact .layer

theorem Content.height_lt {e : Expr Json} {tag : String} {content j : Json}
    (h : e.Content tag content) (hj : j ∈ e.children) : j.height < content.height := by
  cases e with
  | form layer => exact (content_form_iff.mp h).height_lt hj
  | binding name value body =>
    obtain ⟨h⟩ := h
    obtain ⟨rfl, rfl⟩ := Json.tagged_inj.mp h
    exact Json.height_member_lt (List.mem_cons_of_mem _ hj)
  | _ => cases hj

theorem Content.writable {e : Expr Json} {tag : String} {content : Json} (h : e.Content tag content)
    (hfinite : e.Finite) (hchildren : ∀ j ∈ e.children, j.Writable) : content.Writable := by
  cases e with
  | form layer => exact (content_form_iff.mp h).writable hfinite hchildren
  | identifier name =>
    obtain ⟨h⟩ := h
    obtain ⟨rfl, rfl⟩ := Json.tagged_inj.mp h
    exact .string name
  | binding name value body =>
    obtain ⟨h⟩ := h
    obtain ⟨rfl, rfl⟩ := Json.tagged_inj.mp h
    exact .object (List.forall_mem_cons.mpr ⟨.string name, hchildren⟩)
  | native implementations =>
    obtain ⟨h⟩ := h
    obtain ⟨rfl, rfl⟩ := Json.tagged_inj.mp h
    refine .object (List.forall_mem_singleton.mpr (.object ?_))
    rw [List.map_map]
    exact List.forall_mem_map.mpr fun code _ => .string code.2

end Expr

namespace Node

theorem words_clear : words.Clear := by
  refine ⟨by decide, by decide, ?_⟩
  rintro _ _ ⟨⟩
  decide

theorem decodeExpr_content {α : Type} {child : Json.Access → Json → Option α}
    {pairs : Expr (α × Json)} {tag : String} {content j : Json} (hordered : pairs.Ordered)
    (hchild : ∀ p ∈ pairs.children, child .inPlace p.2 = some p.1)
    (h : (pairs.map Prod.snd).Content tag content) (hvariant : Json.IsVariant tag content j) :
    decodeExpr child .inPlace j = some (pairs.map Prod.fst) := by
  simp only [decodeExpr, hvariant.variant?, Option.bind_eq_bind, Option.bind_some]
  cases pairs with
  | form layer =>
    have hcontent := Expr.content_form_iff.mp h
    obtain ⟨hidentifier, hbinding, hnative⟩ :=
      (show ∀ tag ∈ words.tags, tag ≠ "identifier" ∧ tag ≠ "binding" ∧ tag ≠ "native" by decide)
        tag hcontent.tag_mem
    rw [if_neg hidentifier, if_neg hbinding, if_neg hnative,
      Form.decode_content words_clear hordered hchild hcontent]
    rfl
  | identifier name =>
    obtain ⟨h⟩ := h
    obtain ⟨rfl, rfl⟩ := Json.tagged_inj.mp h
    rfl
  | binding name value body =>
    obtain ⟨h⟩ := h
    obtain ⟨rfl, rfl⟩ := Json.tagged_inj.mp h
    have hvalue := hchild value (by simp [Expr.children])
    have hbody := hchild body (by simp [Expr.children])
    simp [decodeBinding, Json.fields?, Json.members?, Json.member?, Json.text?, hvalue, hbody,
      Expr.map]
  | native implementations =>
    obtain ⟨h⟩ := h
    obtain ⟨rfl, rfl⟩ := Json.tagged_inj.mp h
    have hread : (Json.object (implementations.map fun code => (code.1, .string code.2))).map?
        Json.text? = some (implementations.map fun code => (code.1, code.2)) :=
      map?_object Json.string id hordered fun _ _ => rfl
    simp [decodeNative, Json.fields?, Json.members?, Json.member?, hread, Expr.map]

def Ordered (tree : Node Unit) : Prop := ∀ n ∈ tree.toList, n.expression.Ordered

def Finite (tree : Node Unit) : Prop := ∀ n ∈ tree.toList, n.expression.Finite

/-- The spellings of a tree: in each of its nodes, and in each place again. The decoration of a node
is null or left out. -/
inductive Spells : Node Unit → Json → Prop
  | mk {pairs : Expr (Node Unit × Json)} {expression j : Json} :
      (∀ p ∈ pairs.children, Spells p.1 p.2) → (pairs.map Prod.snd).Spells expression →
      (j = .object [("expression", expression), ("decoration", .null)] ∨
        j = .object [("expression", expression)]) →
      Spells ⟨pairs.map Prod.fst, ()⟩ j

theorem spells_encode (tree : Node Unit) : tree.Spells tree.encodePlain := by
  induction tree using Node.induction with
  | mk e d ih =>
    have hparts : ∀ p ∈ (e.map fun n => (n, n.encodePlain)).children, p.1.Spells p.2 := by
      rw [Expr.children_map]
      exact List.forall_mem_map.mpr ih
    have hspells := Spells.mk hparts (Expr.spells_encode _) (.inl rfl)
    have hfst : (Prod.fst ∘ fun n : Node Unit => (n, n.encodePlain)) = id := rfl
    rw [Expr.map_map, Expr.map_map, hfst, Expr.map_id] at hspells
    rw [encodePlain, encode, fold_mk]
    exact hspells

theorem Spells.decodeWithin {tree : Node Unit} {j : Json} (h : tree.Spells j)
    (hordered : tree.Ordered) {n : Nat} (hn : j.height ≤ n) :
    Node.decodeWithin plainDecoration n .inPlace j = some tree := by
  induction h generalizing n with
  | @mk pairs expression j hparts hspells hj ih =>
    obtain ⟨tag, content, hcontent, hvariant⟩ := hspells
    have hexpression : expression.height < j.height := by
      rcases hj with rfl | rfl <;> exact Json.height_member_lt List.mem_cons_self
    have hlower := hvariant.height_lt
    obtain _ | n := n
    · omega
    have hread : ∀ p ∈ pairs.children,
        Node.decodeWithin plainDecoration n .inPlace p.2 = some p.1 := by
      intro p hp
      have hchild := hcontent.height_lt (Expr.mem_children_map hp)
      refine ih p hp (fun m hm => hordered m ?_) (by omega)
      exact mem_toList_of_child (Expr.mem_children_map hp) hm
    have hroot : pairs.Ordered := (Expr.ordered_map _ _).mp (hordered _ (mem_toList_self _))
    have hlayer := decodeExpr_content hroot hread hcontent hvariant
    rcases hj with rfl | rfl <;>
      simp [Node.decodeWithin, Json.record?, Json.fields?, Json.members?, Json.member?, hlayer,
        plainDecoration, Json.isNothing]

theorem Spells.writable {tree : Node Unit} {j : Json} (h : tree.Spells j) (hfinite : tree.Finite) :
    j.Writable := by
  induction h with
  | @mk pairs expression j hparts hspells hj ih =>
    obtain ⟨tag, content, hcontent, hvariant⟩ := hspells
    have hroot : pairs.Finite := (Expr.finite_map _ _).mp (hfinite _ (mem_toList_self _))
    have hexpression : expression.Writable := by
      refine hvariant.writable (hcontent.writable ((Expr.finite_map _ _).mpr hroot) ?_)
      rw [Expr.children_map]
      refine List.forall_mem_map.mpr fun p hp => ih p hp fun m hm => hfinite m ?_
      exact mem_toList_of_child (Expr.mem_children_map hp) hm
    rcases hj with rfl | rfl
    · exact Json.writable_pair hexpression .null
    · exact .object (List.forall_mem_singleton.mpr hexpression)

end Node

end Trees

section Reports

namespace Provenance

def Spells : Provenance → Json → Prop
  | shape kind, j => Json.IsVariant "shape" kind.encode j
  | convergence, j => Json.IsBare "convergence" j
  | deferral, j => Json.IsBare "deferral" j
  | implicitSearch, j => Json.IsBare "implicitSearch" j

theorem spells_encode (provenance : Provenance) : provenance.Spells provenance.encode := by
  cases provenance <;> exact .inl rfl

theorem Spells.decode {provenance : Provenance} {j : Json} (h : provenance.Spells j) :
    Provenance.decode j = some provenance := by
  cases provenance with
  | shape kind =>
    have hkind : Kind.ofName? kind.name = some kind := by cases kind <;> rfl
    simp [Provenance.decode, Json.IsVariant.variant? h, Kind.decode, Kind.encode, Json.choice?, hkind]
  | convergence | deferral | implicitSearch => rcases h with rfl | rfl <;> rfl

theorem Spells.writable {provenance : Provenance} {j : Json} (h : provenance.Spells j) :
    j.Writable := by
  have hbare : ∀ tag, Json.IsBare tag j → j.Writable := by
    rintro tag (rfl | rfl)
    · exact .object (List.forall_mem_singleton.mpr (.string tag))
    · exact .array (List.forall_mem_cons.mpr ⟨.string tag, List.forall_mem_singleton.mpr .null⟩)
  cases provenance with
  | shape kind => exact Json.IsVariant.writable h (.string kind.name)
  | convergence | deferral | implicitSearch => exact hbare _ h

end Provenance

namespace Constraint

def Spells (c : Constraint) (j : Json) : Prop :=
  ∃ value provenance, c.value.Spells value ∧ c.provenance.Spells provenance ∧
    j = .object [("operator", c.relation.encode), ("from", .string c.var), ("to", value),
      ("origin", .string c.origin), ("inferrer", provenance)]

theorem spells_encode (c : Constraint) : c.Spells c.encode :=
  ⟨c.value.encode, c.provenance.encode, c.value.spells_encode, c.provenance.spells_encode, rfl⟩

theorem Spells.decode {c : Constraint} {j : Json} (h : c.Spells j) (hordered : c.value.Ordered) :
    Constraint.decode j = some c := by
  obtain ⟨value, provenance, hvalue, hprovenance, rfl⟩ := h
  have hrelation : Relation.decode c.relation.encode = some c.relation := by
    cases c.relation <;> rfl
  have hread : Value.decode value = some c.value := hvalue.decodeWithin hordered (Nat.le_refl _)
  simp [Constraint.decode, Json.record?, Json.fields?, Json.members?, Json.member?, Json.text?,
    hrelation, hread, hprovenance.decode]

theorem Spells.writable {c : Constraint} {j : Json} (h : c.Spells j) (hfinite : c.value.Finite) :
    j.Writable := by
  obtain ⟨value, provenance, hvalue, hprovenance, rfl⟩ := h
  refine .object ?_
  simp only [List.map_cons, List.map_nil, List.forall_mem_cons]
  exact ⟨.string _, .string _, hvalue.writable hfinite, .string _, hprovenance.writable,
    List.forall_mem_nil _⟩

end Constraint

namespace Diagnostic

def values : Diagnostic → List Value
  | typesAreDifferent left right | typeValuesAreDifferent left right => [left, right]
  | unresolvedImplicits implicits => implicits
  | _ => []

def counts : Diagnostic → List Nat
  | parameterCountsAreDifferent left right | patternCountsAreDifferent left right => [left, right]
  | reductionLimit limit => [limit]
  | ambiguousImplicits combinations implicits => [combinations, implicits]
  | _ => []

def Ordered (d : Diagnostic) : Prop := ∀ v ∈ d.values, v.Ordered

def Finite (d : Diagnostic) : Prop := (∀ v ∈ d.values, v.Finite) ∧ ∀ n ∈ d.counts, n < 2 ^ 64

inductive Spells : Diagnostic → Json → Prop
  | types {left right : Value} {a b j : Json} : left.Spells a → right.Spells b →
      Json.IsVariant "typesAreDifferent" (encodeSides a b) j →
      Spells (typesAreDifferent left right) j
  | typeValues {left right : Value} {a b j : Json} : left.Spells a → right.Spells b →
      Json.IsVariant "typeValuesAreDifferent" (encodeSides a b) j →
      Spells (typeValuesAreDifferent left right) j
  | unresolved {pairs : List (Value × Json)} {j : Json} : (∀ p ∈ pairs, p.1.Spells p.2) →
      Json.IsVariant "unresolvedImplicits"
        (.object [("implicits", .array (pairs.map Prod.snd))]) j →
      Spells (unresolvedImplicits (pairs.map Prod.fst)) j
  | plain {d : Diagnostic} {tag : String} {content j : Json} : d.values = [] →
      d.encode = .tagged tag content → Json.IsVariant tag content j → Spells d j

theorem spells_encode (d : Diagnostic) : d.Spells d.encode := by
  cases d with
  | typesAreDifferent left right => exact .types left.spells_encode right.spells_encode (.inl rfl)
  | typeValuesAreDifferent left right =>
    exact .typeValues left.spells_encode right.spells_encode (.inl rfl)
  | unresolvedImplicits implicits =>
    have hpairs : ∀ p ∈ implicits.map fun v => (v, v.encode), p.1.Spells p.2 :=
      List.forall_mem_map.mpr fun v _ => v.spells_encode
    have hspells := Spells.unresolved hpairs (.inl rfl)
    rw [List.map_map, List.map_map] at hspells
    have hfst : (Prod.fst ∘ fun v : Value => (v, v.encode)) = id := rfl
    rw [hfst, List.map_id] at hspells
    exact hspells
  | _ => exact .plain rfl rfl (.inl rfl)

theorem decodeSides_eq {α : Type} {side : Json → Option α} {make : α → α → Diagnostic} {a b : Json}
    {left right : α} (ha : side a = some left) (hb : side b = some right) :
    decodeSides side make (encodeSides a b) = some (make left right) := by
  simp [decodeSides, encodeSides, Json.fields?, Json.members?, Json.member?, ha, hb]

theorem decode_of_variant {tag : String} {content j : Json} (h : Json.IsVariant tag content j) :
    Diagnostic.decode j =
      if tag = "typesAreDifferent" then
        decodeSides (Value.decodeFrom .inPlace) typesAreDifferent content
      else if tag = "typeValuesAreDifferent" then
        decodeSides (Value.decodeFrom .inPlace) typeValuesAreDifferent content
      else if tag = "unevenProperties" then
        decodeSides (Json.list? Json.text?) unevenProperties content
      else if tag = "parameterCountsAreDifferent" then
        decodeSides Json.natural? parameterCountsAreDifferent content
      else if tag = "patternCountsAreDifferent" then
        decodeSides Json.natural? patternCountsAreDifferent content
      else if tag = "reductionLimit" then content.natural?.map reductionLimit
      else if tag = "unresolvedImplicits" then
        decodeUnresolved (Value.decodeFrom .inPlace) content
      else if tag = "ambiguousImplicits" then decodeAmbiguous content
      else none := by
  rw [Diagnostic.decode, decodeFrom, h.variant?, Option.bind_eq_bind, Option.bind_some,
    Option.bind_eq_bind, Option.bind_some]
  split <;> simp_all

theorem Spells.decode {d : Diagnostic} {j : Json} (h : d.Spells j) (hordered : d.Ordered) :
    Diagnostic.decode j = some d := by
  have hread : ∀ {v : Value} {j : Json}, v ∈ d.values → v.Spells j →
      Value.decodeFrom .inPlace j = some v :=
    fun hv h => h.decodeWithin (hordered _ hv) (Nat.le_refl _)
  cases h with
  | types ha hb hvariant =>
    have ha := hread (by simp [values]) ha
    have hb := hread (by simp [values]) hb
    simp [decode_of_variant hvariant, decodeSides_eq ha hb]
  | typeValues ha hb hvariant =>
    have ha := hread (by simp [values]) ha
    have hb := hread (by simp [values]) hb
    simp [decode_of_variant hvariant, decodeSides_eq ha hb]
  | unresolved hpairs hvariant =>
    have hlist := list?_array Prod.snd Prod.fst fun p hp =>
      hread (List.mem_map_of_mem hp) (hpairs p hp)
    simp [decode_of_variant hvariant, decodeUnresolved, Json.fields?, Json.members?, Json.member?,
      hlist]
  | plain hvalues hencode hvariant =>
    rw [decode_of_variant hvariant]
    cases d with
    | typesAreDifferent left right => cases hvalues
    | typeValuesAreDifferent left right => cases hvalues
    | unresolvedImplicits implicits =>
      obtain rfl : implicits = [] := hvalues
      obtain ⟨rfl, rfl⟩ := Json.tagged_inj.mp hencode
      simp [decodeUnresolved, Json.fields?, Json.members?, Json.member?, Json.list?, Json.items?]
    | unevenProperties left right =>
      obtain ⟨rfl, rfl⟩ := Json.tagged_inj.mp hencode
      have hnames : ∀ names : List String, (encodeNames names).list? Json.text? = some names := by
        intro names
        have hlist : (encodeNames names).list? Json.text? = some (names.map id) :=
          list?_array Json.string id fun _ _ => rfl
        rwa [List.map_id] at hlist
      simp [decodeSides_eq (hnames left) (hnames right)]
    | parameterCountsAreDifferent left right =>
      obtain ⟨rfl, rfl⟩ := Json.tagged_inj.mp hencode
      simp [decodeSides, encodeSides, Json.fields?, Json.members?, Json.member?, Json.natural?]
    | patternCountsAreDifferent left right =>
      obtain ⟨rfl, rfl⟩ := Json.tagged_inj.mp hencode
      simp [decodeSides, encodeSides, Json.fields?, Json.members?, Json.member?, Json.natural?]
    | reductionLimit limit =>
      obtain ⟨rfl, rfl⟩ := Json.tagged_inj.mp hencode
      simp [Json.natural?]
    | ambiguousImplicits combinations implicits =>
      obtain ⟨rfl, rfl⟩ := Json.tagged_inj.mp hencode
      simp [decodeAmbiguous, Json.fields?, Json.members?, Json.member?, Json.natural?]

theorem Spells.writable {d : Diagnostic} {j : Json} (h : d.Spells j) (hfinite : d.Finite) :
    j.Writable := by
  obtain ⟨hvalues, hcounts⟩ := hfinite
  cases h with
  | types ha hb hvariant =>
    exact hvariant.writable (Json.writable_pair (ha.writable (hvalues _ (by simp [values])))
      (hb.writable (hvalues _ (by simp [values]))))
  | typeValues ha hb hvariant =>
    exact hvariant.writable (Json.writable_pair (ha.writable (hvalues _ (by simp [values])))
      (hb.writable (hvalues _ (by simp [values]))))
  | unresolved hpairs hvariant =>
    refine hvariant.writable (.object (List.forall_mem_singleton.mpr (.array ?_)))
    exact List.forall_mem_map.mpr fun p hp =>
      (hpairs p hp).writable (hvalues p.1 (List.mem_map_of_mem hp))
  | plain hnone hencode hvariant =>
    refine hvariant.writable ?_
    cases d with
    | typesAreDifferent left right => cases hnone
    | typeValuesAreDifferent left right => cases hnone
    | unresolvedImplicits implicits =>
      obtain rfl : implicits = [] := hnone
      obtain ⟨rfl, rfl⟩ := Json.tagged_inj.mp hencode
      exact .object (List.forall_mem_singleton.mpr (.array (List.forall_mem_nil _)))
    | unevenProperties left right =>
      obtain ⟨rfl, rfl⟩ := Json.tagged_inj.mp hencode
      have hnames : ∀ names : List String, (encodeNames names).Writable := fun names =>
        .array (List.forall_mem_map.mpr fun name _ => .string name)
      exact Json.writable_pair (hnames left) (hnames right)
    | parameterCountsAreDifferent left right | patternCountsAreDifferent left right =>
      obtain ⟨rfl, rfl⟩ := Json.tagged_inj.mp hencode
      exact Json.writable_pair (.natural (hcounts left (by simp [counts])))
        (.natural (hcounts right (by simp [counts])))
    | reductionLimit limit =>
      obtain ⟨rfl, rfl⟩ := Json.tagged_inj.mp hencode
      exact .natural (hcounts limit (by simp [counts]))
    | ambiguousImplicits combinations implicits =>
      obtain ⟨rfl, rfl⟩ := Json.tagged_inj.mp hencode
      exact Json.writable_pair (.natural (hcounts combinations (by simp [counts])))
        (.natural (hcounts implicits (by simp [counts])))

end Diagnostic

end Reports

/-- What is written is a spelling, and every spelling is read back, provided that maps are in the order
of their names. If the numbers are finite and the counts are 64-bit words, it is a document that a text
can hold. -/
theorem spellings_are_read_back :
    (∀ v : Value, v.Ordered → v.Spells v.encode ∧
      ∀ j, v.Spells j → Value.decode j = some v ∧ (v.Finite → j.Writable)) ∧
    (∀ tree : Node Unit, tree.Ordered → tree.Spells tree.encodePlain ∧
      ∀ j, tree.Spells j → Node.decodePlain j = some tree ∧ (tree.Finite → j.Writable)) ∧
    (∀ c : Constraint, c.value.Ordered → c.Spells c.encode ∧
      ∀ j, c.Spells j → Constraint.decode j = some c ∧ (c.value.Finite → j.Writable)) ∧
    (∀ d : Diagnostic, d.Ordered → d.Spells d.encode ∧
      ∀ j, d.Spells j → Diagnostic.decode j = some d ∧ (d.Finite → j.Writable)) := by
  refine ⟨fun v hordered => ⟨v.spells_encode, fun j h => ⟨?_, h.writable⟩⟩,
    fun tree hordered => ⟨tree.spells_encode, fun j h => ⟨?_, h.writable⟩⟩,
    fun c hordered => ⟨c.spells_encode, fun j h => ⟨h.decode hordered, h.writable⟩⟩,
    fun d hordered => ⟨d.spells_encode, fun j h => ⟨h.decode hordered, h.writable⟩⟩⟩
  · exact h.decodeWithin hordered (Nat.le_refl _)
  · exact h.decodeWithin hordered (Nat.le_refl _)

def wrapper : Node Unit :=
  ⟨.form (.function .explicit ⟨.identifier "x", ()⟩
    ⟨.form (.record [("a", ⟨.identifier "x", ()⟩)]), ()⟩), ()⟩

/-- A document of it with arrays for some variants, where little more is said than is needed. -/
def wrapperDocument : Json :=
  .object [("expression", .array [.string "function", .object
    [("parameter", .object [("expression", .array [.string "identifier", .string "x"])]),
      ("body", .object
        [("expression", .tagged "record" (.object
          [("a", .object [("expression", .tagged "identifier" (.string "x"))])])),
        ("decoration", .null)])]])]

theorem wrapper_spellings_are_read_back :
    wrapper.Ordered ∧ wrapper.Spells wrapperDocument ∧
      Node.decodePlain wrapperDocument = some wrapper := by
  have hordered : wrapper.Ordered := by
    intro n hn
    simp only [wrapper, Node.toList_mk, Expr.children, Form.children, List.map_cons, List.map_nil,
      List.flatMap_cons, List.flatMap_nil, List.append_nil, List.mem_cons, List.mem_append,
      List.not_mem_nil, or_false] at hn
    rcases hn with rfl | rfl | rfl | rfl
    · trivial
    · trivial
    · exact List.pairwise_singleton _ _
    · trivial
  have hname : ∀ j, Json.IsVariant "identifier" (.string "x") j →
      Node.Spells ⟨.identifier "x", ()⟩ (.object [("expression", j)]) := fun j hj =>
    @Node.Spells.mk (.identifier "x") j _ (List.forall_mem_nil _) ⟨_, _, .full rfl, hj⟩ (.inr rfl)
  have hbody := @Node.Spells.mk (.form (.record [("a", ⟨.identifier "x", ()⟩, _)])) _ _
    (List.forall_mem_singleton.mpr (hname _ (.inl rfl))) ⟨_, _, .full rfl, .inl rfl⟩ (.inl rfl)
  have hspells : wrapper.Spells wrapperDocument :=
    @Node.Spells.mk (.form (.function .explicit (⟨.identifier "x", ()⟩, _) (_, _))) _ _
      (List.forall_mem_cons.mpr ⟨hname _ (.inr rfl), List.forall_mem_singleton.mpr hbody⟩)
      ⟨_, _, .layer (.implied _ _ rfl), .inr rfl⟩ (.inr rfl)
  exact ⟨hordered, hspells,
    ((spellings_are_read_back.2.1 wrapper hordered).2 wrapperDocument hspells).1⟩

end ImplicitInference
