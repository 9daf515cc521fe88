import ImplicitInference.Form.Document
import Mathlib.Algebra.GroupWithZero.Nat
import Mathlib.Data.List.Induction

/-!
The spellings of a layer. A variant may be written as an array of its tag and its content, and that a
function is explicit need not be said. A layer is read with what its vocabulary says: if the words that
stand side by side are different, every spelling of it is read back, over children that are read back.
A child is lower than the document that it stands in, which is what the bound for reading needs.
-/

namespace ImplicitInference

namespace Json

/-- A variant with content is written as an object, or as an array of its tag and its content. -/
def IsVariant (tag : String) (content j : Json) : Prop :=
  j = tagged tag content ∨ j = array [string tag, content]

def IsBare (tag : String) (j : Json) : Prop := j = bare tag ∨ j = array [string tag, null]

theorem tagged_inj {tag tag' : String} {content content' : Json} :
    tagged tag content = tagged tag' content' ↔ tag = tag' ∧ content = content' := by
  simp [tagged]

theorem IsVariant.variant? {tag : String} {content j : Json} (h : IsVariant tag content j)
    (tags : List String) : j.variant? .inPlace tags = some ⟨tag, some content, .inPlace⟩ := by
  rcases h with rfl | rfl
  · simp [Json.variant?, tagged, member?, choice?, contentFirst]
  · simp [Json.variant?, frontTag?]

section Height

theorem le_itemsHeight {items : List Json} {j : Json} (h : j ∈ items) :
    j.height ≤ itemsHeight items := by
  induction items with
  | nil => cases h
  | cons first items ih =>
    rw [itemsHeight]
    rcases List.mem_cons.mp h with rfl | h
    · omega
    · have := ih h
      omega

theorem le_membersHeight {members : List (String × Json)} {j : Json}
    (h : j ∈ members.map Prod.snd) : j.height ≤ membersHeight members := by
  induction members with
  | nil => cases h
  | cons first members ih =>
    obtain ⟨name, content⟩ := first
    rw [membersHeight]
    rcases List.mem_cons.mp h with rfl | h
    · exact Nat.le_max_left _ _
    · have := ih h
      omega

theorem height_item_lt {items : List Json} {j : Json} (h : j ∈ items) :
    j.height < (array items).height := by
  rw [height]
  exact Nat.lt_succ_of_le (le_itemsHeight h)

theorem height_member_lt {members : List (String × Json)} {j : Json}
    (h : j ∈ members.map Prod.snd) : j.height < (object members).height := by
  rw [height]
  exact Nat.lt_succ_of_le (le_membersHeight h)

theorem IsVariant.height_lt {tag : String} {content j : Json} (h : IsVariant tag content j) :
    content.height < j.height := by
  rcases h with rfl | rfl
  · exact height_member_lt (by simp)
  · exact height_item_lt (by simp)

end Height

/-- A document that a text can hold: its numbers are finite, its counts are 64-bit words, and all of
it can be taken up. -/
inductive Writable : Json → Prop
  | null : Writable null
  | bool (b : Bool) : Writable (bool b)
  | natural {n : Nat} : n < 2 ^ 64 → Writable (natural n)
  | real {x : Number} : x.isFinite → Writable (real x)
  | string (s : String) : Writable (string s)
  | array {items : List Json} : (∀ j ∈ items, Writable j) → Writable (array items)
  | object {members : List (String × Json)} :
      (∀ j ∈ members.map Prod.snd, Writable j) → Writable (object members)

theorem writable_pair {name other : String} {j k : Json} (hj : j.Writable) (hk : k.Writable) :
    (Json.object [(name, j), (other, k)]).Writable :=
  .object (List.forall_mem_cons.mpr ⟨hj, List.forall_mem_singleton.mpr hk⟩)

theorem IsVariant.writable {tag : String} {content j : Json} (h : IsVariant tag content j)
    (hcontent : content.Writable) : j.Writable := by
  rcases h with rfl | rfl
  · exact writable_pair (.string tag) hcontent
  · exact .array (List.forall_mem_cons.mpr ⟨.string tag, List.forall_mem_singleton.mpr hcontent⟩)

end Json

section Fields

variable {α : Type}

theorem Fields.insert_of_forall_lt {name : String} {a : α} {fields : List (String × α)}
    (h : ∀ field ∈ fields, field.1 < name) : insert name a fields = fields ++ [(name, a)] := by
  induction fields with
  | nil => rfl
  | cons first rest ih =>
    obtain ⟨hfirst, hrest⟩ := List.forall_mem_cons.mp h
    rw [insert, if_neg (String.lt_asymm hfirst), if_neg (String.ne_of_lt hfirst).symm, ih hrest]
    rfl

/-- Fields that are in order stay as they are. -/
theorem Fields.ofList_of_sorted {fields : List (String × α)} (h : Sorted fields) :
    ofList fields = fields := by
  induction fields using List.reverseRecOn with
  | nil => rfl
  | append_singleton fields last ih =>
    obtain ⟨hfields, -, hlast⟩ := List.pairwise_append.mp h
    have hbefore := ih hfields
    rw [ofList] at hbefore ⊢
    rw [List.foldl_append, hbefore, List.foldl_cons, List.foldl_nil]
    exact insert_of_forall_lt fun field hfield => hlast field hfield last List.mem_cons_self

end Fields

section Reading

variable {α β γ : Type}

theorem mapM_pairs {f : γ → Option β} {g : α → γ} {make : α → β} {items : List α}
    (h : ∀ a ∈ items, f (g a) = some (make a)) : (items.map g).mapM f = some (items.map make) := by
  induction items with
  | nil => rfl
  | cons a items ih =>
    obtain ⟨ha, hrest⟩ := List.forall_mem_cons.mp h
    rw [List.map_cons, List.mapM_cons, ha, ih hrest]
    rfl

theorem list?_array {item : Json → Option β} (write : α → Json) (make : α → β) {items : List α}
    (h : ∀ a ∈ items, item (write a) = some (make a)) :
    (Json.array (items.map write)).list? item = some (items.map make) := mapM_pairs h

/-- A map that is in order is read back with its contents. -/
theorem map?_object {item : Json → Option β} (write : α → Json) (make : α → β)
    {fields : List (String × α)} (hordered : Fields.Sorted fields)
    (h : ∀ field ∈ fields, item (write field.2) = some (make field.2)) :
    (Json.object (fields.map fun field => (field.1, write field.2))).map? item =
      some (fields.map fun field => (field.1, make field.2)) := by
  have hsorted : Fields.Sorted (fields.map fun field => (field.1, make field.2)) :=
    List.pairwise_map.mpr hordered
  have hread : (fields.map fun field => (field.1, write field.2)).mapM
      (fun member => (item member.2).map fun a => (member.1, a)) =
        some (fields.map fun field => (field.1, make field.2)) :=
    mapM_pairs fun field hfield => by rw [h field hfield]; rfl
  simp only [Json.map?, Json.members?, Option.bind_eq_bind, Option.bind_some, hread]
  rw [Fields.ofList_of_sorted hsorted]

theorem decodePair_object {first second : String} (hne : first ≠ second) (f : Json → Option α)
    (g : Json → Option β) {a b : Json} :
    Form.decodePair first second f g (.object [(first, a), (second, b)]) =
      do return (← f a, ← g b) := by
  simp [Form.decodePair, Json.fields?, Json.members?, Json.member?, hne, hne.symm]

theorem decodeArm_object {child : Json → Option α} {a b : Json} {test result : α}
    (ha : child a = some test) (hb : child b = some result) :
    Form.decodeArm child (.object [("test", a), ("value", b)]) = some (test, result) := by
  simp [Form.decodeArm, Json.record?, Json.fields?, Json.members?, Json.member?, ha, hb]

section Flagged

variable {member : String} {child : Json → Option α} {a b : Json} {parameter body : α}
  (ha : child a = some parameter) (hb : child b = some body)

include ha hb

theorem decodeFlagged_full (hparameter : member ≠ "parameter") (hbody : member ≠ "body")
    (plicity : Plicity) :
    Form.decodeFlagged member child
        (.object [("parameter", a), ("body", b), (member, .bool (plicity = .implicit))]) =
      some (.function plicity parameter body) := by
  cases plicity <;> simp [Form.decodeFlagged, Json.fields?, Json.members?, Json.member?, Json.truth?,
    hparameter, hbody, hparameter.symm, hbody.symm, ha, hb]

theorem decodeFlagged_implied (hparameter : member ≠ "parameter") (hbody : member ≠ "body") :
    Form.decodeFlagged member child (.object [("parameter", a), ("body", b)]) =
      some (.function .explicit parameter body) := by
  simp [Form.decodeFlagged, Json.fields?, Json.members?, Json.member?, hparameter.symm, hbody.symm,
    ha, hb]

end Flagged

end Reading

def FunctionWords.list : FunctionWords → List String
  | tags explicit implicit => [implicit, explicit]
  | flag tag _ => [tag]

def Vocabulary.tags (words : Vocabulary) : List String :=
  words.function.list ++
    [words.choice, words.position, words.property, words.dual, words.data, words.application,
      words.record, words.symbol, words.string, words.boolean, words.number]

structure Vocabulary.Clear (words : Vocabulary) : Prop where
  tags : words.tags.Nodup
  dataName : words.dataName ≠ "parameters"
  member : ∀ tag member, words.function = .flag tag member → member ≠ "parameter" ∧ member ≠ "body"

namespace Form

variable {α β : Type}

def Ordered : Form α → Prop
  | record fields => Fields.Sorted fields
  | _ => True

def Finite : Form α → Prop
  | literal (.number x) => x.isFinite
  | read _ (.position index) => index < 2 ^ 64
  | _ => True

theorem ordered_map (f : α → β) (form : Form α) : (form.map f).Ordered ↔ form.Ordered := by
  cases form with
  | record fields => simp [map, Ordered, Fields.Sorted, List.pairwise_map]
  | _ => rfl

theorem finite_map (f : α → β) (form : Form α) : (form.map f).Finite ↔ form.Finite := by
  cases form with
  | literal a => cases a <;> rfl
  | read source accessor => cases accessor <;> rfl
  | _ => rfl

/-- The tag and the content of a layer. That a function is explicit need not be said. -/
inductive Content (words : Vocabulary) : Form Json → String → Json → Prop
  | full {form : Form Json} {tag : String} {content : Json} :
      form.encode words = .tagged tag content → Content words form tag content
  | implied {tag member : String} (parameter body : Json) :
      words.function = .flag tag member →
      Content words (function .explicit parameter body) tag
        (.object [("parameter", parameter), ("body", body)])

def Spells (words : Vocabulary) (form : Form Json) (j : Json) : Prop :=
  ∃ tag content, Content words form tag content ∧ Json.IsVariant tag content j

variable {words : Vocabulary} {tag : String} {content : Json}

theorem exists_encode (words : Vocabulary) (form : Form Json) :
    ∃ tag content, form.encode words = .tagged tag content := by
  cases form with
  | literal a => cases a <;> exact ⟨_, _, rfl⟩
  | read source accessor => cases accessor <;> exact ⟨_, _, rfl⟩
  | function plicity parameter body =>
    rw [encode, encodeFunction.eq_def]
    split <;> exact ⟨_, _, rfl⟩
  | _ => exact ⟨_, _, rfl⟩

theorem spells_encode (words : Vocabulary) (form : Form Json) : form.Spells words (form.encode words) := by
  obtain ⟨tag, content, h⟩ := exists_encode words form
  exact ⟨tag, content, .full h, .inl h⟩

/-- Functions are looked for last. -/
theorem decode_of_mem_function (hwords : words.Clear) (htag : tag ∈ words.function.list)
    (child : Json → Option α) (content : Json) :
    decode words child tag content = decodeFunction words.function child tag content := by
  have hapart := (List.nodup_append.mp hwords.tags).2.2 tag htag
  simp only [List.forall_mem_cons] at hapart
  simp [decode, hapart]

/-- A function is read back with the plicity that its tag or its member tells. -/
theorem decode_function (hwords : words.Clear) {child : Json → Option α} {a b : Json}
    {parameter body : α} (ha : child a = some parameter) (hb : child b = some body)
    (plicity : Plicity) (h : encodeFunction words.function plicity a b = .tagged tag content) :
    decode words child tag content = some (function plicity parameter body) := by
  have hfunction := (List.nodup_append.mp hwords.tags).1
  have hmember := hwords.member
  have hread : tag ∈ words.function.list → decode words child tag content =
      decodeFunction words.function child tag content :=
    fun htag => decode_of_mem_function hwords htag child content
  generalize words.function = functions at h hfunction hmember hread
  cases functions with
  | tags explicit implicit =>
    have hne : implicit ≠ explicit := by simpa [FunctionWords.list] using hfunction
    cases plicity with
    | explicit =>
      obtain ⟨rfl, rfl⟩ := Json.tagged_inj.mp h
      rw [hread (by simp [FunctionWords.list])]
      simp [decodeFunction, decodePair_object, ha, hb]
    | implicit =>
      obtain ⟨rfl, rfl⟩ := Json.tagged_inj.mp h
      rw [hread (by simp [FunctionWords.list])]
      simp [decodeFunction, decodePair_object, ha, hb, hne]
  | flag expected member =>
    obtain ⟨rfl, rfl⟩ := Json.tagged_inj.mp h
    obtain ⟨hparameter, hbody⟩ := hmember expected member rfl
    rw [hread (by simp [FunctionWords.list]), decodeFunction, if_pos rfl]
    exact decodeFlagged_full ha hb hparameter hbody plicity

/-- A layer with different words is read back with its children. -/
theorem decode_content {child : Json → Option α} {pairs : Form (α × Json)} (hwords : words.Clear)
    (hordered : pairs.Ordered) (hchild : ∀ p ∈ pairs.children, child p.2 = some p.1)
    (h : Content words (pairs.map Prod.snd) tag content) :
    decode words child tag content = some (pairs.map Prod.fst) := by
  have hne := (List.nodup_append.mp hwords.tags).2.1
  simp only [List.nodup_cons, List.mem_cons, not_or, List.not_mem_nil, not_false_eq_true,
    and_true] at hne
  generalize hchildren : pairs.map Prod.snd = children at h
  cases h with
  | full h =>
    subst hchildren
    cases pairs with
    | literal a =>
      cases a with
      | number x =>
        obtain ⟨rfl, rfl⟩ := Json.tagged_inj.mp h
        simp [decode, Json.number?, map]
      | boolean b =>
        obtain ⟨rfl, rfl⟩ := Json.tagged_inj.mp h
        simp [decode, Json.truth?, map, hne]
      | string s =>
        obtain ⟨rfl, rfl⟩ := Json.tagged_inj.mp h
        simp [decode, Json.text?, map, hne]
      | symbol name =>
        obtain ⟨rfl, rfl⟩ := Json.tagged_inj.mp h
        simp [decode, Json.text?, map, hne]
    | record fields =>
      obtain ⟨rfl, rfl⟩ := Json.tagged_inj.mp h
      have hfields := map?_object Prod.snd Prod.fst hordered fun field hfield =>
        hchild field.2 (List.mem_map_of_mem hfield)
      simp [decode, map, hne, hfields]
    | function plicity parameter body =>
      have hparameter := hchild parameter (by simp [children])
      have hbody := hchild body (by simp [children])
      exact decode_function hwords hparameter hbody plicity h
    | application callee parameter =>
      obtain ⟨rfl, rfl⟩ := Json.tagged_inj.mp h
      simp only [children, List.forall_mem_cons] at hchild
      simp [decode, decodePair_object, map, hne, hchild]
    | data name parameters =>
      obtain ⟨rfl, rfl⟩ := Json.tagged_inj.mp h
      obtain ⟨hname, hparameters⟩ := List.forall_mem_cons.mp hchild
      have hlist := list?_array Prod.snd Prod.fst hparameters
      simp [decode, decodePair_object hwords.dataName, map, hne, hname, hlist]
    | dual left right =>
      obtain ⟨rfl, rfl⟩ := Json.tagged_inj.mp h
      simp only [children, List.forall_mem_cons] at hchild
      simp [decode, decodePair_object, map, hne, hchild]
    | read source accessor =>
      have hsource := hchild source (by simp [children])
      cases accessor with
      | property name =>
        obtain ⟨rfl, rfl⟩ := Json.tagged_inj.mp h
        simp [decode, decodePair_object, map, hne, hsource, Json.text?]
      | position index =>
        obtain ⟨rfl, rfl⟩ := Json.tagged_inj.mp h
        simp [decode, decodePair_object, map, hne, hsource, Json.natural?]
    | choice subject arms =>
      obtain ⟨rfl, rfl⟩ := Json.tagged_inj.mp h
      obtain ⟨hsubject, harms⟩ := List.forall_mem_cons.mp hchild
      have hread : ∀ arm ∈ arms, decodeArm child
          (.object [("test", arm.1.2), ("value", arm.2.2)]) = some (arm.1.1, arm.2.1) := by
        intro arm harm
        have hmem : ∀ p ∈ [arm.1, arm.2], child p.2 = some p.1 := fun p hp =>
          harms p (List.mem_flatMap.mpr ⟨arm, harm, hp⟩)
        exact decodeArm_object (hmem arm.1 (by simp)) (hmem arm.2 (by simp))
      have hlist := list?_array _ _ hread
      simp [decode, decodePair_object, map, hne, hsubject, Function.comp_def, hlist]
  | implied parameter body hfunction =>
    cases pairs with
    | function plicity p b =>
      obtain ⟨rfl, rfl, rfl⟩ := Form.function.inj hchildren
      obtain ⟨hparameter, hbody⟩ := hwords.member _ _ hfunction
      rw [decode_of_mem_function hwords (by simp [hfunction, FunctionWords.list]), hfunction,
        decodeFunction, if_pos rfl]
      exact decodeFlagged_implied (hchild p (by simp [children])) (hchild b (by simp [children]))
        hparameter hbody
    | _ => cases hchildren

/-- A child of a layer is lower than the content that it stands in. -/
theorem Content.height_lt {form : Form Json} {j : Json} (h : Content words form tag content)
    (hj : j ∈ form.children) : j.height < content.height := by
  cases h with
  | full h =>
    cases form with
    | literal a => cases hj
    | record fields =>
      obtain ⟨rfl, rfl⟩ := Json.tagged_inj.mp h
      exact Json.height_member_lt hj
    | function plicity parameter body =>
      rw [encode, encodeFunction.eq_def] at h
      split at h
      · obtain ⟨rfl, rfl⟩ := Json.tagged_inj.mp h
        exact Json.height_member_lt hj
      · obtain ⟨rfl, rfl⟩ := Json.tagged_inj.mp h
        exact Json.height_member_lt (List.mem_append_left [_] hj)
    | application callee parameter =>
      obtain ⟨rfl, rfl⟩ := Json.tagged_inj.mp h
      exact Json.height_member_lt hj
    | dual left right =>
      obtain ⟨rfl, rfl⟩ := Json.tagged_inj.mp h
      exact Json.height_member_lt hj
    | read source accessor =>
      cases accessor <;>
      · obtain ⟨rfl, rfl⟩ := Json.tagged_inj.mp h
        exact Json.height_member_lt (List.mem_append_left [_] hj)
    | data name parameters =>
      obtain ⟨rfl, rfl⟩ := Json.tagged_inj.mp h
      rcases List.mem_cons.mp hj with rfl | hj
      · exact Json.height_member_lt List.mem_cons_self
      · exact Nat.lt_trans (Json.height_item_lt hj) (Json.height_member_lt (by simp))
    | choice subject arms =>
      obtain ⟨rfl, rfl⟩ := Json.tagged_inj.mp h
      rcases List.mem_cons.mp hj with rfl | hj
      · exact Json.height_member_lt List.mem_cons_self
      · obtain ⟨arm, harm, hj⟩ := List.mem_flatMap.mp hj
        have hhere : j.height < (Json.object [("test", arm.1), ("value", arm.2)]).height :=
          Json.height_member_lt hj
        have hlist : (Json.object [("test", arm.1), ("value", arm.2)]).height <
            (Json.array (arms.map fun arm => .object [("test", arm.1), ("value", arm.2)])).height :=
          Json.height_item_lt (List.mem_map_of_mem harm)
        exact Nat.lt_trans (Nat.lt_trans hhere hlist) (Json.height_member_lt (by simp))
  | implied parameter body hfunction => exact Json.height_member_lt hj

/-- The content of a layer can be written if its numbers are finite and its children can be. -/
theorem Content.writable {form : Form Json} (h : Content words form tag content)
    (hfinite : form.Finite) (hchildren : ∀ j ∈ form.children, j.Writable) : content.Writable := by
  cases h with
  | full h =>
    cases form with
    | literal a =>
      cases a <;> obtain ⟨rfl, rfl⟩ := Json.tagged_inj.mp h
      · exact .real hfinite
      · exact .bool _
      · exact .string _
      · exact .string _
    | record fields =>
      obtain ⟨rfl, rfl⟩ := Json.tagged_inj.mp h
      exact .object hchildren
    | function plicity parameter body =>
      rw [encode, encodeFunction.eq_def] at h
      split at h
      · obtain ⟨rfl, rfl⟩ := Json.tagged_inj.mp h
        exact .object hchildren
      · obtain ⟨rfl, rfl⟩ := Json.tagged_inj.mp h
        obtain ⟨hparameter, hbody⟩ := List.forall_mem_cons.mp hchildren
        refine .object (List.forall_mem_cons.mpr ⟨hparameter, List.forall_mem_cons.mpr
          ⟨List.forall_mem_singleton.mp hbody, List.forall_mem_singleton.mpr (.bool _)⟩⟩)
    | application callee parameter =>
      obtain ⟨rfl, rfl⟩ := Json.tagged_inj.mp h
      exact .object hchildren
    | dual left right =>
      obtain ⟨rfl, rfl⟩ := Json.tagged_inj.mp h
      exact .object hchildren
    | read source accessor =>
      have hsource := List.forall_mem_singleton.mp hchildren
      cases accessor with
      | property name =>
        obtain ⟨rfl, rfl⟩ := Json.tagged_inj.mp h
        exact Json.writable_pair hsource (.string name)
      | position index =>
        obtain ⟨rfl, rfl⟩ := Json.tagged_inj.mp h
        exact Json.writable_pair hsource (.natural hfinite)
    | data name parameters =>
      obtain ⟨rfl, rfl⟩ := Json.tagged_inj.mp h
      obtain ⟨hname, hparameters⟩ := List.forall_mem_cons.mp hchildren
      exact Json.writable_pair hname (.array hparameters)
    | choice subject arms =>
      obtain ⟨rfl, rfl⟩ := Json.tagged_inj.mp h
      obtain ⟨hsubject, harms⟩ := List.forall_mem_cons.mp hchildren
      refine Json.writable_pair hsubject (.array (List.forall_mem_map.mpr fun arm harm => ?_))
      exact .object fun j hj => harms j (List.mem_flatMap.mpr ⟨arm, harm, hj⟩)
  | implied parameter body hfunction => exact .object hchildren

theorem Content.tag_mem {form : Form Json} (h : Content words form tag content) :
    tag ∈ words.tags := by
  cases h with
  | full h =>
    cases form with
    | literal a => cases a <;> simp [Vocabulary.tags, ← (Json.tagged_inj.mp h).1]
    | function plicity parameter body =>
      rw [encode, encodeFunction.eq_def] at h
      split at h <;> rw [← (Json.tagged_inj.mp h).1] <;> refine List.mem_append_left _ ?_
      · cases plicity <;> simp_all [FunctionWords.list]
      · simp_all [FunctionWords.list]
    | read source accessor => cases accessor <;> simp [Vocabulary.tags, ← (Json.tagged_inj.mp h).1]
    | _ => simp [Vocabulary.tags, ← (Json.tagged_inj.mp h).1]
  | implied parameter body hfunction => simp [Vocabulary.tags, hfunction, FunctionWords.list]

end Form

end ImplicitInference
