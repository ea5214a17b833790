import VirtualDom.Proofs.Text.Words
import VirtualDom.Proofs.View.Bag

/-!
This module contains what is seen of an element, one facet at a time, and which facets the values that are
bound to it set: an update takes back just what was set before.
-/

namespace VirtualDom

namespace Value

/-- Values that no comparison tells apart. -/
def Like (v w : Value) : Prop :=
  v = w ∨ v.same w

theorem same_trans {u v w : Value} (huv : u.same v) (hvw : v.same w) : u.same w := by
  cases u <;> cases v <;> cases w <;>
    simp only [same, beq_iff_eq, Bool.false_eq_true] at huv hvw ⊢
  case number.number.number x y z =>
    simp only [Number.same, Bool.and_eq_true, Bool.or_eq_true, Bool.not_eq_true', beq_iff_eq]
      at huv hvw ⊢
    obtain ⟨⟨hx, -⟩, hxy⟩ := huv
    obtain ⟨⟨-, hz⟩, hyz⟩ := hvw
    refine ⟨⟨hx, hz⟩, ?_⟩
    rcases hxy with hxy | ⟨hx, hy⟩
    . obtain rfl : x = y := by
        cases x
        cases y
        exact congrArg _ hxy
      exact hyz
    . rcases hyz with hyz | ⟨-, hz⟩
      . obtain rfl : y = z := by
          cases y
          cases z
          exact congrArg _ hyz
        exact .inr ⟨hx, hy⟩
      . exact .inr ⟨hx, hz⟩
  all_goals exact huv.trans hvw

namespace Like

variable {u v w : Value}

theorem refl (v : Value) : v.Like v :=
  .inl rfl

theorem trans (huv : u.Like v) (hvw : v.Like w) : u.Like w := by
  rcases huv with rfl | huv
  . exact hvw
  . rcases hvw with rfl | hvw
    . exact .inr huv
    . exact .inr (same_trans huv hvw)

theorem isNull_eq (h : v.Like w) : v.isNull = w.isNull := by
  rcases h with rfl | h
  . rfl
  . cases v <;> cases w <;> first | rfl | cases h

theorem eq_str {s : String} (h : v.Like (.str s)) : v = .str s := by
  rcases h with rfl | h
  . rfl
  . cases v <;> simp_all [same]

theorem rel_refl (o : Option Value) : Option.Rel Like o o := by
  cases o with
  | none => exact .none
  | some v => exact .some (refl v)

theorem rel_trans {a b c : Option Value} (hab : Option.Rel Like a b) (hbc : Option.Rel Like b c)
    : Option.Rel Like a c := by
  cases hab with
  | none => exact hbc
  | some hab =>
    cases hbc with
    | some hbc => exact .some (hab.trans hbc)

end Like
end Value

/-- Something that is seen of an element: an attribute, one of its classes, a property or a payload. -/
inductive Facet where
  | attribute (name : String)
  | token (token : String)
  | property (name : String)
  | handler (event : String)
deriving DecidableEq

namespace Facet

/--
What becomes of the facets of an element when some of its attributes are set: `none` where a facet stays
as it is. Of the attribute with the classes the single classes are seen.
-/
def ofAttributes (set : String → Option (Option String)) : Facet → Option (Option Value)
  | .attribute name => if name = "class" then none else (set name).map (·.map .str)
  | .token t => (set "class").map fun value =>
    if t ∈ (value.map Text.words).getD [] then some .null else none
  | _ => none

def target : Facet → Facet
  | .token _ => .attribute "class"
  | f => f

theorem ofAttributes_none {set : String → Option (Option String)} {f : Facet}
    (h : ∀ name, f.target = .attribute name → set name = none) : ofAttributes set f = none := by
  match f with
  | .attribute name => simp [ofAttributes, h name rfl]
  | .token _ => simp [ofAttributes, h "class" rfl]
  | .property _ | .handler _ => rfl

end Facet

namespace Element

def facet (e : Element) : Facet → Option Value
  | .attribute name => if name = "class" then none else (e.attributes.get? name).map .str
  | .token t => if t ∈ e.classes then some .null else none
  | .property name => e.properties.get? name
  | .handler event => e.handlers.get? event

variable {e e' : Element} {f : Facet}

theorem facet_of_attributes {set : String → Option (Option String)}
    (hattributes : ∀ name, e'.attributes.get? name = (set name).getD (e.attributes.get? name))
    (hproperties : e'.properties = e.properties) (hhandlers : e'.handlers = e.handlers)
    : e'.facet f = (Facet.ofAttributes set f).getD (e.facet f) := by
  match f with
  | .attribute name =>
    simp only [facet, Facet.ofAttributes, hattributes]
    split
    . rfl
    . cases set name <;> rfl
  | .token t =>
    simp only [facet, Facet.ofAttributes, classes, hattributes]
    cases set "class" <;> rfl
  | .property name => exact congrArg (Dict.get? · name) hproperties
  | .handler event => exact congrArg (Dict.get? · event) hhandlers

theorem facet_congr (hattributes : ∀ name, e'.attributes.get? name = e.attributes.get? name)
    (hproperties : e'.properties = e.properties) (hhandlers : e'.handlers = e.handlers)
    : e'.facet f = e.facet f := by
  have hfacet : e'.facet f = (Facet.ofAttributes (fun _ => none) f).getD (e.facet f) :=
    facet_of_attributes hattributes hproperties hhandlers
  rw [hfacet, Facet.ofAttributes_none fun _ _ => rfl]
  rfl

theorem facet_withAttribute (name : String) (value : Option String)
    : (e.withAttribute name value).facet f
        = (Facet.ofAttributes (fun n => if name = n then some value else none) f).getD (e.facet f) := by
  refine facet_of_attributes (fun n => ?_) rfl rfl
  rw [withAttribute, Dict.get?_assign]
  split <;> rfl

theorem fields_withAttributes (attributes : List (String × Value))
    : (e.withAttributes attributes).properties = e.properties ∧
        (e.withAttributes attributes).handlers = e.handlers := by
  induction attributes generalizing e with
  | nil => exact ⟨rfl, rfl⟩
  | cons entry rest ih => exact ih

theorem fields_withoutAttributes (names : List String)
    : (e.withoutAttributes names).properties = e.properties ∧
        (e.withoutAttributes names).handlers = e.handlers := by
  induction names generalizing e with
  | nil => exact ⟨rfl, rfl⟩
  | cons name rest ih => exact ih

section Classes

open Text (IsWord)

theorem isWord_of_mem_classes {token : String} (h : token ∈ e.classes) : IsWord token := by
  unfold classes at h
  cases hc : e.attributes.get? "class" with
  | none => simp [hc] at h
  | some value =>
    rw [hc] at h
    exact Text.isWord_of_mem_words h

theorem classes_withAttribute {tokens : List String} (h : ∀ token ∈ tokens, IsWord token)
    : (e.withAttribute "class" (some (" ".intercalate tokens))).classes = tokens := by
  rw [classes, withAttribute, Dict.get?_assign, if_pos rfl]
  exact Text.words_intercalate h

theorem mem_classes_withClass {token t : String} (h : IsWord token)
    : t ∈ (e.withClass token).classes ↔ t ∈ e.classes ∨ t = token := by
  unfold withClass
  split
  . next hmem =>
    rw [List.contains_iff_mem] at hmem
    exact ⟨.inl, fun ht => ht.elim id fun heq => heq ▸ hmem⟩
  . rw [classes_withAttribute]
    . simp
    . intro t ht
      rcases List.mem_append.1 ht with ht | ht
      . exact isWord_of_mem_classes ht
      . exact List.mem_singleton.1 ht ▸ h

theorem mem_classes_withoutClass {token t : String}
    : t ∈ (e.withoutClass token).classes ↔ t ∈ e.classes ∧ t ≠ token := by
  unfold withoutClass
  split
  . rw [classes_withAttribute fun t ht => isWord_of_mem_classes (List.mem_filter.1 ht).1]
    simp
  . next hmem =>
    rw [List.contains_iff_mem] at hmem
    exact ⟨fun ht => ⟨ht, fun heq => hmem (heq ▸ ht)⟩, And.left⟩

theorem mem_classes_withClasses {tokens : List String} {t : String} (h : ∀ token ∈ tokens, IsWord token)
    : t ∈ (e.withClasses tokens).classes ↔ t ∈ e.classes ∨ t ∈ tokens := by
  induction tokens generalizing e with
  | nil => simp [withClasses]
  | cons token tokens ih =>
    obtain ⟨htoken, hrest⟩ := List.forall_mem_cons.1 h
    refine (ih hrest).trans ?_
    rw [mem_classes_withClass htoken, List.mem_cons, or_assoc]

theorem mem_classes_withoutClasses {tokens : List String} {t : String}
    : t ∈ (e.withoutClasses tokens).classes ↔ t ∈ e.classes ∧ t ∉ tokens := by
  induction tokens generalizing e with
  | nil => simp [withoutClasses]
  | cons token tokens ih =>
    refine ih.trans ?_
    rw [mem_classes_withoutClass, List.mem_cons, not_or, and_assoc]

theorem facet_withAttribute_class (value : Option String) (hf : ∀ t, f ≠ .token t)
    : (e.withAttribute "class" value).facet f = e.facet f := by
  rw [facet_withAttribute]
  match f with
  | .attribute name =>
    simp only [Facet.ofAttributes]
    split
    . rfl
    . next hname =>
      rw [if_neg (Ne.symm hname)]
      rfl
  | .token t => exact absurd rfl (hf t)
  | .property _ | .handler _ => rfl

theorem facet_withClasses {tokens : List String} (hf : ∀ t, f ≠ .token t)
    : (e.withClasses tokens).facet f = e.facet f := by
  induction tokens generalizing e with
  | nil => rfl
  | cons token tokens ih =>
    refine ih.trans ?_
    unfold withClass
    split
    . rfl
    . exact facet_withAttribute_class _ hf

theorem facet_withoutClasses {tokens : List String} (hf : ∀ t, f ≠ .token t)
    : (e.withoutClasses tokens).facet f = e.facet f := by
  induction tokens generalizing e with
  | nil => rfl
  | cons token tokens ih =>
    refine ih.trans ?_
    unfold withoutClass
    split
    . exact facet_withAttribute_class _ hf
    . rfl

end Classes
end Element

theorem Value.isWord_of_mem_classTokens {v : Value} {token : String} (h : token ∈ v.classTokens)
    : Text.IsWord token := by
  unfold classTokens at h
  rw [List.mem_eraseDups] at h
  split at h
  . cases h
  . obtain ⟨⟨key, on⟩, -, h⟩ := List.mem_flatMap.1 h
    dsimp only at h
    split at h
    . exact Text.isWord_of_mem_words h
    . cases h
  . exact Text.isWord_of_mem_words h

namespace Template.Binding

variable {e : Element} {f : Facet} {value old : Value}

def sets (value : Value) : Binding → Facet → Option (Option Value)
  | .property name, .property n => if name = n then some (some value) else none
  | .handler event, .handler n => if event = n then some (some value) else none
  | .attribute name, f =>
    Facet.ofAttributes (fun n => if name = n then some value.attribute? else none) f
  | .bag, f => Facet.ofAttributes (fun n => (Dict.get? (bagEntries value) n).map Value.attribute?) f
  | .classes, .token t => if t ∈ value.classTokens then some (some .null) else none
  | _, _ => none

def resets (value old : Value) : Binding → Facet → Option (Option Value)
  | .bag, f => Facet.ofAttributes (fun n =>
      match Dict.get? (renewed value old) n with
      | some v => some v.attribute?
      | none => if n ∈ outdated value old then some none else none) f
  | .classes, .token t =>
    if t ∈ value.classTokens then if t ∈ old.classTokens then none else some (some .null)
    else if t ∈ old.classTokens then some none else none
  | b, f => b.sets value f

theorem sets_attribute (name : String) : (Binding.attribute name).sets value f
    = Facet.ofAttributes (fun n => if name = n then some value.attribute? else none) f := by
  cases f <;> rfl

theorem sets_bag : bag.sets value f
    = Facet.ofAttributes (fun n => (Dict.get? (bagEntries value) n).map Value.attribute?) f := by
  cases f <;> rfl

theorem resets_bag : bag.resets value old f = Facet.ofAttributes (fun n =>
    match Dict.get? (renewed value old) n with
    | some v => some v.attribute?
    | none => if n ∈ outdated value old then some none else none) f := by
  cases f <;> rfl

theorem facet_withAttributes {attributes : List (String × Value)} (hnd : (Dict.keys attributes).Nodup)
    : (e.withAttributes attributes).facet f = (Facet.ofAttributes (fun n =>
        (Dict.get? attributes n).map Value.attribute?) f).getD (e.facet f) := by
  obtain ⟨hproperties, hhandlers⟩ := Element.fields_withAttributes (e := e) attributes
  exact Element.facet_of_attributes (fun n => Element.get?_withAttributes hnd) hproperties hhandlers

theorem facet_renewed (hnd : (Dict.keys (bagEntries value)).Nodup) (old : Value)
    : ((e.withoutAttributes (outdated value old)).withAttributes (renewed value old)).facet f
        = (bag.resets value old f).getD (e.facet f) := by
  obtain ⟨hproperties, hhandlers⟩ := Element.fields_withAttributes
    (e := e.withoutAttributes (outdated value old)) (renewed value old)
  obtain ⟨hproperties', hhandlers'⟩ := Element.fields_withoutAttributes (e := e) (outdated value old)
  rw [resets_bag]
  refine Element.facet_of_attributes (fun n => ?_) (hproperties.trans hproperties')
    (hhandlers.trans hhandlers')
  rw [Element.get?_withAttributes (nodup_keys_renewed hnd old), Element.get?_withoutAttributes]
  cases Dict.get? (renewed value old) n with
  | some v => rfl
  | none =>
    dsimp only [Option.map_none, Option.getD_none]
    split <;> rfl

theorem mem_classes_reclassed (value old : Value) (t : String)
    : t ∈ ((e.withoutClasses (old.classTokens.filter fun token => !value.classTokens.contains
        token)).withClasses (value.classTokens.filter fun token => !old.classTokens.contains
          token)).classes ↔
        (t ∈ e.classes ∧ (t ∈ old.classTokens → t ∈ value.classTokens)) ∨
          (t ∈ value.classTokens ∧ t ∉ old.classTokens) := by
  have hword : ∀ token ∈ value.classTokens.filter fun token => !old.classTokens.contains token,
      Text.IsWord token := fun token h => Value.isWord_of_mem_classTokens (List.mem_filter.1 h).1
  rw [Element.mem_classes_withClasses hword, Element.mem_classes_withoutClasses]
  simp

theorem facet_reclassed (value old : Value) (t : String)
    : ((e.withoutClasses (old.classTokens.filter fun token => !value.classTokens.contains
        token)).withClasses (value.classTokens.filter fun token => !old.classTokens.contains
          token)).facet (.token t) = (classes.resets value old (.token t)).getD (e.facet (.token t)) := by
  simp only [Element.facet, resets, mem_classes_reclassed]
  by_cases ht : t ∈ value.classTokens <;> by_cases hold : t ∈ old.classTokens <;> simp [ht, hold]

theorem facet_inscribe (hnd : (Dict.keys (bagEntries value)).Nodup) (e : Element)
    : ∀ b : Binding, ∃ e', b.inscribe value (.element e) = .element e' ∧
        ∀ f, e'.facet f = (b.sets value f).getD (e.facet f)
  | .text | .ref => ⟨e, rfl, fun f => by cases f <;> rfl⟩
  | .property name => by
    refine ⟨e.withProperty name value, rfl, fun f => ?_⟩
    match f with
    | .property n =>
      simp only [Element.facet, Element.withProperty, Dict.get?_put, sets]
      split <;> rfl
    | .attribute _ | .token _ | .handler _ => rfl
  | .handler event => by
    refine ⟨e.withHandler event value, rfl, fun f => ?_⟩
    match f with
    | .handler n =>
      simp only [Element.facet, Element.withHandler, Dict.get?_put, sets]
      split <;> rfl
    | .attribute _ | .token _ | .property _ => rfl
  | .attribute name => ⟨_, rfl, fun f => by cases f <;> exact Element.facet_withAttribute name _⟩
  | .bag => ⟨_, rfl, fun f => by cases f <;> exact facet_withAttributes hnd⟩
  | .classes => by
    refine ⟨e.withClasses value.classTokens, rfl, fun f => ?_⟩
    match f with
    | .token t =>
      simp only [Element.facet, sets,
        Element.mem_classes_withClasses fun token => Value.isWord_of_mem_classTokens]
      by_cases ht : t ∈ value.classTokens <;> simp [ht]
    | .attribute _ | .property _ | .handler _ => exact Element.facet_withClasses fun t => by simp

theorem facet_revise (hnd : (Dict.keys (bagEntries value)).Nodup) (old : Value) (e : Element)
    : ∀ b : Binding, ∃ e', b.revise value old (.element e) = .element e' ∧
        ∀ f, e'.facet f = (b.resets value old f).getD (e.facet f)
  | .bag => ⟨_, rfl, fun _ => facet_renewed hnd old⟩
  | .classes => by
    refine ⟨_, rfl, fun f => ?_⟩
    match f with
    | .token t => exact facet_reclassed value old t
    | .attribute _ | .property _ | .handler _ =>
      exact (Element.facet_withClasses fun t => by simp).trans
        (Element.facet_withoutClasses fun t => by simp)
  | .text => facet_inscribe hnd e .text
  | .ref => facet_inscribe hnd e .ref
  | .property name => facet_inscribe hnd e (.property name)
  | .handler event => facet_inscribe hnd e (.handler event)
  | .attribute name => facet_inscribe hnd e (.attribute name)

def targets (value : Value) : Binding → List Facet
  | .text | .ref => []
  | .property name => [.property name]
  | .classes => [.attribute "class"]
  | .attribute name => [.attribute name]
  | .bag => (Dict.keys (bagEntries value)).map .attribute
  | .handler event => [.handler event]

theorem not_mem_keys_of_targets {name : String} (h : f.target ∉ bag.targets value)
    (hname : f.target = .attribute name) : name ∉ Dict.keys (bagEntries value) :=
  fun hmem => h (hname ▸ List.mem_map_of_mem hmem)

theorem outdated_subset (value old : Value) : outdated value old ⊆ Dict.keys (bagEntries old) := by
  unfold outdated
  split
  . next items _ oldItems =>
    rw [bagEntries]
    cases pair? items with
    | none => exact List.nil_subset _
    | some entry =>
      cases pair? oldItems with
      | none => exact List.nil_subset _
      | some oldEntry =>
        dsimp only
        split
        . exact fun _ h => h
        . exact List.nil_subset _
  . exact List.filter_sublist.subset
  . exact fun _ h => h

theorem sets_eq_none {b : Binding} (h : f.target ∉ b.targets value) : b.sets value f = none := by
  match b with
  | .text | .ref => cases f <;> rfl
  | .property name =>
    match f with
    | .property n => exact if_neg fun heq => h (by simp [targets, Facet.target, heq])
    | .attribute _ | .token _ | .handler _ => rfl
  | .handler event =>
    match f with
    | .handler n => exact if_neg fun heq => h (by simp [targets, Facet.target, heq])
    | .attribute _ | .token _ | .property _ => rfl
  | .attribute name =>
    rw [sets_attribute]
    exact Facet.ofAttributes_none fun n hn => if_neg fun heq => h (by simp [targets, hn, heq])
  | .bag =>
    rw [sets_bag]
    refine Facet.ofAttributes_none fun n hn => ?_
    rw [Dict.get?_eq_none_iff.2 (not_mem_keys_of_targets h hn)]
    rfl
  | .classes =>
    match f with
    | .token t => exact absurd List.mem_cons_self h
    | .attribute _ | .property _ | .handler _ => rfl

theorem resets_eq_none {b : Binding} (h : f.target ∉ b.targets value) (hold : f.target ∉ b.targets old)
    : b.resets value old f = none := by
  match b with
  | .text | .ref | .property _ | .handler _ | .attribute _ => cases f <;> exact sets_eq_none h
  | .bag =>
    rw [resets_bag]
    refine Facet.ofAttributes_none fun n hn => ?_
    have hrenewed : n ∉ Dict.keys (renewed value old) := fun hmem =>
      not_mem_keys_of_targets h hn (((renewed_sublist value old).map _).subset hmem)
    have houtdated : n ∉ outdated value old := fun hmem =>
      not_mem_keys_of_targets hold hn (outdated_subset value old hmem)
    rw [Dict.get?_eq_none_iff.2 hrenewed]
    exact if_neg houtdated
  | .classes =>
    match f with
    | .token t => exact absurd List.mem_cons_self h
    | .attribute _ | .property _ | .handler _ => rfl

end Template.Binding
end VirtualDom
