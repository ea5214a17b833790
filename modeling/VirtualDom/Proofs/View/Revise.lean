import VirtualDom.Proofs.View.Facet

/-!
This module contains what a node holds after an update of the values that are bound to it: what it would
hold if the new values alone had been written, where values do not get in each other's way.
-/

namespace VirtualDom

namespace Value

variable {alloc : Allocations} {maps : Nat → List (String × Value)} {v w : Value}

/-- No key is twice in a map, and maps with one identity are one allocation. -/
def MapFrom (alloc : Allocations) (maps : Nat → List (String × Value)) : Value → Prop
  | .map identity entries =>
    entries = maps identity ∧ (Dict.keys entries).Nodup ∧ ∀ entry ∈ entries, entry.2.From alloc
  | _ => True

def IsNullOrMap : Value → Prop
  | .null | .map _ _ => True
  | _ => False

open Template.Binding (bagEntries pair?)

theorem MapFrom.nodup_keys (h : v.MapFrom alloc maps) : (Dict.keys (bagEntries v)).Nodup := by
  cases v with
  | list identity items =>
    rw [bagEntries]
    cases pair? items <;> simp [Dict.keys]
  | map identity entries => exact h.2.1
  | _ => exact List.nodup_nil

theorem MapFrom.bagFrom (h : v.MapFrom alloc maps) (hv : v.IsNullOrMap) : v.BagFrom alloc := by
  refine ⟨h.nodup_keys, ?_⟩
  cases v with
  | map identity entries => exact h.2.2
  | null => nofun
  | _ => exact hv.elim

theorem classTokens_eq_of_same (hv : v.From alloc) (hw : w.From alloc) (hmv : v.MapFrom alloc maps)
    (hmw : w.MapFrom alloc maps) (h : v.same w) : v.classTokens = w.classTokens := by
  have htext := text_eq_of_same hv hw h
  cases v <;> cases w <;> simp only [same, beq_iff_eq, Bool.false_eq_true] at h
  case map.map => rw [hmv.1, hmw.1, h]
  all_goals simp only [classTokens, htext]

theorem bagEntries_eq_of_same (hv : v.From alloc) (hw : w.From alloc) (hmv : v.MapFrom alloc maps)
    (hmw : w.MapFrom alloc maps) (h : v.same w) : bagEntries v = bagEntries w := by
  cases v <;> cases w <;> simp only [same, beq_iff_eq, Bool.false_eq_true] at h
  case list.list => rw [hv, hw, h]
  case map.map => rw [hmv.1, hmw.1, h]
  all_goals rfl

end Value

namespace Template.Binding

variable {alloc : Allocations} {maps : Nat → List (String × Value)} {e : Element} {f : Facet}
  {value old : Value} {a : Option Value}

/-- What the value adds to the element is not there without it. -/
def Fits (e : Element) (value : Value) : Binding → Prop
  | .classes => ∀ token ∈ value.classTokens, token ∉ e.classes
  | .bag => value.IsNullOrMap ∧ ∀ name ∈ Dict.keys (bagEntries value), e.attributes.get? name = none
  | _ => True

theorem sets_same (hv : value.From alloc) (hold : old.From alloc) (hmv : value.MapFrom alloc maps)
    (hmold : old.MapFrom alloc maps) (h : old.same value) (b : Binding)
    : Option.Rel Value.Like ((b.sets old f).getD a) ((b.sets value f).getD a) := by
  have refl_of_eq : b.sets old f = b.sets value f →
      Option.Rel Value.Like ((b.sets old f).getD a) ((b.sets value f).getD a) := by
    intro heq
    rw [heq]
    exact Value.Like.rel_refl _
  match b with
  | .text | .ref => cases f <;> exact refl_of_eq rfl
  | .property name =>
    cases f with
    | property n =>
      simp only [sets]
      split
      . exact .some (.inr h)
      . exact Value.Like.rel_refl a
    | _ => exact refl_of_eq rfl
  | .handler event =>
    cases f with
    | handler n =>
      simp only [sets]
      split
      . exact .some (.inr h)
      . exact Value.Like.rel_refl a
    | _ => exact refl_of_eq rfl
  | .attribute name =>
    refine refl_of_eq ?_
    rw [sets_attribute, sets_attribute, Value.attribute?_eq_of_same hold hv h]
  | .bag =>
    refine refl_of_eq ?_
    rw [sets_bag, sets_bag, Value.bagEntries_eq_of_same hold hv hmold hmv h]
  | .classes =>
    refine refl_of_eq ?_
    cases f with
    | token t => simp only [sets, Value.classTokens_eq_of_same hold hv hmold hmv h]
    | _ => rfl

theorem resets_sets (hmv : value.MapFrom alloc maps) (hmold : old.MapFrom alloc maps) {b : Binding}
    (hfits : b.Fits e value) (hold : b.Fits e old)
    : (b.resets value old f).getD ((b.sets old f).getD (e.facet f)) = (b.sets value f).getD (e.facet f) := by
  match b with
  | .text | .ref => cases f <;> rfl
  | .property name =>
    cases f with
    | property n =>
      simp only [resets, sets]
      split <;> rfl
    | _ => rfl
  | .handler event =>
    cases f with
    | handler n =>
      simp only [resets, sets]
      split <;> rfl
    | _ => rfl
  | .attribute name =>
    have hresets : (Binding.attribute name).resets value old f = (Binding.attribute name).sets value f := by
      cases f <;> rfl
    rw [hresets, sets_attribute, sets_attribute]
    obtain n | t | _ | _ := f
    . simp only [Facet.ofAttributes]
      split
      . rfl
      . split <;> rfl
    . simp only [Facet.ofAttributes]
      split <;> rfl
    . rfl
    . rfl
  | .bag =>
    obtain ⟨hvalue, hstatic⟩ := hold
    have hlasting : lasting value old = value := by
      cases value with
      | list => exact hfits.1.elim
      | _ => rfl
    have hupdated := get?_updated (hmv.bagFrom hfits.1) (hmold.bagFrom hvalue) hstatic
    rw [hlasting] at hupdated
    obtain ⟨hproperties, hhandlers⟩ := Element.fields_withAttributes (e := e) (bagEntries old)
    obtain ⟨hproperties₁, hhandlers₁⟩ := Element.fields_withoutAttributes
      (e := e.withAttributes (bagEntries old)) (outdated value old)
    obtain ⟨hproperties₂, hhandlers₂⟩ := Element.fields_withAttributes
      (e := (e.withAttributes (bagEntries old)).withoutAttributes (outdated value old)) (renewed value old)
    obtain ⟨hproperties₃, hhandlers₃⟩ := Element.fields_withAttributes (e := e) (bagEntries value)
    calc (bag.resets value old f).getD ((bag.sets old f).getD (e.facet f))
      _ = (((e.withAttributes (bagEntries old)).withoutAttributes (outdated value old)).withAttributes
            (renewed value old)).facet f := by
        rw [facet_renewed hmv.nodup_keys, facet_withAttributes hmold.nodup_keys, sets_bag]
      _ = (e.withAttributes (bagEntries value)).facet f := by
        refine Element.facet_congr hupdated ?_ ?_
        . rw [hproperties₂, hproperties₁, hproperties, hproperties₃]
        . rw [hhandlers₂, hhandlers₁, hhandlers, hhandlers₃]
      _ = (bag.sets value f).getD (e.facet f) := by
        rw [facet_withAttributes hmv.nodup_keys, sets_bag]
  | .classes =>
    cases f with
    | token t =>
      have hstatic : t ∈ old.classTokens → e.facet (.token t) = none := fun ht =>
        if_neg (hold t ht)
      simp only [resets, sets]
      by_cases ht : t ∈ value.classTokens <;> by_cases htold : t ∈ old.classTokens <;>
        simp [ht, htold, hstatic]
    | _ => rfl

end Template.Binding

/-- Contents of nodes that show the same and that no comparison of values tells apart. -/
inductive Content.Agrees : Content → Content → Prop
  | text (s : String) : Agrees (.text s) (.text s)
  | comment (s : String) : Agrees (.comment s) (.comment s)
  | element {e e' : Element} (tag : e.tag = e'.tag)
      (attributes : ∀ name, name ≠ "class" → e.attributes.get? name = e'.attributes.get? name)
      (classes : ∀ token, token ∈ e.classes ↔ token ∈ e'.classes)
      (properties : ∀ name, Option.Rel Value.Like (e.properties.get? name) (e'.properties.get? name))
      (handlers : ∀ event, Option.Rel Value.Like (e.handlers.get? event) (e'.handlers.get? event)) :
      Agrees (.element e) (.element e')

namespace Content

variable {c c' : Content} {e e' : Element}

theorem Agrees.refl (c : Content) : c.Agrees c := by
  cases c with
  | text s => exact .text s
  | comment s => exact .comment s
  | element e =>
    exact .element rfl (fun _ _ => rfl) (fun _ => .rfl) (fun _ => Value.Like.rel_refl _)
      fun _ => Value.Like.rel_refl _

theorem Agrees.shape_eq (h : c.Agrees c') : c.shape = c'.shape := by
  cases h with
  | element tag => exact congrArg Shape.element tag
  | _ => rfl

theorem Agrees.facet (h : (Content.element e).Agrees (.element e')) (f : Facet)
    : Option.Rel Value.Like (e.facet f) (e'.facet f) := by
  obtain _ | _ | ⟨-, attributes, classes, properties, handlers⟩ := h
  match f with
  | .attribute name =>
    simp only [Element.facet]
    split
    . exact .none
    . next hname =>
      rw [attributes name hname]
      exact Value.Like.rel_refl _
  | .token t =>
    simp only [Element.facet, classes]
    exact Value.Like.rel_refl _
  | .property name => exact properties name
  | .handler event => exact handlers event

theorem Agrees.of_facet (tag : e.tag = e'.tag)
    (h : ∀ f, Option.Rel Value.Like (e.facet f) (e'.facet f))
    : (Content.element e).Agrees (.element e') := by
  refine .element tag (fun name hname => ?_) (fun token => ?_) (fun name => h (.property name))
    fun event => h (.handler event)
  . have hattribute := h (.attribute name)
    simp only [Element.facet, if_neg hname] at hattribute
    generalize e.attributes.get? name = value, e'.attributes.get? name = value' at hattribute ⊢
    cases value <;> cases value' <;> cases hattribute
    . rfl
    . next hlike =>
      obtain heq | hsame := hlike
      . cases heq
        rfl
      . exact congrArg some (by simpa [Value.same] using hsame)
  . have htoken := h (.token token)
    simp only [Element.facet] at htoken
    by_cases ht : token ∈ e.classes <;> by_cases ht' : token ∈ e'.classes <;>
      simp only [ht, ht', if_true, if_false] at htoken ⊢ <;> cases htoken

theorem Agrees.of_shape_eq (h : c.shape = c'.shape) (hc : ∀ e, c ≠ .element e) : c.Agrees c' := by
  cases c with
  | element e => exact absurd rfl (hc e)
  | text s =>
    cases c' <;> cases h
    exact .text s
  | comment s =>
    cases c' <;> cases h
    exact .comment s

theorem exists_element_of_shape {tag : String} (h : c.shape = .element tag)
    : ∃ e, c = .element e ∧ e.tag = tag := by
  cases c <;> cases h
  exact ⟨_, rfl, rfl⟩

end Content

namespace Template

variable {γ : Type} {alloc : Allocations} {maps : Nat → List (String × Value)}

/--
Of some changes in turn only one may touch what is seen. If that one brings what is seen in line, so do
all of them.
-/
theorem rel_foldl (sources : List γ) (before change after : γ → Option (Option Value))
    {a o : Option Value} (Touches : γ → Prop)
    (untouched : ∀ s ∈ sources, ¬ Touches s → before s = none ∧ change s = none ∧ after s = none)
    (apart : sources.Pairwise fun s s' => Touches s → ¬ Touches s')
    (hchange : ∀ s ∈ sources, ∀ o, Option.Rel Value.Like o ((before s).getD a) →
      Option.Rel Value.Like ((change s).getD o) ((after s).getD a))
    (ho : Option.Rel Value.Like o (sources.foldl (fun o s => (before s).getD o) a))
    : Option.Rel Value.Like (sources.foldl (fun o s => (change s).getD o) o)
        (sources.foldl (fun o s => (after s).getD o) a) := by
  have foldl_none : ∀ {k : γ → Option (Option Value)} {sources : List γ} {o : Option Value},
      (∀ s ∈ sources, k s = none) → sources.foldl (fun o s => (k s).getD o) o = o := by
    intro k sources o hk
    induction sources with
    | nil => rfl
    | cons s rest ih =>
      rw [List.foldl_cons, hk s List.mem_cons_self]
      exact ih fun s hs => hk s (List.mem_cons_of_mem _ hs)
  induction sources with
  | nil => exact ho
  | cons s rest ih =>
    obtain ⟨hs, hrest⟩ := List.pairwise_cons.1 apart
    simp only [List.foldl_cons] at ho ⊢
    by_cases htouches : Touches s
    . have hnone := fun s' hs' => untouched s' (List.mem_cons_of_mem _ hs') (hs s' hs' htouches)
      rw [foldl_none fun s' hs' => (hnone s' hs').1] at ho
      rw [foldl_none fun s' hs' => (hnone s' hs').2.1, foldl_none fun s' hs' => (hnone s' hs').2.2]
      exact hchange s List.mem_cons_self o ho
    . obtain ⟨hbefore, hnone, hafter⟩ := untouched s List.mem_cons_self htouches
      rw [hbefore] at ho
      rw [hnone, hafter]
      exact ih (fun s' hs' => untouched s' (List.mem_cons_of_mem _ hs')) hrest
        (fun s' hs' => hchange s' (List.mem_cons_of_mem _ hs')) ho

/--
The values that the data bind to an element with these static contents do not get in each other's way:
no attribute, property or event is bound in two ways, class tokens are not static, and bags are null or
maps with names that are not static.
-/
structure Separate (datas : List Data) (e : Element) (sources : List (Nat × Binding)) : Prop where
  apart : sources.Pairwise fun s s' => ∀ data ∈ datas, ∀ data' ∈ datas,
    ∀ target ∈ s.2.targets (data.at s.1), target ∉ s'.2.targets (data'.at s'.1)
  fits : ∀ s ∈ sources, ∀ data ∈ datas, s.2.Fits e (data.at s.1)

section Revised

variable {S : Marked} {l : (NodeId × Content) × List Mark} {data old : Data} {datas : List Data}
  {e : Element} {c : Content}

theorem element_of_paint {c : Content} {marks : List Mark} {tag : String}
    (h : paint data (c, marks) = .element tag) : ∃ e, c = .element e := by
  unfold paint at h
  split at h
  . cases h
  . next heq =>
    cases heq
    exact (Content.exists_element_of_shape h).imp fun _ => And.left

theorem facet_foldl (sources : List γ) (write : γ → Content → Content)
    (k : γ → Facet → Option (Option Value))
    (hwrite : ∀ s ∈ sources, ∀ e, ∃ e', write s (.element e) = .element e' ∧
      ∀ f, e'.facet f = (k s f).getD (e.facet f)) (e : Element)
    : ∃ e', sources.foldl (fun c s => write s c) (.element e) = .element e' ∧
        ∀ f, e'.facet f = sources.foldl (fun o s => (k s f).getD o) (e.facet f) := by
  induction sources generalizing e with
  | nil => exact ⟨e, rfl, fun _ => rfl⟩
  | cons s rest ih =>
    obtain ⟨e₁, hwrite₁, hfacet₁⟩ := hwrite s List.mem_cons_self e
    obtain ⟨e', hrest, hfacet⟩ := ih (fun s hs => hwrite s (List.mem_cons_of_mem _ hs)) e₁
    refine ⟨e', ?_, fun f => ?_⟩
    . rw [List.foldl_cons, hwrite₁, hrest]
    . rw [hfacet f, List.foldl_cons, hfacet₁ f]

theorem facet_inscribed (hmaps : ∀ i, (data.at i).MapFrom alloc maps) (marks : List Mark) (e : Element)
    : ∃ e', inscribed data marks (.element e) = .element e' ∧ ∀ f, e'.facet f
        = (Mark.sources marks).foldl (fun o s => (s.2.sets (data.at s.1) f).getD o) (e.facet f) :=
  facet_foldl (Mark.sources marks) (fun s => s.2.inscribe (data.at s.1)) (fun s => s.2.sets (data.at s.1))
    (fun s _ e => Binding.facet_inscribe (hmaps s.1).nodup_keys e s.2) e

theorem facet_revised (hmaps : ∀ i, (data.at i).MapFrom alloc maps) (old : Data) (marks : List Mark)
    (e : Element)
    : ∃ e', revised data old marks (.element e) = .element e' ∧ ∀ f, e'.facet f
        = (Mark.sources marks).foldl (fun o s =>
            (if (old.at s.1).same (data.at s.1) then none
              else s.2.resets (data.at s.1) (old.at s.1) f).getD o) (e.facet f) := by
  refine facet_foldl (Mark.sources marks)
    (fun s c => if (old.at s.1).same (data.at s.1) then c else s.2.revise (data.at s.1) (old.at s.1) c)
    (fun s f => if (old.at s.1).same (data.at s.1) then none
      else s.2.resets (data.at s.1) (old.at s.1) f) (fun s _ e => ?_) e
  by_cases hsame : (old.at s.1).same (data.at s.1)
  . exact ⟨e, if_pos hsame, fun f => by rw [if_pos hsame]; rfl⟩
  . obtain ⟨e', hrevise, hfacet⟩ := Binding.facet_revise (hmaps s.1).nodup_keys (old.at s.1) e s.2
    exact ⟨e', (if_neg hsame).trans hrevise, fun f => by rw [if_neg hsame, hfacet]⟩

theorem revised_agrees (hT : Tidy S.sketch) (hl : l ∈ S.labels) (hdata : data.From alloc)
    (hold : old.From alloc) (hmaps : ∀ i, (data.at i).MapFrom alloc maps)
    (holdMaps : ∀ i, (old.at i).MapFrom alloc maps) (mem : data ∈ datas) (old_mem : old ∈ datas)
    (separate : ∀ e, l.1.2 = .element e → Separate datas e (Mark.sources l.2))
    (hc : c.Agrees (inscribed old l.2 l.1.2))
    : (revised data old l.2 c).Agrees (inscribed data l.2 l.1.2) := by
  have hpaint : (revised data old l.2 c).shape = paint data (l.1.2, l.2) := by
    refine shape_revised hT hl (fun i => Value.text_eq_of_same (hold.from_at i) (hdata.from_at i)) ?_
    rw [hc.shape_eq, shape_inscribed hT hl]
  by_cases helement : ∃ e, l.1.2 = .element e
  . obtain ⟨e, he⟩ := helement
    have separate := separate e he
    rw [he] at hc ⊢
    obtain ⟨e₀, hold₀, hfacet₀⟩ := facet_inscribed holdMaps l.2 e
    obtain ⟨e₂, hnew, hfacet₂⟩ := facet_inscribed hmaps l.2 e
    rw [hold₀] at hc
    obtain ⟨e₁, rfl⟩ : ∃ e₁, c = .element e₁ :=
      (Content.exists_element_of_shape hc.shape_eq).imp fun _ => And.left
    obtain ⟨e', hrevised, hfacet⟩ := facet_revised hmaps old l.2 e₁
    have hshape := hpaint.trans (shape_inscribed hT hl data).symm
    rw [he, hrevised, hnew] at hshape
    rw [hrevised, hnew]
    refine .of_facet (Shape.element.inj hshape) fun f => ?_
    rw [hfacet, hfacet₂]
    refine rel_foldl (Mark.sources l.2) (fun s => s.2.sets (old.at s.1) f) _ (fun s => s.2.sets (data.at s.1) f)
      (fun s => ∃ data ∈ datas, f.target ∈ s.2.targets (data.at s.1)) ?_ ?_ ?_ ?_
    . intro s _ hs
      have hnone : ∀ data ∈ datas, f.target ∉ s.2.targets (data.at s.1) :=
        fun data hdata hmem => hs ⟨data, hdata, hmem⟩
      refine ⟨Binding.sets_eq_none (hnone old old_mem), ?_, Binding.sets_eq_none (hnone data mem)⟩
      split
      . rfl
      . exact Binding.resets_eq_none (hnone data mem) (hnone old old_mem)
    . refine separate.apart.imp ?_
      rintro s s' hapart ⟨data, hdata, hmem⟩ ⟨data', hdata', hmem'⟩
      exact hapart data hdata data' hdata' _ hmem hmem'
    . intro s hs o ho
      split
      . next hsame =>
        exact Value.Like.rel_trans ho (Binding.sets_same (hdata.from_at s.1) (hold.from_at s.1)
          (hmaps s.1) (holdMaps s.1) hsame s.2)
      . have hcancel := Binding.resets_sets (f := f) (hmaps s.1) (holdMaps s.1)
          (separate.fits s hs data mem) (separate.fits s hs old old_mem)
        rw [← hcancel]
        cases s.2.resets (data.at s.1) (old.at s.1) f with
        | none => exact ho
        | some value => exact Value.Like.rel_refl value
    . rw [← hfacet₀]
      exact hc.facet f
  . refine .of_shape_eq (hpaint.trans (shape_inscribed hT hl data).symm) fun e heq => helement ?_
    rw [heq] at hpaint
    exact element_of_paint hpaint.symm

end Revised

end Template
end VirtualDom
