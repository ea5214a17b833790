import VirtualDom.Proofs.Document.Write
import VirtualDom.Proofs.Template.Fill
import VirtualDom.View.Patch

/-!
This module contains what can be said of views apart from any document: which ones are made by a
render, which ones may follow each other at one place, and what nodes they are to show.
-/

namespace VirtualDom

/-- What the allocations of a run hold; all that has one identity is one allocation. -/
structure Allocations where
  items : Nat → List Value
  display : Nat → String
  data : Nat → List Value

def noData : Allocations where
  items _ := []
  display _ := ""
  data _ := []

variable {alloc : Allocations}

namespace Value

/-- The value agrees with the allocation that it has the identity of. -/
def From (alloc : Allocations) : Value → Prop
  | .list identity items => items = alloc.items identity
  | .display identity text => text = alloc.display identity
  | _ => True

end Value

theorem Number.format_eq_of_same {x y : Number} (h : x.same y) : x.format .page = y.format .page := by
  simp only [Number.same, Bool.and_eq_true, Bool.or_eq_true, Bool.not_eq_true', beq_iff_eq] at h
  obtain ⟨⟨hx, hy⟩, h | ⟨hxz, hyz⟩⟩ := h
  . rw [show x = y by cases x; cases y; exact congrArg _ h]
  . have hfinite : ∀ z : Number, z.isZero → z.isFinite := by
      intro z hz
      simp only [Number.isZero, Bool.and_eq_true, beq_iff_eq] at hz
      simp [Number.isFinite, hz.1]
    simp [Number.format, Format.page, hx, hy, hxz, hyz, hfinite, Number.shortest]

theorem Value.text_eq_of_same {v w : Value} (hv : v.From alloc) (hw : w.From alloc) (h : v.same w)
    : v.text = w.text := by
  cases v <;> cases w <;> simp only [Value.same, beq_iff_eq, Bool.false_eq_true] at h
  case null.null => rfl
  case bool.bool => rw [h]
  case number.number => exact Number.format_eq_of_same h
  case str.str => rw [h]
  case list.list =>
    cases hv
    cases hw
    simp only [Value.text, h]
  case map.map => rfl
  case handler.handler => rfl
  case ref.ref => rfl
  case display.display =>
    cases hv
    cases hw
    simp only [Value.text, h]

/-- The data is of an allocation, and so is all that is in it. -/
structure Data.From (alloc : Allocations) (data : Data) : Prop where
  values_eq : data.values = alloc.data data.identity
  value : ∀ v ∈ data.values, v.From alloc

namespace Data.From

variable {data data' : Data}

theorem from_at (h : data.From alloc) (index : Nat) : (data.at index).From alloc := by
  unfold Data.at
  cases hv : data.values[index]? with
  | none => trivial
  | some v => exact h.value v (List.mem_of_getElem? hv)

theorem at_eq (h : data.From alloc) (h' : data'.From alloc) (heq : data.identity = data'.identity)
    (index : Nat) : data.at index = data'.at index := by
  unfold Data.at
  rw [h.values_eq, h'.values_eq, heq]

end Data.From

/-- The nodes of markup; document types and instructions have none. -/
def Markup.shapes : Markup → Forest Shape
  | .nil => .nil
  | .cons item children siblings =>
    match item with
    | .element tag _ => .cons (.element tag) (shapes children) (shapes siblings)
    | .text s | .cdata s => .cons (.text s) .nil (shapes siblings)
    | .comment s => .cons (.comment s) .nil (shapes siblings)
    | .doctype _ | .instruction _ => shapes siblings

def rawShapes (s : String) : Forest Shape :=
  match Markup.parse s with
  | .error _ => .leaf (.text s)
  | .ok m =>
    match m.shapes with
    | .nil => .leaf (.text "")
    | shapes => shapes

namespace View

/-- The views that a render makes of texts, markup, items, children, keys and templates. -/
inductive Built (alloc : Allocations) : View → Prop
  | text {value : Value} (value_from : value.From alloc) : Built alloc (.ofText value)
  | html (markup : String) : Built alloc (.ofMarkup markup)
  | list {items : List (Key × View)} (item : ∀ item ∈ items, Built alloc item.2) :
      Built alloc (.ofItems items)
  | multi {children : List (Option View)} (ne_nil : children ≠ [])
      (child : ∀ child, some child ∈ children → Built alloc child) : Built alloc (.ofChildren children)
  | toggler {key : Key} {child : View} (inner : Built alloc child) : Built alloc (.ofKey key child)
  | block {template : Template} {source : String} {normalize : Bool} {data : Data}
      {children : List (Option View)} {view : View} (compiled : template.Compiled source normalize)
      (indices : (template.wiring.slots.map (·.index)).Nodup) (data_from : data.From alloc)
      (child : ∀ child, some child ∈ children → Built alloc child)
      (made : View.ofTemplate template data children = .ok view) : Built alloc view

/--
Views that may follow each other at one place: where both are blocks they share a template, where both
are multis they have equally many children, and so on for the children that meet.
-/
inductive Compatible : View → View → Prop
  | replaced {old new : View} (kind : old.kind ≠ new.kind) : Compatible old new
  | text {value value' : Value} {node node' parent parent' : Option NodeId} :
      Compatible (.text value node parent) (.text value' node' parent')
  | html {markup markup' : String} {content content' : List NodeId} {parent parent' : Option NodeId} :
      Compatible (.html markup content parent) (.html markup' content' parent')
  | list {items items' : List (Key × View)} {anchor anchor' parent parent' : Option NodeId}
      {sole sole' : Bool}
      (item : ∀ a ∈ items, ∀ b ∈ items', a.1 = b.1 → Compatible a.2 b.2) :
      Compatible (.list items anchor parent sole) (.list items' anchor' parent' sole')
  | multi {children children' : List (Option View)} {standIns standIns' : List (Option NodeId)}
      {parent parent' : Option NodeId} {sole sole' : Bool}
      (length : children.length = children'.length)
      (child : ∀ (i : Nat) (a b : View), children[i]? = some (some a) → children'[i]? = some (some b) →
        Compatible a b) :
      Compatible (.multi children standIns parent sole) (.multi children' standIns' parent' sole')
  | toggler {key key' : Key} {child child' : View} {parent parent' : Option NodeId}
      (inner : key = key' → Compatible child child') :
      Compatible (.toggler key child parent) (.toggler key' child' parent')
  | block {template : Template} {data data' : Data} {children children' : List (Option View)}
      {mounted mounted' : Option Anchorage}
      (child : ∀ slot ∈ template.wiring.slots, ∀ (a b : View), children[slot.index]? = some (some a) →
        children'[slot.index]? = some (some b) → Compatible a b) :
      Compatible (.block template data children mounted) (.block template data' children' mounted')

/--
Views that meet at one place. Where it is not sure that they are compatible, blocks of templates with
other sources and multis of other lengths may meet as well.
-/
inductive Meets (sure : Prop) : View → View → Prop
  | replaced {old new : View} (kind : old.kind ≠ new.kind) : Meets sure old new
  | text {value value' : Value} {node node' parent parent' : Option NodeId} :
      Meets sure (.text value node parent) (.text value' node' parent')
  | html {markup markup' : String} {content content' : List NodeId} {parent parent' : Option NodeId} :
      Meets sure (.html markup content parent) (.html markup' content' parent')
  | list {items items' : List (Key × View)} {anchor anchor' parent parent' : Option NodeId}
      {sole sole' : Bool}
      (item : ∀ a ∈ items, ∀ b ∈ items', a.1 = b.1 → Meets sure a.2 b.2) :
      Meets sure (.list items anchor parent sole) (.list items' anchor' parent' sole')
  | multi {children children' : List (Option View)} {standIns standIns' : List (Option NodeId)}
      {parent parent' : Option NodeId} {sole sole' : Bool}
      (length : sure → children.length = children'.length)
      (child : ∀ (i : Nat) (a b : View), children[i]? = some (some a) → children'[i]? = some (some b) →
        Meets sure a b) :
      Meets sure (.multi children standIns parent sole) (.multi children' standIns' parent' sole')
  | toggler {key key' : Key} {child child' : View} {parent parent' : Option NodeId}
      (inner : key = key' → Meets sure child child') :
      Meets sure (.toggler key child parent) (.toggler key' child' parent')
  | block {template : Template} {data data' : Data} {children children' : List (Option View)}
      {mounted mounted' : Option Anchorage}
      (child : ∀ slot ∈ template.wiring.slots, ∀ (a b : View), children[slot.index]? = some (some a) →
        children'[slot.index]? = some (some b) → Meets sure a b) :
      Meets sure (.block template data children mounted) (.block template data' children' mounted')
  | strange {template template' : Template} {data data' : Data}
      {children children' : List (Option View)} {mounted mounted' : Option Anchorage}
      (not_sure : ¬ sure) (source : template.source ≠ template'.source) :
      Meets sure (.block template data children mounted) (.block template' data' children' mounted')

theorem Compatible.meets {sure : Prop} {v w : View} (h : Compatible v w) : Meets sure v w := by
  induction h with
  | replaced kind => exact .replaced kind
  | text => exact .text
  | html => exact .html
  | list item ih => exact .list ih
  | multi length child ih => exact .multi (fun _ => length) ih
  | toggler inner ih => exact .toggler ih
  | block child ih => exact .block ih

/-- A mounted view, first, stands for what another one describes. -/
inductive Alike : View → View → Prop
  | text {value value' : Value} {node node' parent parent' : Option NodeId}
      (text : value.text = value'.text) :
      Alike (.text value node parent) (.text value' node' parent')
  | html {markup : String} {content content' : List NodeId} {parent parent' : Option NodeId} :
      Alike (.html markup content parent) (.html markup content' parent')
  | list {items items' : List (Key × View)} {anchor anchor' parent parent' : Option NodeId}
      {sole sole' : Bool} (keys : items.map (·.1) = items'.map (·.1))
      (item : ∀ (i : Nat) (a b : Key × View), items[i]? = some a → items'[i]? = some b →
        Alike a.2 b.2) :
      Alike (.list items anchor parent sole) (.list items' anchor' parent' sole')
  | multi {children children' : List (Option View)} {standIns standIns' : List (Option NodeId)}
      {parent parent' : Option NodeId} {sole sole' : Bool}
      (isSome : children.map (·.isSome) = children'.map (·.isSome))
      (child : ∀ (i : Nat) (a b : View), children[i]? = some (some a) → children'[i]? = some (some b) →
        Alike a b) :
      Alike (.multi children standIns parent sole) (.multi children' standIns' parent' sole')
  | toggler {key : Key} {child child' : View} {parent parent' : Option NodeId}
      (inner : Alike child child') : Alike (.toggler key child parent) (.toggler key child' parent')
  | block {template : Template} {data : Data} {children children' : List (Option View)}
      {mounted mounted' : Option Anchorage}
      (isSome : ∀ slot ∈ template.wiring.slots,
        children[slot.index]?.map (·.isSome) = children'[slot.index]?.map (·.isSome))
      (child : ∀ slot ∈ template.wiring.slots, ∀ (a b : View), children[slot.index]? = some (some a) →
        children'[slot.index]? = some (some b) → Alike a b) :
      Alike (.block template data children mounted) (.block template data children' mounted')

theorem Meets.of_alike {sure : Prop} {v w next : View} (h : Alike v w) (hc : Meets sure w next)
    : Meets sure v next := by
  -- A child that is there on one side is there on the other.
  have meets : ∀ {x y : Option (Option View)} {a : View}, x.map (·.isSome) = y.map (·.isSome) →
      x = some (some a) → ∃ b, y = some (some b) := by
    rintro x y a hxy rfl
    match y, hxy with
    | some (some b), _ => exact ⟨b, rfl⟩
  induction h generalizing next with
  | text text =>
    cases hc with
    | replaced kind => exact .replaced kind
    | text => exact .text
  | html =>
    cases hc with
    | replaced kind => exact .replaced kind
    | html => exact .html
  | @list items items' _ _ _ _ _ _ keys item ih =>
    cases hc with
    | replaced kind => exact .replaced kind
    | list hitem =>
      refine .list fun a ha c hc hac => ?_
      obtain ⟨i, hi⟩ := List.getElem?_of_mem ha
      have hk : (items'.map (·.1))[i]? = some a.1 := by
        rw [← keys, List.getElem?_map, hi]
        rfl
      rw [List.getElem?_map] at hk
      obtain ⟨b, hb, hab⟩ := Option.map_eq_some_iff.1 hk
      exact ih i a b hi hb (hitem b (List.mem_of_getElem? hb) c hc (hab.trans hac))
  | multi isSome child ih =>
    cases hc with
    | replaced kind => exact .replaced kind
    | multi length hchild =>
      refine .multi (fun hsure => ?_) fun i a c ha hc => ?_
      . have := congrArg List.length isSome
        simp only [List.length_map] at this
        exact this.trans (length hsure)
      . have hi := congrArg (·[i]?) isSome
        simp only [List.getElem?_map] at hi
        obtain ⟨b, hb⟩ := meets hi ha
        exact ih i a b ha hb (hchild i b c hb hc)
  | toggler inner ih =>
    cases hc with
    | replaced kind => exact .replaced kind
    | toggler hinner => exact .toggler fun hk => ih (hinner hk)
  | block isSome child ih =>
    cases hc with
    | replaced kind => exact .replaced kind
    | block hchild =>
      refine .block fun slot hs a c ha hc => ?_
      obtain ⟨b, hb⟩ := meets (isSome slot hs) ha
      exact ih slot hs a b ha hb (hchild slot hs b c hb hc)
    | strange not_sure source => exact .strange not_sure source

mutual

def appearance : View → Forest Shape
  | .block template data children _ =>
    let guests := appearances .nil children
    Template.fill (Template.paint data) (fun i => guests[i]?.getD .nil) template.sketch
  | .text value _ _ => .leaf (.text value.text)
  | .html markup _ _ => rawShapes markup
  | .list items _ _ _ => .join (itemAppearances items) ++ .leaf (.text "")
  | .multi children _ _ _ => .join (appearances (.leaf (.text "")) children)
  | .toggler _ child _ => appearance child
  | .component _ _ _ | .ghost => .nil

def appearances (absent : Forest Shape) : List (Option View) → List (Forest Shape)
  | [] => []
  | none :: rest => absent :: appearances absent rest
  | some child :: rest => appearance child :: appearances absent rest

def itemAppearances : List (Key × View) → List (Forest Shape)
  | [] => []
  | (_, item) :: rest => appearance item :: itemAppearances rest

end

theorem appearances_eq_map (absent : Forest Shape) (children : List (Option View))
    : appearances absent children = children.map fun child => (child.map appearance).getD absent := by
  induction children with
  | nil => rfl
  | cons child rest ih => cases child <;> simp [appearances, ih]

theorem itemAppearances_eq_map (items : List (Key × View))
    : itemAppearances items = items.map (·.2.appearance) := by
  induction items with
  | nil => rfl
  | cons item rest ih => simp [itemAppearances, ih]

end View
end VirtualDom
