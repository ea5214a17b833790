import VirtualDom.Proofs.Ownership.Lodgers

/-!
This module contains which views go at a patch, by the old view and the next one, and what becomes of all
that they hold.
-/

namespace VirtualDom

namespace View

mutual

/--
The views that go when a view that is mounted in `p` is brought in line with the next one: just these are
taken out, and each as a whole.
-/
inductive Sheds : NodeId → View → View → Multiset Lodger → Prop
  | replaced {p : NodeId} {old next : View} (kind : old.kind ≠ next.kind) :
      Sheds p old next {⟨p, old.withSole false⟩}
  | text {p : NodeId} {value value' : Value} {node node' parent parent' : Option NodeId} :
      Sheds p (.text value node parent) (.text value' node' parent') 0
  | html {p : NodeId} {markup markup' : String} {content content' : List NodeId}
      {parent parent' : Option NodeId} :
      Sheds p (.html markup content parent) (.html markup' content' parent') 0
  /-- A sole list that becomes empty clears its parent, and goes but for its anchor. -/
  | cleared {p : NodeId} {items : List (Key × View)} {anchor anchor' parent parent' : Option NodeId}
      {sole' : Bool} (ne_nil : items ≠ []) :
      Sheds p (.list items anchor parent true) (.list [] anchor' parent' sole')
        {⟨p, .list items anchor parent true⟩}
  /-- Items stay where a next one has their key; if no key occurs twice, all those do. -/
  | list {p : NodeId} {items items' : List (Key × View)} {anchor anchor' parent parent' : Option NodeId}
      {sole sole' : Bool} {kept kept' leaving fresh : Multiset (Key × View)} {gone : Multiset Lodger}
      (spared : sole → items' = [] → items = []) (old : (items : Multiset (Key × View)) = kept + leaving)
      (new : (items' : Multiset (Key × View)) = kept' + fresh) (inner : ItemsShed p kept kept' gone)
      (apart : (items.map Prod.fst).Nodup → ∀ a ∈ leaving, ∀ b ∈ fresh, a.1 ≠ b.1) :
      Sheds p (.list items anchor parent sole) (.list items' anchor' parent' sole')
        (gone + leaving.map fun item => ⟨p, item.2⟩)
  | multi {p : NodeId} {children children' : List (Option View)}
      {standIns standIns' : List (Option NodeId)} {parent parent' : Option NodeId} {sole sole' : Bool}
      {gone : Multiset Lodger} (inner : ChildrenShed p children children' gone) :
      Sheds p (.multi children standIns parent sole) (.multi children' standIns' parent' sole') gone
  | toggler {p : NodeId} {key : Key} {child child' : View} {parent parent' : Option NodeId}
      {gone : Multiset Lodger} (inner : Sheds p child child' gone) :
      Sheds p (.toggler key child parent) (.toggler key child' parent') gone
  | toggled {p : NodeId} {key key' : Key} {child child' : View} {parent parent' : Option NodeId}
      (ne : key ≠ key') :
      Sheds p (.toggler key child parent) (.toggler key' child' parent') {⟨p, child⟩}
  | block {p : NodeId} {template : Template} {data data' : Data} {children children' : List (Option View)}
      {root : NodeId} {references : List NodeId} {mounted : Option Anchorage} {place : Nat → NodeId}
      {gone : Nat → Multiset Lodger}
      (parent : ∀ slot ∈ template.wiring.slots,
        template.parentAt references slot.index = some (place slot.index))
      (inner : ∀ slot ∈ template.wiring.slots, ChildSheds (place slot.index) children[slot.index]?.join
        children'[slot.index]?.join (gone slot.index)) :
      Sheds p (.block template data children (some ⟨root, references⟩))
        (.block template data' children' mounted)
        (template.wiring.slots.map fun slot => gone slot.index).sum
  | component {p : NodeId} {name name' : String} {child child' : View} {id : NodeId}
      {node : Option NodeId} {gone : Multiset Lodger} (inner : Sheds id child child' gone) :
      Sheds p (.component name (some child) (some id)) (.component name' (some child') node) gone
  | leaf {p : NodeId} {name name' : String} {node node' : Option NodeId} :
      Sheds p (.component name none node) (.component name' none node') 0
  | ghost {p : NodeId} : Sheds p .ghost .ghost 0

inductive ChildSheds : NodeId → Option View → Option View → Multiset Lodger → Prop
  | absent {p : NodeId} {next : Option View} : ChildSheds p none next 0
  | kept {p : NodeId} {child child' : View} {gone : Multiset Lodger} (inner : Sheds p child child' gone) :
      ChildSheds p (some child) (some child') gone
  | left {p : NodeId} {child : View} : ChildSheds p (some child) none {⟨p, child⟩}

inductive ChildrenShed : NodeId → List (Option View) → List (Option View) → Multiset Lodger → Prop
  | nil {p : NodeId} : ChildrenShed p [] [] 0
  | cons {p : NodeId} {child child' : Option View} {rest rest' : List (Option View)}
      {gone gone' : Multiset Lodger} (first : ChildSheds p child child' gone)
      (later : ChildrenShed p rest rest' gone') :
      ChildrenShed p (child :: rest) (child' :: rest') (gone + gone')

inductive ItemsShed : NodeId → Multiset (Key × View) → Multiset (Key × View) → Multiset Lodger → Prop
  | nil {p : NodeId} : ItemsShed p 0 0 0
  | cons {p : NodeId} {key : Key} {item item' : View} {rest rest' : Multiset (Key × View)}
      {gone gone' : Multiset Lodger} (first : Sheds p item item' gone)
      (later : ItemsShed p rest rest' gone') :
      ItemsShed p ((key, item) ::ₘ rest) ((key, item') ::ₘ rest') (gone + gone')

end

theorem Sheds.no_items {p : NodeId} {anchor anchor' parent parent' : Option NodeId} {sole sole' : Bool}
    : Sheds p (.list [] anchor parent sole) (.list [] anchor' parent' sole') 0 := by
  have hnone : (([] : List (Key × View)) : Multiset (Key × View)) = 0 + 0 := rfl
  have hsheds : Sheds p (.list [] anchor parent sole) (.list [] anchor' parent' sole')
      (0 + (0 : Multiset (Key × View)).map fun item => ⟨p, item.2⟩) :=
    .list (fun _ _ => rfl) hnone hnone .nil (by simp)
  rwa [Multiset.map_zero, add_zero] at hsheds

end View

def Lodger.holdings (l : Lodger) : Holdings :=
  l.view.holdings l.parent

def holdingsGone (gone : Multiset Lodger) : Holdings :=
  (gone.map Lodger.holdings).sum

@[simp]
theorem holdingsGone_zero : holdingsGone 0 = 0 :=
  rfl

theorem holdingsGone_add (gone gone' : Multiset Lodger)
    : holdingsGone (gone + gone') = holdingsGone gone + holdingsGone gone' := by
  rw [holdingsGone, Multiset.map_add, Multiset.sum_add, holdingsGone, holdingsGone]

theorem holdingsGone_singleton (p : NodeId) (v : View) : holdingsGone {⟨p, v⟩} = v.holdings p :=
  Multiset.sum_singleton _

/-- The same components, and the same callbacks where patches are known to keep them. -/
def Agree (faithful : Prop) (held held' : Holdings) : Prop :=
  held.1 = held'.1 ∧ (faithful → held.2 = held'.2)

namespace Agree

variable {faithful : Prop} {a b c a' b' : Holdings}

theorem of_eq (h : a = b) : Agree faithful a b :=
  ⟨congrArg Prod.fst h, fun _ => congrArg Prod.snd h⟩

theorem trans (h : Agree faithful a b) (h' : Agree faithful b c) : Agree faithful a c :=
  ⟨h.1.trans h'.1, fun hf => (h.2 hf).trans (h'.2 hf)⟩

theorem add (h : Agree faithful a b) (h' : Agree faithful a' b') : Agree faithful (a + a') (b + b') :=
  ⟨congrArg₂ (· + ·) h.1 h'.1, fun hf => congrArg₂ (· + ·) (h.2 hf) (h'.2 hf)⟩

end Agree

abbrev Exchange :=
  Holdings × Multiset Lodger

theorem Exchange.came_add (held held' : Holdings)
    : ((held, 0) : Exchange) + (held', 0) = (held + held', 0) := by
  rw [Prod.mk_add_mk, add_zero]

theorem Exchange.sum_came {α : Type} (xs : List α) (held : α → Holdings)
    : (xs.map fun x => ((held x, 0) : Exchange)).sum = ((xs.map held).sum, 0) := by
  induction xs with
  | nil => rfl
  | cons x xs ih => rw [List.map_cons, List.sum_cons, ih, came_add, List.map_cons, List.sum_cons]

/-- What was held before and what came is held now, or went with one of the views that went. -/
def Trades (faithful : Prop) (old : Holdings) (x : Exchange) (new : Holdings) : Prop :=
  Agree faithful (old + x.1) (new + holdingsGone x.2)

namespace Trades

variable {faithful : Prop} {old new old' new' : Holdings} {x x' : Exchange}

theorem keep (held : Holdings) : Trades faithful held 0 held :=
  .of_eq rfl

theorem leave (p : NodeId) (v : View) : Trades faithful (v.holdings p) (0, {⟨p, v⟩}) 0 :=
  .of_eq (by rw [holdingsGone_singleton, add_comm])

theorem come (new : Holdings) : Trades faithful 0 (new, 0) new :=
  .of_eq (by rw [holdingsGone_zero, add_comm])

theorem add (h : Trades faithful old x new) (h' : Trades faithful old' x' new')
    : Trades faithful (old + old') (x + x') (new + new') := by
  have := Agree.add h h'
  rwa [add_add_add_comm, add_add_add_comm new, ← holdingsGone_add] at this

theorem supersede (h : Trades faithful 0 x new) (h' : Trades faithful old x' 0)
    : Trades faithful old (x + x') new := by
  have := h.add h'
  rwa [zero_add, add_zero] at this

theorem trans {mid : Holdings} (h : Trades faithful old x mid) (h' : Trades faithful mid x' new)
    : Trades faithful old (x + x') new := by
  have hcame : Agree faithful (old + x.1 + x'.1) (mid + x'.1 + holdingsGone x.2) := by
    rw [add_right_comm mid]
    exact Agree.add h (.of_eq rfl)
  have hwent : Agree faithful (mid + x'.1 + holdingsGone x.2)
      (new + holdingsGone x'.2 + holdingsGone x.2) := Agree.add h' (.of_eq rfl)
  have := hcame.trans hwent
  rwa [add_assoc, add_assoc, add_comm (holdingsGone x'.2), ← holdingsGone_add] at this

theorem sum {α : Type} {xs : List α} {f k : α → Holdings} {g : α → Exchange}
    (h : ∀ x ∈ xs, Trades faithful (f x) (g x) (k x))
    : Trades faithful (xs.map f).sum (xs.map g).sum (xs.map k).sum := by
  induction xs with
  | nil => exact keep 0
  | cons x xs ih =>
    simp only [List.map_cons, List.sum_cons]
    exact (h x List.mem_cons_self).add (ih fun y hy => h y (List.mem_cons_of_mem _ hy))

end Trades
end VirtualDom
