import VirtualDom.Proofs.Document.Twin
import VirtualDom.Proofs.View.Matching
import VirtualDom.Proofs.View.Patch

/-!
This module contains what views do not look at: neither the trace nor what was counted and recorded of the
document has any influence on what mounting, moving, patching or removing a view does.
-/

namespace VirtualDom

open Engine

namespace Engine

/-- The same result, or the same fault, from documents that are twins to such documents again. -/
inductive Twins {α : Type} : EStateM.Result Fault Host α → EStateM.Result Fault Host α → Prop
  | ok (a : α) {h h' : Host} (twin : h.document.Twin h'.document) : Twins (.ok a h) (.ok a h')
  | error (e : Fault) {h h' : Host} (twin : h.document.Twin h'.document) :
      Twins (.error e h) (.error e h')

/-- The action does the same on twins, whatever was told before. -/
def Heedless {α : Type} (x : Engine α) : Prop :=
  ∀ h h' : Host, h.document.Twin h'.document → Twins (x h) (x h')

namespace Heedless

variable {α β γ : Type} {x : Engine α} {f : α → Engine β}

theorem pure (a : α) : Heedless (Pure.pure a) :=
  fun _ _ twin => .ok a twin

theorem throw (e : Fault) : Heedless (MonadExcept.throw e : Engine α) :=
  fun _ _ twin => .error e twin

theorem bind_of {P : α → Prop} (hx : Heedless x) (hP : ∀ h a h', x h = .ok a h' → P a)
    (hf : ∀ a, P a → Heedless (f a)) : Heedless (x >>= f) := by
  intro h h' twin
  have hx := hx h h' twin
  simp only [Bind.bind, EStateM.bind]
  generalize hr : x h = r at hx ⊢
  generalize x h' = r' at hx ⊢
  cases hx with
  | ok a twin => exact hf a (hP _ a _ hr) _ _ twin
  | error e twin => exact .error e twin

theorem bind (hx : Heedless x) (hf : ∀ a, Heedless (f a)) : Heedless (x >>= f) :=
  bind_of (P := fun _ => True) hx (fun _ _ _ _ => trivial) fun a _ => hf a

theorem map (hx : Heedless x) (g : α → β) : Heedless (do return g (← x)) :=
  hx.bind fun a => pure (g a)

theorem read {g : Document → Except Fault α} (hg : ∀ d d' : Document, d.Twin d' → g d' = g d)
    : Heedless (Engine.read g) := by
  intro h h' twin
  unfold Engine.read
  rw [hg _ _ twin]
  cases g h.document with
  | ok a => exact .ok a twin
  | error e => exact .error e twin

theorem edit {g : Document → Except Fault Document}
    (hg : ∀ d d' : Document, d.Twin d' → Match Document.Twin (g d) (g d')) : Heedless (Engine.edit g) := by
  intro h h' twin
  unfold Engine.edit
  have hg := hg _ _ twin
  generalize g h.document = r at hg ⊢
  generalize g h'.document = r' at hg ⊢
  cases hg with
  | ok twin => exact .ok () twin
  | error e => exact .error e twin

theorem change {g : Document → Except Fault (α × Document)}
    (hg : ∀ d d' : Document, d.Twin d' → Match Document.TwinWith (g d) (g d'))
    : Heedless (Engine.change g) := by
  intro h h' twin
  unfold Engine.change
  have hg := hg _ _ twin
  generalize g h.document = r at hg ⊢
  generalize g h'.document = r' at hg ⊢
  cases hg with
  | @ok a b htwin =>
    obtain ⟨a, d⟩ := a
    obtain ⟨b, d'⟩ := b
    obtain ⟨rfl, htwin⟩ : a = b ∧ d.Twin d' := htwin
    exact .ok a htwin
  | error e => exact .error e twin

theorem create (c : Content) : Heedless (Engine.create (·.create c)) := by
  intro h h' twin
  obtain ⟨hid, htwin⟩ := twin.create c
  have hrun : ∀ h : Host, Engine.create (·.create c) h
      = .ok (h.document.create c).1 { h with document := (h.document.create c).2 } := fun _ => rfl
  rw [hrun, hrun, hid]
  exact .ok _ htwin

theorem log (entries : List Entry) : Heedless (Engine.log entries) :=
  fun _ _ twin => .ok () twin

theorem warn (w : Warning) : Heedless (Engine.warn w) :=
  log _

theorem insert (parent id : NodeId) (anchor : Option NodeId) : Heedless (Engine.insert parent id anchor) :=
  edit fun _ _ twin => twin.insertBefore id parent anchor

theorem discard (id : NodeId) : Heedless (Engine.discard id) :=
  edit fun _ _ twin => twin.discard id

theorem clear (parent : NodeId) (own : List NodeId) : Heedless (Engine.clear parent own) := by
  refine (read fun _ _ twin => twin.children parent).bind fun children => ?_
  refine (edit fun _ _ twin => .ok (twin.recordClearing ⟨parent, children, own⟩)).bind fun _ => ?_
  exact edit fun _ _ twin => twin.discardChildren

theorem recordArrival (c : Component) : Heedless (Engine.edit fun d => .ok (d.recordArrival c)) :=
  edit fun _ _ twin => .ok (twin.recordArrival c)

theorem setAttribute (id : NodeId) (name value : String)
    : Heedless (Engine.edit (·.setAttribute id name value)) :=
  edit fun _ _ twin => twin.modifyElement id _ _

theorem removeAttribute (id : NodeId) (name : String)
    : Heedless (Engine.edit (·.removeAttribute id name)) :=
  edit fun _ _ twin => twin.modifyElement id _ _

theorem forM {g : γ → Engine PUnit} {xs : List γ} (hg : ∀ x ∈ xs, Heedless (g x))
    : Heedless (xs.forM g) := by
  induction xs with
  | nil => exact pure _
  | cons x xs ih =>
    exact (hg x List.mem_cons_self).bind fun _ => ih fun x hx => hg x (List.mem_cons_of_mem _ hx)

theorem foldlM {g : α → γ → Engine α} (hg : ∀ a x, Heedless (g a x)) (xs : List γ) (a : α)
    : Heedless (xs.foldlM g a) := by
  induction xs generalizing a with
  | nil => exact pure a
  | cons x xs ih => exact (hg a x).bind fun a => ih a

theorem option {g : γ → Engine PUnit} (hg : ∀ c, Heedless (g c)) (c : Option γ)
    : Heedless (c.forM g) := by
  cases c with
  | none => exact pure _
  | some c => exact hg c

end Heedless
end Engine

namespace Template

theorem reference_heedless (references : List NodeId) (index : Nat)
    : Heedless (reference references index) := by
  unfold reference
  split
  . exact .pure _
  . exact .throw _

theorem references_heedless (references : List NodeId) (index : Option Nat)
    : Heedless (index.mapM (reference references)) := by
  cases index with
  | none => exact .pure _
  | some index => exact (reference_heedless references index).map some

theorem Wiring.locate_heedless (w : Wiring) (root : NodeId) : Heedless (w.locate root) := by
  refine .foldlM (fun references step => ?_) _ _
  refine (reference_heedless _ _).bind fun source => ?_
  cases step.direction with
  | firstChild =>
    refine (Heedless.read fun _ _ twin => twin.firstChild source).bind fun found => ?_
    cases found with
    | none => exact .throw _
    | some node => exact .pure _
  | nextSibling =>
    refine (Heedless.read fun _ _ twin => twin.nextSibling source).bind fun found => ?_
    cases found with
    | none => exact .throw _
    | some node => exact .pure _

namespace Binding

variable {node : NodeId}

theorem writeAttribute_heedless (name : String) (value : Value)
    : Heedless (writeAttribute node name value) := by
  unfold writeAttribute
  split
  . exact .removeAttribute _ _
  . exact .setAttribute _ _ _
  . exact .setAttribute _ _ _

theorem writeAttributes_heedless (attributes : List (String × Value))
    : Heedless (writeAttributes node attributes) :=
  .forM fun _ _ => writeAttribute_heedless _ _

theorem removeAttributes_heedless (names : List String) : Heedless (removeAttributes node names) :=
  .forM fun _ _ => .removeAttribute _ _

theorem setBag_heedless (bag : Value) : Heedless (setBag node bag) := by
  unfold setBag
  split
  . exact writeAttributes_heedless _
  . exact writeAttributes_heedless _
  . exact writeAttributes_heedless _
  . exact .warn _

theorem updateBag_heedless (bag old : Value) : Heedless (updateBag node bag old) := by
  unfold updateBag
  split
  . split
    . split
      . exact (Heedless.removeAttribute _ _).bind fun _ => writeAttribute_heedless _ _
      . split
        . exact writeAttribute_heedless _ _
        . exact .pure _
    . exact setBag_heedless _
  . exact (removeAttributes_heedless _).bind fun _ => writeAttributes_heedless _
  . exact (removeAttributes_heedless _).bind fun _ => setBag_heedless _

theorem addClasses_heedless (tokens : List String) : Heedless (addClasses node tokens) :=
  .forM fun token _ => .edit fun _ _ twin => twin.addClass node token

theorem removeClasses_heedless (tokens : List String) : Heedless (removeClasses node tokens) :=
  .forM fun token _ => .edit fun _ _ twin => twin.removeClass node token

theorem set_heedless (value : Value) : ∀ b : Binding, Heedless (b.set node value)
  | .text => .edit fun _ _ twin => twin.setText node _
  | .property _ | .handler _ => .edit fun _ _ twin => twin.modifyElement node _ _
  | .classes => addClasses_heedless _
  | .attribute _ => writeAttribute_heedless _ _
  | .bag => setBag_heedless _
  | .ref => by
    simp only [set]
    split
    . exact .log _
    . exact .pure _

theorem update_heedless (value old : Value) : ∀ b : Binding, Heedless (b.update node value old)
  | .classes => (removeClasses_heedless _).bind fun _ => addClasses_heedless _
  | .bag => updateBag_heedless _ _
  | .ref => .pure _
  | .text => set_heedless value .text
  | .property name => set_heedless value (.property name)
  | .attribute name => set_heedless value (.attribute name)
  | .handler event => set_heedless value (.handler event)

end Binding
end Template

namespace View

section Mount

theorem buildMarkup_heedless (m : Markup) : Heedless (buildMarkup m) := by
  induction m with
  | nil => exact .pure _
  | cons item children siblings ihc ihs =>
    have hleaf : ∀ c : Content,
        Heedless (do let node ← create (·.create c); return node :: (← buildMarkup siblings)) :=
      fun c => (Heedless.create c).bind fun node => ihs.map _
    cases item with
    | element tag attributes =>
      rw [buildMarkup]
      refine (Heedless.create (.element { tag })).bind fun node => ?_
      refine (Heedless.forM fun _ _ => .setAttribute _ _ _).bind fun _ => ?_
      refine ihc.bind fun below => ?_
      refine (Heedless.forM fun _ _ => .insert _ _ _).bind fun _ => ?_
      exact ihs.map _
    | text s => exact hleaf (.text s)
    | cdata s => exact hleaf (.text s)
    | comment s => exact hleaf (.comment s)
    | doctype s => exact ihs
    | instruction s => exact ihs

theorem rawNodes_heedless (s : String) : Heedless (rawNodes s) := by
  unfold rawNodes
  split
  . exact (Heedless.warn _).bind fun _ => (Heedless.create (.text s)).map _
  . refine (buildMarkup_heedless _).bind fun nodes => ?_
    split
    . exact (Heedless.create (.text "")).map _
    . exact .pure _

theorem insertAll_heedless (parent : NodeId) (nodes : List NodeId) (anchor : Option NodeId)
    : Heedless (insertAll parent nodes anchor) :=
  .forM fun node _ => .insert parent node anchor

theorem mountStandIn_heedless (parent : NodeId) (anchor : Option NodeId)
    : Heedless (mountStandIn parent anchor) :=
  (Heedless.create (.text "")).bind fun node => (Heedless.insert parent node anchor).map _

theorem plantBlock_heedless (template : Template) (data : Data) (parent : NodeId) (anchor : Option NodeId)
    : Heedless (plantBlock template data parent anchor) := by
  unfold plantBlock
  refine (Heedless.change fun _ _ twin => twin.plant).bind fun roots => ?_
  split
  . exact .throw _
  . refine (Heedless.insert _ _ _).bind fun _ => ?_
    refine (template.wiring.locate_heedless _).bind fun references => ?_
    refine (Heedless.forM fun location _ => ?_).bind fun _ => .pure _
    exact (Template.reference_heedless _ _).bind fun _ => Template.Binding.set_heedless _ _

theorem mountSlot_heedless {mountings : List (Option Mounting)}
    (hm : ∀ m, some m ∈ mountings → ∀ sole parent anchor, Heedless (m sole parent anchor))
    (references : List NodeId) (children : List (Option View)) (slot : Template.ChildSlot)
    : Heedless (mountSlot references mountings children slot) := by
  unfold mountSlot
  split
  . exact .pure _
  . next m hslot =>
    have hmem : some m ∈ mountings := List.mem_of_getElem? (Option.join_eq_some_iff.1 hslot)
    refine (Template.reference_heedless _ _).bind fun parent => ?_
    refine (Template.references_heedless _ _).bind fun anchor => ?_
    exact (hm m hmem _ _ _).map _

theorem mountBlock_heedless {mountings : List (Option Mounting)}
    (hm : ∀ m, some m ∈ mountings → ∀ sole parent anchor, Heedless (m sole parent anchor))
    (template : Template) (data : Data) (children : List (Option View)) (parent : NodeId)
    (anchor : Option NodeId) : Heedless (mountBlock template data children mountings parent anchor) := by
  rw [mountBlock_eq]
  refine (plantBlock_heedless _ _ _ _).bind fun anchorage => ?_
  exact (Heedless.foldlM (mountSlot_heedless hm _) _ _).map _

mutual

theorem mountAs_heedless : ∀ (v : View) (sole : Bool) (parent : NodeId) (anchor : Option NodeId),
    Heedless (v.mountAs sole parent anchor)
  | .block template data children _, _, parent, anchor => by
    rw [mountAs]
    exact mountBlock_heedless (mountings_heedless children) _ _ _ _ _
  | .text value _ _, _, parent, anchor => by
    rw [mountAs]
    exact (Heedless.create (.text value.text)).bind fun node => (Heedless.insert _ _ _).map _
  | .html markup _ _, _, parent, anchor => by
    rw [mountAs]
    exact (rawNodes_heedless markup).bind fun content => (insertAll_heedless _ _ _).map _
  | .list items _ _ _, _, parent, anchor => by
    rw [mountAs]
    exact (mountStandIn_heedless parent anchor).bind fun last => (mountItems_heedless items _ _).map _
  | .multi children _ _ _, _, parent, anchor => by
    rw [mountAs]
    exact (mountChildren_heedless children parent anchor).map _
  | .toggler key child _, _, parent, anchor => by
    rw [mountAs]
    exact (mountAs_heedless child _ parent anchor).map _
  | .component name none _, _, parent, anchor => by
    rw [mountAs]
    refine (Heedless.create (.element { tag := "i" })).bind fun node => ?_
    refine (Heedless.setAttribute node "id" name).bind fun _ => ?_
    refine (Heedless.insert parent node anchor).bind fun _ => ?_
    exact (Heedless.recordArrival ⟨name, node, parent⟩).map _
  | .component name (some child) _, _, parent, anchor => by
    rw [mountAs]
    refine (Heedless.create (.element { tag := "i" })).bind fun node => ?_
    refine (Heedless.setAttribute node "id" name).bind fun _ => ?_
    refine (Heedless.insert parent node anchor).bind fun _ => ?_
    refine (Heedless.recordArrival ⟨name, node, parent⟩).bind fun _ => ?_
    exact (mountAs_heedless child _ node none).map _
  | .ghost, _, _, _ => by
    rw [mountAs]
    exact (Heedless.log _).map _

theorem mountings_heedless : ∀ (children : List (Option View)) (m : Mounting),
    some m ∈ mountings children → ∀ sole parent anchor, Heedless (m sole parent anchor)
  | [], m, hm => nomatch hm
  | none :: rest, m, hm => by
    rw [mountings, List.mem_cons] at hm
    exact mountings_heedless rest m (hm.resolve_left nofun)
  | some child :: rest, m, hm => by
    rw [mountings, List.mem_cons] at hm
    rcases hm with hm | hm
    . cases hm
      exact mountAs_heedless child
    . exact mountings_heedless rest m hm

theorem mountItems_heedless : ∀ (items : List (Key × View)) (parent anchor : NodeId),
    Heedless (mountItems parent anchor items)
  | [], _, _ => by
    rw [mountItems]
    exact .pure _
  | (key, item) :: rest, parent, anchor => by
    rw [mountItems]
    exact (mountAs_heedless item _ _ _).bind fun item => (mountItems_heedless rest parent anchor).map _

theorem mountChildren_heedless
    : ∀ (children : List (Option View)) (parent : NodeId) (anchor : Option NodeId),
        Heedless (mountChildren parent anchor children)
  | [], _, _ => by
    rw [mountChildren]
    exact .pure _
  | none :: rest, parent, anchor => by
    rw [mountChildren]
    refine (mountStandIn_heedless parent anchor).bind fun node => ?_
    exact (mountChildren_heedless rest parent anchor).map _
  | some child :: rest, parent, anchor => by
    rw [mountChildren]
    refine (mountAs_heedless child _ parent anchor).bind fun child => ?_
    exact (mountChildren_heedless rest parent anchor).map _

end

theorem mount_heedless (v : View) (parent : NodeId) (anchor : Option NodeId)
    : Heedless (v.mount parent anchor) :=
  mountAs_heedless v _ parent anchor

end Mount

section Remove

mutual

theorem moveBefore_heedless (target : Option NodeId) : ∀ v : View, Heedless (v.moveBefore target)
  | .block _ _ _ none | .text _ none _ | .text _ (some _) none | .html _ _ none | .list _ none _ _
  | .list _ (some _) none _ | .multi _ _ none _ | .component _ _ none => by
    rw [moveBefore.eq_def]
    exact .pure _
  | .block _ _ _ (some anchorage) => by
    rw [moveBefore]
    refine (Heedless.read fun _ _ twin => twin.parent _).bind fun parent => ?_
    cases parent with
    | none => exact .pure _
    | some parent => exact .insert _ _ _
  | .text _ (some _) (some _) => by
    rw [moveBefore]
    exact .insert _ _ _
  | .html _ content (some parent) => by
    rw [moveBefore]
    exact insertAll_heedless parent content target
  | .list items (some _) (some _) _ => by
    rw [moveBefore]
    exact (moveItems_heedless target items).bind fun _ => .insert _ _ _
  | .multi children standIns (some parent) _ => by
    rw [moveBefore]
    exact moveChildren_heedless target parent children standIns
  | .toggler _ child _ => by
    rw [moveBefore]
    exact moveBefore_heedless target child
  | .component _ _ (some node) => by
    rw [moveBefore]
    refine (Heedless.read fun _ _ twin => twin.parent node).bind fun parent => ?_
    cases parent with
    | none => exact .throw _
    | some parent => exact .insert _ _ _
  | .ghost => by
    rw [moveBefore]
    exact .log _

theorem moveItems_heedless (target : Option NodeId)
    : ∀ items : List (Key × View), Heedless (moveItems target items)
  | [] => by
    rw [moveItems]
    exact .pure _
  | (_, item) :: rest => by
    rw [moveItems]
    exact (moveBefore_heedless target item).bind fun _ => moveItems_heedless target rest

theorem moveChildren_heedless (target : Option NodeId) (parent : NodeId)
    : ∀ (children : List (Option View)) (standIns : List (Option NodeId)),
        Heedless (moveChildren target parent children standIns)
  | some child :: rest, _ :: standIns => by
    rw [moveChildren]
    exact (moveBefore_heedless target child).bind fun _ => moveChildren_heedless target parent rest standIns
  | none :: rest, none :: standIns => by
    rw [moveChildren.eq_def]
    exact moveChildren_heedless target parent rest standIns
  | none :: rest, some node :: standIns => by
    rw [moveChildren]
    exact (Heedless.insert _ _ _).bind fun _ => moveChildren_heedless target parent rest standIns
  | [], _ | some _ :: _, [] | none :: _, [] => by
    rw [moveChildren.eq_def]
    exact .pure _

end

theorem releaseCallbacks_heedless (template : Template) (data : Data)
    : Heedless (releaseCallbacks template data) := by
  refine .forM fun index _ => ?_
  cases data.at index with
  | ref identity label => exact .log _
  | _ => exact .pure _

mutual

theorem remove_heedless : ∀ v : View, Heedless v.remove
  | .block _ _ _ none | .list _ none _ _ | .list _ (some _) none _ | .multi _ _ none _ => by
    rw [remove.eq_def]
    exact .pure _
  | .block template data children (some anchorage) => by
    rw [remove.eq_def]
    exact (Heedless.discard _).bind fun _ => (releaseCallbacks_heedless template data).map _
  | .text _ node _ => by
    rw [remove]
    exact (Heedless.option .discard node).map _
  | .html _ content _ => by
    rw [remove]
    exact (Heedless.forM fun id _ => .discard id).map _
  | .list _ (some _) (some _) true | .multi _ _ (some _) true => by
    rw [remove.eq_def]
    exact (Heedless.clear _ _).map _
  | .list items (some anchor) (some parent) false => by
    rw [remove.eq_def]
    exact (removeItems_heedless items).bind fun items => (Heedless.discard anchor).map _
  | .multi children standIns (some parent) false => by
    rw [remove.eq_def]
    exact (removeChildren_heedless children standIns).map _
  | .toggler key child parent => by
    rw [remove]
    exact (remove_heedless child).map _
  | .component name child node => by
    rw [remove]
    exact (Heedless.log _).bind fun _ => (Heedless.option .discard node).map _
  | .ghost => by
    rw [remove]
    exact (Heedless.log _).map _

theorem removeItems_heedless : ∀ items : List (Key × View), Heedless (removeItems items)
  | [] => by
    rw [removeItems]
    exact .pure _
  | (key, item) :: rest => by
    rw [removeItems]
    exact (remove_heedless item).bind fun item => (removeItems_heedless rest).map _

theorem removeChildren_heedless
    : ∀ (children : List (Option View)) (standIns : List (Option NodeId)),
        Heedless (removeChildren children standIns)
  | some child :: rest, _ :: standIns => by
    rw [removeChildren]
    exact (remove_heedless child).bind fun child => (removeChildren_heedless rest standIns).map _
  | none :: rest, standIn :: standIns => by
    rw [removeChildren]
    exact (Heedless.option .discard standIn).bind fun _ => (removeChildren_heedless rest standIns).map _
  | [], _ | some _ :: _, [] | none :: _, [] => by
    rw [removeChildren.eq_def]
    exact .pure _

end

theorem beforeRemove_heedless (v : View) : Heedless v.beforeRemove := by
  intro h h' twin
  rw [beforeRemove_eq, beforeRemove_eq]
  exact .ok () twin

theorem beforeRemoveItems_heedless (items : List (Key × View)) : Heedless (beforeRemoveItems items) := by
  intro h h' twin
  rw [beforeRemoveItems_eq, beforeRemoveItems_eq]
  exact .ok () twin

theorem tearDown_heedless (v : View) : Heedless v.tearDown :=
  (beforeRemove_heedless v).bind fun _ => remove_heedless v

end Remove

section Reconcile

def Incoming.Heedless (incoming : Incoming) : Prop :=
  ∀ sole old, Engine.Heedless (incoming.patchAs sole old)

namespace Reconcile

theorem learn_heedless (known : Option Positions) (old : Old) : Heedless (learn known old) := by
  cases known with
  | some known => exact .pure _
  | none =>
    refine .foldlM (fun known item => ?_) _ _
    unfold positions.add
    split
    . exact (Heedless.warn _).map fun _ => _
    . exact .pure _

theorem mountAll_heedless (parent : NodeId) (anchor : Option NodeId) (new : List (Key × Incoming))
    : Heedless (mountAll parent anchor new) := by
  induction new with
  | nil => exact .pure _
  | cons e new ih => exact (mount_heedless e.2.view parent anchor).bind fun view => ih.map _

theorem loop_heedless {parent anchor : NodeId} {known : Option Positions} {old : Old}
    {new : List (Key × Incoming)} {front back : List (Key × View)}
    (hnew : ∀ e ∈ new, e.2.Heedless) : Heedless (loop parent anchor known old new front back) := by
  induction hn : old.length + new.length using Nat.strong_induction_on
    generalizing known old new front back with
  | _ n ih =>
  revert hn hnew
  apply loop_cases (P := fun old new x => (∀ e ∈ new, e.2.Heedless) → old.length + new.length = n →
    Heedless x)
  case no_old => exact fun _ _ _ => (mountAll_heedless _ _ _).map _
  case no_new =>
    refine fun _ _ _ => (Heedless.forM fun item _ => ?_).map _
    exact (tearDown_heedless item.view).map _
  case first_hole =>
    rintro old new hnew rfl
    exact ih _ (by simp) hnew rfl
  case last_hole =>
    rintro old new hnew rfl
    exact ih _ (by simp) hnew rfl
  case first_first =>
    rintro first old e new - hnew rfl
    obtain ⟨he, hnew⟩ := List.forall_mem_cons.1 hnew
    exact (he _ _).bind fun _ => ih _ (by simp; omega) hnew rfl
  case last_last =>
    rintro last old e new - hnew rfl
    obtain ⟨hnew, he⟩ := List.forall_mem_append.1 hnew
    exact (he e (by simp) _ _).bind fun _ => ih _ (by simp; omega) hnew rfl
  case first_last =>
    rintro first _ old e new - - - hnew rfl
    obtain ⟨hnew, he⟩ := List.forall_mem_append.1 hnew
    exact (he e (by simp) _ _).bind fun view => (moveBefore_heedless _ view).bind fun _ =>
      ih _ (by simp; omega) hnew rfl
  case last_first =>
    rintro first last old e new - hnew rfl
    obtain ⟨he, hnew⟩ := List.forall_mem_cons.1 hnew
    exact (he _ _).bind fun view => (moveBefore_heedless _ view).bind fun _ =>
      ih _ (by simp; omega) hnew rfl
  case between =>
    rintro first old e new - x hfound hmissing hnew rfl
    obtain ⟨he, hnew⟩ := List.forall_mem_cons.1 hnew
    refine (learn_heedless _ _).bind fun ks => ?_
    cases hl : lookUp? ks e.1 (some first :: old) with
    | some found =>
      obtain ⟨item, rest⟩ := found
      have hlength := length_of_lookUp? hl
      rw [hfound ks item rest hl]
      exact (moveBefore_heedless _ _).bind fun _ => (he _ _).bind fun _ =>
        ih _ (by simp at hlength ⊢; omega) hnew rfl
    | none =>
      rw [hmissing ks hl]
      exact (mount_heedless e.2.view _ _).bind fun _ => ih _ (by simp) hnew rfl

end Reconcile

theorem reconcile_heedless {new : List (Key × Incoming)} (hnew : ∀ e ∈ new, e.2.Heedless)
    (parent anchor : NodeId) (old : List (Key × View)) : Heedless (reconcile parent anchor old new) :=
  Reconcile.loop_heedless hnew

end Reconcile

section Patch

theorem parentNode_eq_of_twin {d d' : Document} (twin : d.Twin d') (v : View)
    : v.parentNode d' = v.parentNode d := by
  cases v with
  | text | html | list | multi | toggler => rfl
  | _ =>
    simp only [View.parentNode]
    split
    . exact twin.parent _
    . rfl

theorem replace_heedless (new : View) (sole : Bool) (old : View) : Heedless (replace new sole old) := by
  refine (Heedless.read fun _ _ twin => parentNode_eq_of_twin twin old).bind fun parent => ?_
  cases parent with
  | none => exact .pure _
  | some parent =>
    exact (mountAs_heedless new _ _ _).bind fun mounted => (tearDown_heedless _).map fun _ => mounted

theorem updateLocations_heedless (template : Template) (references : List NodeId) (data old : Data)
    : Heedless (updateLocations template references data old) := by
  refine .forM fun location _ => ?_
  dsimp only
  split
  . exact (Template.reference_heedless _ _).bind fun _ => Template.Binding.update_heedless _ _ _
  . exact .pure _

abbrev AllHeedless (incoming : List (Option Incoming)) : Prop :=
  ∀ next, some next ∈ incoming → next.Heedless

theorem patchSlot_heedless {incoming : List (Option Incoming)} (hnew : AllHeedless incoming)
    (references : List NodeId) (children : List (Option View)) (slot : Template.ChildSlot)
    : Heedless (patchSlot references (children, incoming) slot) := by
  unfold patchSlot
  dsimp only
  cases hnext : incoming[slot.index]?.join with
  | some next =>
    have hmem : some next ∈ incoming := List.mem_of_getElem? (Option.join_eq_some_iff.1 hnext)
    cases children[slot.index]?.join with
    | some child => exact (hnew next hmem _ _).map _
    | none =>
      refine (Template.reference_heedless _ _).bind fun parent => ?_
      refine (Template.references_heedless _ _).bind fun anchor => ?_
      exact (mountAs_heedless next.view _ _ _).map _
  | none =>
    cases children[slot.index]?.join with
    | some child => exact (tearDown_heedless child).map _
    | none => exact .pure _

theorem patchSlot_rest {incoming : List (Option Incoming)} {references : List NodeId}
    {children : List (Option View)} {slot : Template.ChildSlot} {h h' : Host}
    {state : List (Option View) × List (Option Incoming)}
    (hrun : patchSlot references (children, incoming) slot h = .ok state h')
    : state.2 = incoming.set slot.index none := by
  unfold patchSlot at hrun
  dsimp only at hrun
  generalize children[slot.index]?.join = child at hrun
  generalize incoming[slot.index]?.join = next at hrun
  cases child with
  | some child =>
    cases next with
    | some next =>
      obtain ⟨_, _, -, hrun⟩ := bind_eq_result.1 hrun
      cases hrun
      rfl
    | none =>
      obtain ⟨_, _, -, hrun⟩ := bind_eq_result.1 hrun
      cases hrun
      rfl
  | none =>
    cases next with
    | some next =>
      obtain ⟨_, _, -, hrun⟩ := bind_eq_result.1 hrun
      obtain ⟨_, _, -, hrun⟩ := bind_eq_result.1 hrun
      obtain ⟨_, _, -, hrun⟩ := bind_eq_result.1 hrun
      cases hrun
      rfl
    | none =>
      cases hrun
      rfl

theorem patchSlots_heedless {incoming : List (Option Incoming)} (hnew : AllHeedless incoming)
    (references : List NodeId) (children : List (Option View)) (slots : List Template.ChildSlot)
    : Heedless (slots.foldlM (patchSlot references) (children, incoming)) := by
  induction slots generalizing children incoming with
  | nil => exact .pure _
  | cons slot slots ih =>
    rw [List.foldlM_cons]
    refine (patchSlot_heedless hnew references children slot).bind_of (fun _ _ _ => patchSlot_rest) ?_
    rintro ⟨children, rest⟩ rfl
    refine ih (fun next hnext => hnew next ?_) children
    exact (List.mem_or_eq_of_mem_set hnext).resolve_right nofun

theorem patchPlace_heedless {next : Option Incoming} (hnew : ∀ n, next = some n → n.Heedless)
    (parent : NodeId) (standIn : Option NodeId) (child : Option View)
    : Heedless (patchPlace parent standIn child next) := by
  cases next with
  | some next =>
    cases child with
    | some child => exact (hnew next rfl _ _).map _
    | none =>
      exact (mount_heedless next.view _ _).bind fun child => (Heedless.option .discard standIn).map _
  | none =>
    cases child with
    | some child =>
      exact (mountStandIn_heedless _ _).bind fun node => (tearDown_heedless child).map _
    | none => exact .pure _

theorem patchChildren_heedless {incoming : List (Option Incoming)} (hnew : AllHeedless incoming)
    (parent : NodeId) (children : List (Option View)) (standIns : List (Option NodeId))
    : Heedless (patchChildren parent children standIns incoming) := by
  induction incoming generalizing children standIns with
  | nil =>
    rw [patchChildren.eq_def]
    cases children <;> cases standIns <;> exact .pure _
  | cons next incoming ih =>
    cases children with
    | nil => exact .pure _
    | cons child children =>
      cases standIns with
      | nil => exact .pure _
      | cons standIn standIns =>
        rw [patchChildren]
        refine (patchPlace_heedless (fun n hn => hnew n ?_) _ _ _).bind fun place => ?_
        . rw [hn]
          exact List.mem_cons_self
        . exact (ih (fun n hn => hnew n (List.mem_cons_of_mem _ hn)) children standIns).map _

variable {new old : View} {sole : Bool} {children : List (Option View)} {parent : Option NodeId}

theorem patchAs_heedless_of_kind (hsame : old.kind = new.kind → Heedless (new.patchAs sole old))
    : Heedless (new.patchAs sole old) :=
  patchAs_of_kind (replace_heedless new sole old) hsame

theorem patchBlock_heedless {template : Template} {data : Data} {mounted : Option Anchorage}
    (hchildren : AllHeedless (incomingChildren children))
    : Heedless ((View.block template data children mounted).patchAs sole old) := by
  refine patchAs_heedless_of_kind fun hkind => ?_
  cases old with
  | block oldTemplate oldData oldChildren oldMounted =>
    rw [patchAs.eq_def]
    dsimp only
    split
    . exact .throw _
    cases oldMounted with
    | none => exact .pure _
    | some anchorage =>
      have hslots := patchSlots_heedless hchildren anchorage.references oldChildren template.wiring.slots
      dsimp only
      split
      . exact (updateLocations_heedless _ _ _ _).bind fun _ => hslots.map _
      . exact hslots.map _
  | _ => exact absurd hkind (by simp [kind])

theorem patchHtml_heedless {markup : String} {content : List NodeId}
    : Heedless ((View.html markup content parent).patchAs sole old) := by
  refine patchAs_heedless_of_kind fun hkind => ?_
  cases old with
  | html oldMarkup oldContent oldParent =>
    rw [patchAs.eq_def]
    dsimp only
    split
    . exact .pure _
    cases oldParent with
    | none => exact .pure _
    | some parent =>
      refine (rawNodes_heedless markup).bind fun nodes => ?_
      refine (insertAll_heedless parent nodes _).bind fun _ => ?_
      exact (Heedless.forM fun id _ => .discard id).map _
  | _ => exact absurd hkind (by simp [kind])

theorem patchList_heedless {items : List (Key × View)} {anchor : Option NodeId} {itsSole : Bool}
    (hitems : ∀ e ∈ incomingItems items, e.2.Heedless)
    : Heedless ((View.list items anchor parent itsSole).patchAs sole old) := by
  refine patchAs_heedless_of_kind fun hkind => ?_
  cases old with
  | list oldItems oldAnchor oldParent oldSole =>
    rw [patchAs.eq_def]
    dsimp only
    split
    . next p a =>
      split
      . exact .pure _
      split
      . refine (beforeRemoveItems_heedless oldItems).bind fun _ => ?_
        refine (Heedless.edit fun _ _ twin => twin.remove a).bind fun _ => ?_
        exact (Heedless.clear _ _).bind fun _ => (Heedless.insert p a none).map _
      . exact (reconcile_heedless hitems p a oldItems).map _
    . exact .pure _
  | _ => exact absurd hkind (by simp [kind])

theorem patchMulti_heedless {standIns : List (Option NodeId)} {itsSole : Bool}
    (hchildren : AllHeedless (incomingChildren children))
    : Heedless ((View.multi children standIns parent itsSole).patchAs sole old) := by
  refine patchAs_heedless_of_kind fun hkind => ?_
  cases old with
  | multi oldChildren oldStandIns oldParent oldSole =>
    rw [patchAs.eq_def]
    dsimp only
    split
    . exact .pure _
    split
    . exact .throw _
    . exact (patchChildren_heedless hchildren _ _ _).map _
  | _ => exact absurd hkind (by simp [kind])

theorem patchToggler_heedless {key : Key} {child : View}
    (hchild : ∀ old, Heedless (child.patchAs child.isSole old))
    : Heedless ((View.toggler key child parent).patchAs sole old) := by
  refine patchAs_heedless_of_kind fun hkind => ?_
  cases old with
  | toggler oldKey oldChild oldParent =>
    rw [patchAs.eq_def]
    dsimp only
    split
    . exact (hchild oldChild).map _
    cases oldParent with
    | none => exact .pure _
    | some p => exact (mount_heedless child _ _).bind fun next => (tearDown_heedless oldChild).map _
  | _ => exact absurd hkind (by simp [kind])

theorem patchComponent_heedless {name : String} {child : Option View} {node : Option NodeId}
    (hchild : ∀ v, child = some v → ∀ old, Heedless (v.patchAs v.isSole old))
    : Heedless ((View.component name child node).patchAs sole old) := by
  refine patchAs_heedless_of_kind fun hkind => ?_
  cases old with
  | component oldName oldChild oldNode =>
    rw [patchAs.eq_def]
    dsimp only
    refine (Heedless.log _).bind fun _ => ?_
    split
    . next oldChild child => exact (hchild child rfl oldChild).map _
    . exact .pure _
  | ghost =>
    rw [patchAs]
    exact (Heedless.log _).map _
  | _ => exact absurd hkind (by simp [kind])

mutual

theorem patchAs_heedless : ∀ (new : View) (sole : Bool) (old : View), Heedless (new.patchAs sole old)
  | .block _ _ children _, _, _ => patchBlock_heedless (incomingChildren_heedless children)
  | .text _ _ _, _, old => by
    refine patchAs_heedless_of_kind fun hkind => ?_
    cases old with
    | text _ oldNode _ =>
      rw [patchAs]
      split
      . exact .pure _
      . exact (Heedless.option (fun node => .edit fun _ _ twin => twin.setText node _) oldNode).map _
    | _ => exact absurd hkind (by simp [kind])
  | .html _ _ _, _, _ => patchHtml_heedless
  | .list items _ _ _, _, _ => patchList_heedless (incomingItems_heedless items)
  | .multi children _ _ _, _, _ => patchMulti_heedless (incomingChildren_heedless children)
  | .toggler _ child _, _, _ => patchToggler_heedless (patchAs_heedless child child.isSole)
  | .component _ none _, _, _ => patchComponent_heedless nofun
  | .component _ (some child) _, _, _ => by
    have hchild := patchAs_heedless child child.isSole
    apply patchComponent_heedless
    rintro _ ⟨⟩
    exact hchild
  | .ghost, _, old => by
    refine patchAs_heedless_of_kind fun hkind => ?_
    cases old with
    | component =>
      rw [patchAs]
      exact .throw _
    | ghost =>
      rw [patchAs]
      exact (Heedless.log _).map _
    | _ => exact absurd hkind (by simp [kind])

theorem incomingChildren_heedless
    : ∀ (children : List (Option View)) (next : Incoming), some next ∈ incomingChildren children →
        next.Heedless
  | [], _, hnext => nomatch hnext
  | none :: rest, next, hnext => by
    rw [incomingChildren, List.mem_cons] at hnext
    exact incomingChildren_heedless rest next (hnext.resolve_left nofun)
  | some child :: rest, next, hnext => by
    rw [incomingChildren, List.mem_cons] at hnext
    rcases hnext with hnext | hnext
    . cases hnext
      exact patchAs_heedless child
    . exact incomingChildren_heedless rest next hnext

theorem incomingItems_heedless
    : ∀ (items : List (Key × View)) (e : Key × Incoming), e ∈ incomingItems items → e.2.Heedless
  | [], _, he => nomatch he
  | (key, item) :: rest, e, he => by
    rw [incomingItems, List.mem_cons] at he
    rcases he with rfl | he
    . exact patchAs_heedless item
    . exact incomingItems_heedless rest e he

end

theorem patch_heedless (old new : View) : Heedless (patch old new) :=
  patchAs_heedless new _ old

end Patch

end View
end VirtualDom
