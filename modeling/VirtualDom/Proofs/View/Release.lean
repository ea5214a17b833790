import VirtualDom.Proofs.Document.Annals
import VirtualDom.Proofs.View.Remove

/-!
This module contains what is told when a view is taken out: first its components, and then the
callbacks of the blocks that it frees one by one. Blocks that go as part of something else, which is
freed as a whole, tell their callbacks nothing.
-/

namespace VirtualDom.View

open Engine

def callbackReleases (template : Template) (data : Data) : List Entry :=
  template.wiring.callbacks.filterMap fun index =>
    match data.at index with
    | .ref _ label => some (.refCall label none)
    | _ => none

mutual

def releases : View → List Entry
  | .block template data _ mounted => if mounted.isSome then callbackReleases template data else []
  | .list items anchor parent sole =>
    if anchor.isSome && parent.isSome && !sole then itemReleases items else []
  | .multi children standIns parent sole =>
    if parent.isSome && !sole then childReleases children standIns else []
  | .toggler _ child _ => child.releases
  | .component name _ node => [.component name (.remove node)]
  | .ghost => [.ghost (.remove none)]
  | .text _ _ _ | .html _ _ _ => []

def itemReleases : List (Key × View) → List Entry
  | [] => []
  | (_, item) :: rest => item.releases ++ itemReleases rest

def childReleases : List (Option View) → List (Option NodeId) → List Entry
  | some child :: rest, _ :: standIns => child.releases ++ childReleases rest standIns
  | none :: rest, _ :: standIns => childReleases rest standIns
  | _, _ => []

end

/-- The action, when it gives a result, has told just this, and no component has come. -/
def Logs {α : Type} (x : Engine α) (entries : List Entry) : Prop :=
  ∀ h a h', x h = .ok a h' → h'.trace = h.trace ++ entries ∧
    h'.document.annals.arrivals = h.document.annals.arrivals

namespace Logs

variable {α β : Type} {x : Engine α} {f : α → Engine β} {es fs : List Entry}

theorem pure (a : α) : Logs (Pure.pure a) [] := by
  rintro h _ _ ⟨⟩
  exact ⟨(List.append_nil _).symm, rfl⟩

theorem bind (hx : Logs x es) (hf : ∀ a, Logs (f a) fs) : Logs (x >>= f) (es ++ fs) := by
  intro h b h₂ hb
  obtain ⟨a, h₁, ha, hb⟩ := bind_eq_result.1 hb
  obtain ⟨htrace, hcame⟩ := hx h a h₁ ha
  obtain ⟨htrace', hcame'⟩ := hf a h₁ b h₂ hb
  exact ⟨by rw [htrace', htrace, List.append_assoc], hcame'.trans hcame⟩

theorem map (hx : Logs x es) (g : α → β) : Logs (do return g (← x)) es := by
  have := hx.bind fun a => pure (g a)
  rwa [List.append_nil] at this

theorem silent (hx : Logs x []) (hf : ∀ a, Logs (f a) fs) : Logs (x >>= f) fs :=
  hx.bind hf

theorem log (entries : List Entry) : Logs (Engine.log entries) entries := by
  rintro h _ _ ⟨⟩
  exact ⟨rfl, rfl⟩

theorem read (g : Document → Except Fault α) : Logs (Engine.read g) [] := by
  intro h a h' ha
  unfold Engine.read at ha
  split at ha <;> cases ha
  exact ⟨(List.append_nil _).symm, rfl⟩

theorem edit {g : Document → Except Fault Document}
    (hg : ∀ d d', g d = .ok d' → d'.annals.arrivals = d.annals.arrivals) : Logs (Engine.edit g) [] := by
  intro h a h' ha
  unfold Engine.edit at ha
  split at ha
  . next d hd =>
    cases ha
    exact ⟨(List.append_nil _).symm, hg _ d hd⟩
  . cases ha

theorem discard (id : NodeId) : Logs (Engine.discard id) [] :=
  edit fun _ _ h => by rw [Document.annals_discard h]

theorem clear (parent : NodeId) (own : List NodeId) : Logs (Engine.clear parent own) [] := by
  refine (read _).silent fun _ => (edit ?_).silent fun _ => edit fun _ _ h => ?_
  . rintro d _ ⟨⟩
    rfl
  . rw [Document.annals_discardChildren h]

theorem forM {γ : Type} {g : γ → Engine PUnit} {entries : γ → List Entry}
    (hg : ∀ c, Logs (g c) (entries c)) (cs : List γ) : Logs (cs.forM g) (cs.flatMap entries) := by
  induction cs with
  | nil => exact pure _
  | cons c cs ih => exact (hg c).bind fun _ => ih

theorem option {g : NodeId → Engine PUnit} (hg : ∀ id, Logs (g id) []) (node : Option NodeId)
    : Logs (node.forM g) [] := by
  cases node with
  | none => exact pure _
  | some id => exact hg id

end Logs

theorem releaseCallbacks_logs (template : Template) (data : Data)
    : Logs (releaseCallbacks template data) (callbackReleases template data) := by
  unfold callbackReleases
  rw [List.filterMap_eq_flatMap_toList]
  refine Logs.forM (fun index => ?_) _
  cases data.at index with
  | ref identity label => exact Logs.log _
  | _ => exact Logs.pure _

mutual

/-- Freeing a view tells the callbacks of its blocks, but not of those that are in other ones. -/
theorem remove_logs : ∀ v : View, Logs v.remove v.releases
  | .block _ _ _ none | .list _ none _ _ | .list _ (some _) none _ | .multi _ _ none _ => by
    rw [remove.eq_def, releases]
    exact .pure _
  | .block template data children (some anchorage) => by
    rw [remove.eq_def, releases]
    exact (Logs.discard _).silent fun _ => (releaseCallbacks_logs template data).map _
  | .text _ node _ => by
    rw [remove, releases]
    exact (Logs.option (fun _ => .discard _) node).map _
  | .html _ content _ => by
    rw [remove, releases]
    have := Logs.forM Logs.discard content
    rw [List.flatMap_eq_nil_iff.2 fun _ _ => rfl] at this
    exact this.map _
  | .list _ (some _) (some _) true | .multi _ _ (some _) true => by
    rw [remove.eq_def, releases]
    exact (Logs.clear _ _).map _
  | .list items (some anchor) (some parent) false => by
    rw [remove.eq_def, releases]
    have := (removeItems_logs items).bind fun items =>
      (Logs.discard anchor).map fun _ => View.list items none (some parent) false
    rwa [List.append_nil] at this
  | .multi children standIns (some parent) false => by
    rw [remove.eq_def, releases]
    exact (removeChildren_logs children standIns).map _
  | .toggler key child parent => by
    rw [remove, releases]
    exact (remove_logs child).map _
  | .component name child node => by
    rw [remove, releases]
    have := (Logs.log [.component name (.remove node)]).bind fun _ =>
      (Logs.option .discard node).map fun _ => View.component name child none
    rwa [List.append_nil] at this
  | .ghost => by
    rw [remove, releases]
    exact (Logs.log _).map _

theorem removeItems_logs : ∀ items : List (Key × View), Logs (removeItems items) (itemReleases items)
  | [] => by
    rw [removeItems, itemReleases]
    exact .pure _
  | (key, item) :: rest => by
    rw [removeItems, itemReleases]
    exact (remove_logs item).bind fun item => (removeItems_logs rest).map _

theorem removeChildren_logs
    : ∀ (children : List (Option View)) (standIns : List (Option NodeId)),
        Logs (removeChildren children standIns) (childReleases children standIns)
  | some child :: rest, _ :: standIns => by
    rw [removeChildren, childReleases]
    exact (remove_logs child).bind fun child => (removeChildren_logs rest standIns).map _
  | none :: rest, standIn :: standIns => by
    rw [removeChildren, childReleases]
    exact (Logs.option (fun _ => .discard _) standIn).silent fun _ =>
      (removeChildren_logs rest standIns).map _
  | [], _ | some _ :: _, [] | none :: _, [] => by
    rw [removeChildren.eq_def, childReleases.eq_def]
    exact .pure _

end

theorem tearDown_trace {v v' : View} {h h' : Host} (hv : v.tearDown h = .ok v' h')
    : h'.trace = h.trace ++ v.farewells h.document ++ v.releases := by
  unfold tearDown at hv
  rw [bind_run (beforeRemove_eq h v)] at hv
  exact (remove_logs v _ v' h' hv).1

theorem tearDown_arrivals {v v' : View} {h h' : Host} (hv : v.tearDown h = .ok v' h')
    : h'.document.annals.arrivals = h.document.annals.arrivals := by
  unfold tearDown at hv
  rw [bind_run (beforeRemove_eq h v)] at hv
  exact (remove_logs v _ v' h' hv).2

end VirtualDom.View
