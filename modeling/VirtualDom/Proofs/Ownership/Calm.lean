import VirtualDom.Proofs.Ownership.Performs
import VirtualDom.Proofs.View.Mount

/-!
This module contains the actions of views that free nothing, up to where a fault may come up. Most of them
tell nothing of note; where a block is new, its callbacks are told their elements.
-/

namespace VirtualDom

open Engine
open Document

namespace Engine.Calm

theorem setAttribute (id : NodeId) (name value : String)
    : Calm (Engine.edit (·.setAttribute id name value)) :=
  .edit fun _ _ h => annals_modifyElement h

theorem removeAttribute (id : NodeId) (name : String)
    : Calm (Engine.edit (·.removeAttribute id name)) :=
  .edit fun _ _ h => annals_modifyElement h

end Engine.Calm

/--
The action, when it gives a result, has told callbacks just these elements, and nothing else of note.
-/
def Announces {α : Type} (x : Engine α) (links : α → List Link) : Prop :=
  ∀ h a h', x h = .ok a h' → h'.document.annals = h.document.annals ∧
    ∃ es, h'.trace = h.trace ++ es ∧ (∀ e ∈ es, e.isQuiet) ∧ es.filterMap Entry.link? = links a

namespace Announces

variable {α β : Type} {x : Engine α} {f : α → Engine β} {links : List Link} {links' : β → List Link}

theorem of_calm (hx : Calm x) : Announces x fun _ => [] := by
  intro h a h' ha
  obtain ⟨htrace, hannals⟩ := hx.ok ha
  exact ⟨hannals, htrace⟩

theorem bind (hx : Announces x fun _ => links) (hf : ∀ a, Announces (f a) links')
    : Announces (x >>= f) fun b => links ++ links' b := by
  intro h b h₂ hb
  obtain ⟨a, h₁, ha, hb⟩ := bind_eq_result.1 hb
  obtain ⟨hannals, es, htrace, hes, hlinks⟩ := hx h a h₁ ha
  obtain ⟨hannals', fs, htrace', hfs, hlinks'⟩ := hf a h₁ b h₂ hb
  refine ⟨hannals'.trans hannals, es ++ fs, ?_, List.forall_mem_append.2 ⟨hes, hfs⟩, ?_⟩
  . rw [htrace', htrace, List.append_assoc]
  . rw [List.filterMap_append, hlinks, hlinks']

theorem calm_bind (hx : Calm x) (hf : ∀ a, Announces (f a) links') : Announces (x >>= f) links' :=
  (of_calm hx).bind hf

theorem forM {γ : Type} {g : γ → Engine PUnit} {links : γ → List Link}
    (hg : ∀ c, Announces (g c) fun _ => links c) (cs : List γ)
    : Announces (cs.forM g) fun _ => cs.flatMap links := by
  induction cs with
  | nil => exact of_calm (.pure _)
  | cons c cs ih => exact (hg c).bind fun _ => ih

end Announces

namespace Template

theorem reference_calm (references : List NodeId) (index : Nat) : Calm (reference references index) := by
  unfold reference
  split
  . exact .pure _
  . exact .throw _

theorem Wiring.locate_calm (w : Wiring) (root : NodeId) : Calm (w.locate root) := by
  refine .foldlM (fun references step => ?_) _ _
  refine (reference_calm _ _).bind fun source => ?_
  cases step.direction with
  | firstChild | nextSibling =>
    refine (Calm.read _).bind fun found => ?_
    cases found with
    | none => exact .throw _
    | some node => exact .pure _

namespace Binding

variable {node : NodeId}

theorem writeAttribute_calm (name : String) (value : Value) : Calm (writeAttribute node name value) := by
  unfold writeAttribute
  split
  . exact .removeAttribute _ _
  . exact .setAttribute _ _ _
  . exact .setAttribute _ _ _

theorem writeAttributes_calm (attributes : List (String × Value))
    : Calm (writeAttributes node attributes) :=
  .forM fun _ _ => writeAttribute_calm _ _

theorem removeAttributes_calm (names : List String) : Calm (removeAttributes node names) :=
  .forM fun _ _ => .removeAttribute _ _

theorem setBag_calm (bag : Value) : Calm (setBag node bag) := by
  unfold setBag
  split
  . exact writeAttributes_calm _
  . exact writeAttributes_calm _
  . exact writeAttributes_calm _
  . exact .warn _

theorem updateBag_calm (bag old : Value) : Calm (updateBag node bag old) := by
  unfold updateBag
  split
  . split
    . split
      . exact (Calm.removeAttribute _ _).bind fun _ => writeAttribute_calm _ _
      . split
        . exact writeAttribute_calm _ _
        . exact .pure _
    . exact setBag_calm _
  . exact (removeAttributes_calm _).bind fun _ => writeAttributes_calm _
  . exact (removeAttributes_calm _).bind fun _ => setBag_calm _

theorem addClasses_calm (tokens : List String) : Calm (addClasses node tokens) :=
  .forM fun _ _ => .edit fun _ _ h => annals_addClass h

theorem removeClasses_calm (tokens : List String) : Calm (removeClasses node tokens) :=
  .forM fun _ _ => .edit fun _ _ h => annals_removeClass h

theorem set_calm (value : Value) : ∀ b : Binding, b ≠ .ref → Calm (b.set node value)
  | .text, _ => .edit fun _ _ h => annals_setText h
  | .property _, _ | .handler _, _ => .edit fun _ _ h => annals_modifyElement h
  | .classes, _ => addClasses_calm _
  | .attribute _, _ => writeAttribute_calm _ _
  | .bag, _ => setBag_calm _
  | .ref, hne => absurd rfl hne

theorem update_calm (value old : Value) : ∀ b : Binding, Calm (b.update node value old)
  | .classes => (removeClasses_calm _).bind fun _ => addClasses_calm _
  | .bag => updateBag_calm _ _
  | .ref => .pure _
  | .text => set_calm value .text nofun
  | .property name => set_calm value (.property name) nofun
  | .attribute name => set_calm value (.attribute name) nofun
  | .handler event => set_calm value (.handler event) nofun

end Binding

theorem setLocation_announces (references : List NodeId) (data : Data) (l : Location)
    : Announces (do
        l.binding.set (← reference references l.reference) (data.at l.dataIndex)) fun _ =>
          (l.link? references data).toList := by
  by_cases hb : l.binding = .ref
  . intro h a h' ha
    unfold reference at ha
    unfold Location.link?
    rw [hb] at ha ⊢
    cases hx : references[l.reference]? with
    | none =>
      rw [hx] at ha
      cases ha
    | some node =>
      rw [hx] at ha
      cases hv : data.at l.dataIndex with
      | ref identity label =>
        rw [hv] at ha
        cases ha
        exact ⟨rfl, [.refCall label (some node)], rfl, by simp [Entry.isQuiet], rfl⟩
      | _ =>
        rw [hv] at ha
        cases ha
        exact ⟨rfl, [], by simp, by simp, rfl⟩
  . have hlink : l.link? references data = none := by
      unfold Location.link?
      split
      . next hb' _ _ => exact absurd hb' hb
      . rfl
    rw [hlink]
    exact .calm_bind (reference_calm _ _) fun _ => .of_calm (Binding.set_calm _ _ hb)

end Template

namespace View

theorem buildMarkup_calm (m : Markup) : Calm (buildMarkup m) := by
  induction m with
  | nil => exact .pure _
  | cons item children siblings ihc ihs =>
    have hleaf : ∀ c : Content,
        Calm (do let node ← create (·.create c); return node :: (← buildMarkup siblings)) :=
      fun c => (Calm.create c).bind fun node => ihs.bind fun rest => .pure _
    cases item with
    | element tag attributes =>
      rw [buildMarkup]
      refine (Calm.create (.element { tag })).bind fun node => ?_
      refine (Calm.forM fun _ _ => .setAttribute _ _ _).bind fun _ => ?_
      refine ihc.bind fun below => ?_
      refine (Calm.forM fun _ _ => .insert _ _ _).bind fun _ => ?_
      exact ihs.bind fun rest => .pure _
    | text s => exact hleaf (.text s)
    | cdata s => exact hleaf (.text s)
    | comment s => exact hleaf (.comment s)
    | doctype s => exact ihs
    | instruction s => exact ihs

theorem rawNodes_calm (s : String) : Calm (rawNodes s) := by
  unfold rawNodes
  split
  . exact (Calm.warn _).bind fun _ => (Calm.create (.text s)).bind fun _ => .pure _
  . refine (buildMarkup_calm _).bind fun nodes => ?_
    split
    . exact (Calm.create (.text "")).bind fun _ => .pure _
    . exact .pure _

theorem plantBlock_announces (template : Template) (data : Data) (parent : NodeId)
    (anchor : Option NodeId)
    : Announces (plantBlock template data parent anchor) fun anchorage =>
        template.links anchorage.references data := by
  unfold plantBlock
  refine .calm_bind (.change fun _ _ _ h => annals_plant h) fun roots => ?_
  split
  . rintro _ _ _ ⟨⟩
  refine .calm_bind (.insert _ _ _) fun _ => .calm_bind (template.wiring.locate_calm _) fun references => ?_
  intro h anchorage h' hrun
  obtain ⟨_, h₁, hforM, hpure⟩ := bind_eq_result.1 hrun
  cases hpure
  have hlinks := Announces.forM (Template.setLocation_announces references data)
    template.wiring.locations h _ _ hforM
  rwa [← List.filterMap_eq_flatMap_toList] at hlinks

end View
end VirtualDom
