import VirtualDom.Host
import VirtualDom.Proofs.Document.Run

/-!
This module contains the record that documents keep: no change of a document adds to it by itself.
-/

namespace VirtualDom.Document

/-- At every clearing so far, all that was in the parent was of the one on whose behalf it was. -/
def Orderly (d : Document) : Prop :=
  ∀ c ∈ d.annals.clearings, c.children.Perm c.own

theorem Orderly.of_annals_eq {d d' : Document} (h : d.Orderly) (heq : d'.annals = d.annals)
    : d'.Orderly := by
  unfold Orderly
  rwa [heq]

theorem Orderly.recordArrival {d : Document} (h : d.Orderly) (c : Component)
    : (d.recordArrival c).Orderly :=
  h

theorem Orderly.recordClearing {d : Document} (h : d.Orderly) {c : Clearing}
    (hc : c.children.Perm c.own) : (d.recordClearing c).Orderly := by
  intro c' hc'
  rcases List.mem_append.1 hc' with hc' | hc'
  . exact h c' hc'
  . exact List.mem_singleton.1 hc' ▸ hc

section Edits

variable {d d' : Document} {id p : NodeId}

theorem annals_create (content : Content) : (d.create content).2.annals = d.annals := by
  unfold create
  split <;> rfl

theorem annals_update {f : Node → Node} (h : d.update id f = .ok d')
    : d'.annals = d.annals := by
  obtain ⟨_, _, h⟩ := bind_eq_ok.1 h
  cases h
  rfl

theorem annals_setNext {prev next : Option NodeId} (h : d.setNext p prev next = .ok d')
    : d'.annals = d.annals := by
  cases prev <;> exact annals_update h

theorem annals_setPrev {prev next : Option NodeId} (h : d.setPrev p next prev = .ok d')
    : d'.annals = d.annals := by
  cases next <;> exact annals_update h

theorem annals_unlink {attached : Bool} (h : d.unlink id = .ok (d', attached))
    : d'.annals = d.annals := by
  obtain ⟨node, _, h⟩ := bind_eq_ok.1 h
  split at h
  . cases h
    rfl
  . obtain ⟨d₁, h₁, h⟩ := bind_eq_ok.1 h
    obtain ⟨d₂, h₂, h⟩ := bind_eq_ok.1 h
    obtain ⟨d₃, h₃, h⟩ := bind_eq_ok.1 h
    cases h
    rw [annals_update h₃, annals_setPrev h₂, annals_setNext h₁]

theorem annals_link {reference : Option NodeId} (h : d.link p id reference = .ok d')
    : d'.annals = d.annals := by
  obtain ⟨prev, _, h⟩ := bind_eq_ok.1 h
  obtain ⟨d₁, h₁, h⟩ := bind_eq_ok.1 h
  obtain ⟨d₂, h₂, h⟩ := bind_eq_ok.1 h
  rw [annals_setPrev h, annals_setNext h₂, annals_update h₁]

theorem annals_insertBefore {reference : Option NodeId}
    (h : d.insertBefore p id reference = .ok d') : d'.annals = d.annals := by
  unfold insertBefore at h
  split at h
  . cases h
    rfl
  . obtain ⟨⟨d₁, attached⟩, h₁, h⟩ := bind_eq_ok.1 h
    have h₁ := annals_unlink h₁
    exact (annals_link h).trans h₁

theorem annals_remove (h : d.remove id = .ok d') : d'.annals = d.annals := by
  obtain ⟨⟨d₁, attached⟩, h₁, h⟩ := bind_eq_ok.1 h
  have h₁ := annals_unlink h₁
  cases h
  exact h₁

theorem annals_releaseAll {pending : List NodeId} (h : d.releaseAll pending = .ok d')
    : d'.annals = d.annals :=
  releaseAll_induction (P := fun d _ => d'.annals = d.annals) rfl (fun _ _ _ _ _ _ _ ih => ih) h

theorem annals_discard (h : d.discard id = .ok d') : d'.annals = d.annals := by
  obtain ⟨d₁, h₁, h⟩ := bind_eq_ok.1 h
  exact (annals_releaseAll h).trans (annals_remove h₁)

theorem annals_discardChildren (h : d.discardChildren p = .ok d')
    : d'.annals = d.annals := by
  refine discardChildren_induction (P := fun d => d'.annals = d.annals) (fun _ => rfl) ?_ h
  intro d child d₁ _ h₁ _ ih
  exact ih.trans (annals_discard h₁)

theorem annals_plant {T : Forest Content} {parent : Option NodeId} {ids : List NodeId}
    (h : d.plant parent T = .ok (ids, d')) : d'.annals = d.annals := by
  induction T generalizing d d' parent ids with
  | nil =>
    cases h
    rfl
  | cons content children siblings ihc ihs =>
    obtain ⟨id, d₁, inner, d₂, d₃, later, h₁, h₂, h₃, h₄, rfl⟩ := plant_cons h
    have hcreate := annals_create (d := d) content
    rw [h₁] at hcreate
    have hlink : d₃.annals = d₂.annals := by
      rcases h₃ with ⟨-, rfl⟩ | ⟨p, -, h₃⟩
      . rfl
      . exact annals_link h₃
    rw [ihs h₄, hlink, ihc h₂, hcreate]

theorem annals_setText {s : String} (h : d.setText id s = .ok d')
    : d'.annals = d.annals := by
  obtain ⟨c, _, h⟩ := bind_eq_ok.1 h
  cases c <;> cases h <;> rfl

theorem annals_modifyElement {f : Element → Option Element} {count : Tally → Tally}
    (h : d.modifyElement id f count = .ok d') : d'.annals = d.annals := by
  obtain ⟨e, _, h⟩ := bind_eq_ok.1 h
  split at h <;> cases h <;> rfl

theorem annals_addClass {token : String} (h : d.addClass id token = .ok d')
    : d'.annals = d.annals := by
  obtain ⟨tokens, _, h⟩ := bind_eq_ok.1 h
  split at h
  . cases h
    rfl
  . exact annals_modifyElement h

theorem annals_removeClass {token : String} (h : d.removeClass id token = .ok d')
    : d'.annals = d.annals := by
  obtain ⟨tokens, _, h⟩ := bind_eq_ok.1 h
  split at h
  . exact annals_modifyElement h
  . cases h
    rfl

theorem Call.annals_run {c : Call} (h : c.run d = .ok d') : d'.annals = d.annals := by
  cases c with
  | createElement | createText | createComment =>
    cases h
    exact annals_create _
  | insertBefore => exact annals_insertBefore h
  | append =>
    unfold run Document.append at h
    exact annals_insertBefore h
  | remove => exact annals_remove h
  | discard => exact annals_discard h
  | discardChildren => exact annals_discardChildren h
  | setText => exact annals_setText h
  | addClass => exact annals_addClass h
  | removeClass => exact annals_removeClass h
  | setAttribute | removeAttribute => exact annals_modifyElement h
  | setProperty =>
    unfold run Document.setProperty at h
    exact annals_modifyElement h
  | setHandler =>
    unfold run Document.setHandler at h
    exact annals_modifyElement h

theorem Run.annals_eq {peak : Nat} (h : Run d peak) : d.annals = {} := by
  induction h with
  | empty => rfl
  | call run legal ok ih => exact (Call.annals_run ok).trans ih
  | copy run from_run live ok ih =>
    obtain ⟨T, later, hplant⟩ := plant_of_copy ok
    exact (annals_plant hplant).trans ih

theorem Run.orderly {peak : Nat} (h : Run d peak) : d.Orderly := by
  intro c hc
  rw [h.annals_eq] at hc
  cases hc

end Edits

end VirtualDom.Document
