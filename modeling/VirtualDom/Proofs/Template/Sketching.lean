import VirtualDom.Proofs.Template.Draft

/-!
This module contains the independence of compilation from the event names that were met before: they
are added to, but never looked at for anything else.
-/

namespace VirtualDom

def outcome {ε σ α : Type} : EStateM.Result ε σ α → Except ε α
  | .ok a _ => .ok a
  | .error e _ => .error e

def remainder {ε σ α : Type} : EStateM.Result ε σ α → σ
  | .ok _ s => s
  | .error _ s => s

namespace Template

open Sketching

/-- The outcome does not depend on the event names met so far. -/
def Oblivious {α : Type} (x : Sketching α) : Prop :=
  ∀ events events', outcome (x events) = outcome (x events')

namespace Oblivious

variable {α β : Type}

theorem pure (a : α) : Oblivious (Pure.pure a : Sketching α) :=
  fun _ _ => rfl

theorem throw (e : Error) : Oblivious (MonadExcept.throw e : Sketching α) :=
  fun _ _ => rfl

theorem lift (x : Except Error α) : Oblivious (Sketching.lift x) := by
  cases x with
  | ok a => exact pure a
  | error e => exact throw e

theorem register (event : String) : Oblivious (Sketching.register event) :=
  fun _ _ => rfl

theorem bind {x : Sketching α} {f : α → Sketching β} (hx : Oblivious x) (hf : ∀ a, Oblivious (f a))
    : Oblivious (x >>= f) := by
  intro events events'
  have h := hx events events'
  simp only [Bind.bind, EStateM.bind]
  cases hr : x events with
  | ok a next =>
    cases hr' : x events' with
    | ok a' next' =>
      rw [hr, hr'] at h
      cases h
      exact hf a next next'
    | error e' next' =>
      rw [hr, hr'] at h
      cases h
  | error e next =>
    cases hr' : x events' with
    | ok a' next' =>
      rw [hr, hr'] at h
      cases h
    | error e' next' =>
      rw [hr, hr'] at h
      cases h
      rfl

end Oblivious

namespace Sketch

theorem oblivious_mark (tag : String) (marker : AttributeMarker) : Oblivious (mark tag marker) := by
  cases marker with
  | handler index event => exact (Oblivious.register event).bind fun _ => .pure _
  | _ => exact .pure _

theorem oblivious_element (attributes : List (String × String)) (e : Element)
    : Oblivious (element e attributes) := by
  induction attributes generalizing e with
  | nil => exact .pure _
  | cons entry rest ih =>
    obtain ⟨name, value⟩ := entry
    refine (Oblivious.lift _).bind ?_
    intro marker
    cases marker with
    | none => exact ih _
    | some marker => exact (oblivious_mark _ marker).bind fun _ => (ih e).bind fun _ => .pure _

theorem oblivious_checkEmpty (tag : String) (attributes : List (String × String)) (children : Markup)
    : Oblivious (checkEmpty tag attributes children) := by
  unfold checkEmpty
  split
  . exact .pure _
  . exact .throw _

theorem oblivious_soleChild? (children : Markup) : Oblivious (soleChild? children) := by
  unfold soleChild?
  split
  . refine (Oblivious.lift _).bind ?_
    intro marker
    split
    . exact (oblivious_checkEmpty _ _ _).bind fun _ => .pure _
    . exact .pure _
  . exact .pure _

theorem oblivious_ofMarkup (m : Markup) : Oblivious (ofMarkup m) := by
  induction m with
  | nil => exact .pure _
  | cons item children siblings ihc ihs =>
    cases item with
    | element tag attributes =>
      rw [ofMarkup]
      refine (Oblivious.lift _).bind ?_
      intro marker
      cases marker with
      | some marker => exact (oblivious_checkEmpty _ _ _).bind fun _ => ihs.bind fun _ => .pure _
      | none =>
        refine (oblivious_element _ _).bind fun _ => (oblivious_soleChild? _).bind ?_
        intro sole
        cases sole with
        | some index => exact ihs.bind fun _ => .pure _
        | none => exact ihc.bind fun _ => ihs.bind fun _ => .pure _
    | text s => exact ihs.bind fun _ => .pure _
    | comment s => exact ihs.bind fun _ => .pure _
    | cdata s => exact .throw _
    | doctype s => exact .throw _
    | instruction s => exact .throw _

theorem oblivious_ofRoot (item : Markup.Item) (children : Markup) : Oblivious (ofRoot item children) := by
  unfold ofRoot
  split
  . refine (Oblivious.lift _).bind ?_
    intro marker
    split
    . exact (Oblivious.throw _).bind fun _ => oblivious_ofMarkup _
    . exact oblivious_ofMarkup _
  . exact oblivious_ofMarkup _

end Sketch

theorem oblivious_ofSource (source : String) (normalize : Bool)
    : Oblivious (ofSource source normalize) := by
  refine (Oblivious.lift _).bind ?_
  intro m
  split
  . exact (Sketch.oblivious_ofRoot _ _).bind fun _ => .pure _
  . exact .throw _

def make (source : String) (normalize : Bool) : Except Error Template :=
  outcome (ofSource source normalize [])

theorem outcome_ofSource (source : String) (normalize : Bool) (events : List String)
    : outcome (ofSource source normalize events) = make source normalize :=
  oblivious_ofSource source normalize events []

end Template
end VirtualDom
