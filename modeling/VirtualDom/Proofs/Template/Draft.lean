import VirtualDom.Proofs.Engine
import VirtualDom.Proofs.Template.Places
import VirtualDom.Template.Basic

/-!
This module contains what sketches there are: one rule for every kind of markup that has a sketch.
-/

namespace VirtualDom.Template

namespace AttributeMarker

def toMark (tag : String) : AttributeMarker → Mark
  | .handler index event => .handler index event
  | .attribute index name => .attribute index name tag
  | .bag index => .bag index
  | .ref index => .ref index

end AttributeMarker

def attributeMarks (tag : String) (attributes : List (String × String)) : List Mark :=
  attributes.filterMap fun (name, value) =>
    match attributeMarker? name value with
    | .ok (some marker) => some (marker.toMark tag)
    | _ => none

def staticAttributes (attributes : List (String × String)) : List (String × String) :=
  attributes.filter fun (name, value) =>
    match attributeMarker? name value with
    | .ok none => true
    | _ => false

def staticElement (tag : String) (attributes : List (String × String)) : Element :=
  { tag, attributes := .ofEntries (staticAttributes attributes) }

def soleIndex? : Markup → Option Nat
  | .cons (.element tag _) _ .nil =>
    match tagMarker? tag with
    | .ok (some (.child index)) => some index
    | _ => none
  | _ => none

/-- The markup on the left has the sketch on the right. -/
inductive Drafts : Markup → Sketch → Prop
  | nil : Drafts .nil .nil
  | textMarker {tag : String} {index : Nat} {siblings : Markup} {s : Sketch}
      (marker : tagMarker? tag = .ok (some (.text index))) (rest : Drafts siblings s) :
      Drafts (.cons (.element tag []) .nil siblings) (.cons (.text "", [.text index]) .nil s)
  | childMarker {tag : String} {index : Nat} {siblings : Markup} {s : Sketch}
      (marker : tagMarker? tag = .ok (some (.child index))) (rest : Drafts siblings s) :
      Drafts (.cons (.element tag []) .nil siblings) (.cons (.text "", [.child index false]) .nil s)
  | soleChild {tag : String} {attributes : List (String × String)} {children siblings : Markup}
      {index : Nat} {s : Sketch} (marker : tagMarker? tag = .ok none)
      (sole : soleIndex? children = some index) (rest : Drafts siblings s) :
      Drafts (.cons (.element tag attributes) children siblings)
        (.cons (.element (staticElement tag attributes),
          attributeMarks tag attributes ++ [.child index true]) .nil s)
  | element {tag : String} {attributes : List (String × String)} {children siblings : Markup}
      {below s : Sketch} (marker : tagMarker? tag = .ok none) (sole : soleIndex? children = none)
      (inside : Drafts children below) (rest : Drafts siblings s) :
      Drafts (.cons (.element tag attributes) children siblings)
        (.cons (.element (staticElement tag attributes), attributeMarks tag attributes) below s)
  | text {text : String} {children siblings : Markup} {s : Sketch} (rest : Drafts siblings s) :
      Drafts (.cons (.text text) children siblings) (.cons (.text text, []) .nil s)
  | comment {text : String} {children siblings : Markup} {s : Sketch} (rest : Drafts siblings s) :
      Drafts (.cons (.comment text) children siblings) (.cons (.comment text, []) .nil s)

namespace Sketch

open Sketching Engine

theorem lift_eq_ok {α : Type} {x : Except Error α} {a : α} {events events' : List String}
    (h : lift x events = .ok a events') : x = .ok a := by
  cases x with
  | error e => cases h
  | ok b => cases h; rfl

theorem mark_eq_ok {tag : String} {marker : AttributeMarker} {m : Mark} {events events' : List String}
    (h : mark tag marker events = .ok m events') : m = marker.toMark tag := by
  cases marker with
  | handler index event =>
    obtain ⟨_, _, _, h⟩ := bind_eq_result.1 h
    cases h
    rfl
  | _ =>
    cases h
    rfl

theorem element_eq_ok {attributes : List (String × String)} {e e' : Element} {marks : List Mark}
    {events events' : List String} (h : element e attributes events = .ok (e', marks) events')
    : e' = { e with attributes :=
          (staticAttributes attributes).foldl (fun d (name, value) => d.put name value) e.attributes } ∧
        marks = attributeMarks e.tag attributes := by
  induction attributes generalizing e marks events with
  | nil =>
    cases h
    exact ⟨rfl, rfl⟩
  | cons entry rest ih =>
    obtain ⟨name, value⟩ := entry
    obtain ⟨marker, _, hm, h⟩ := bind_eq_result.1 h
    have hm := lift_eq_ok hm
    cases marker with
    | none =>
      obtain ⟨rfl, hmarks⟩ := ih h
      exact ⟨by simp [staticAttributes, hm], by simp [attributeMarks, hm, hmarks]⟩
    | some marker =>
      obtain ⟨first, _, hf, h⟩ := bind_eq_result.1 h
      obtain ⟨⟨e₁, marks₁⟩, _, hr, h⟩ := bind_eq_result.1 h
      cases h
      obtain ⟨rfl, hmarks⟩ := ih hr
      exact ⟨by simp [staticAttributes, hm], by simp [attributeMarks, hm, hmarks, mark_eq_ok hf]⟩

theorem checkEmpty_eq_ok {tag : String} {attributes : List (String × String)} {children : Markup}
    {events events' : List String} (h : checkEmpty tag attributes children events = .ok () events')
    : attributes = [] ∧ children = .nil := by
  unfold checkEmpty at h
  split at h
  . next he =>
    rw [Bool.and_eq_true, List.isEmpty_iff] at he
    refine ⟨he.1, ?_⟩
    cases children with
    | nil => rfl
    | cons _ _ _ => cases he.2
  . cases h

theorem soleChild?_eq_ok {children : Markup} {r : Option Nat} {events events' : List String}
    (h : soleChild? children events = .ok r events') : r = soleIndex? children := by
  unfold soleChild? at h
  split at h
  . obtain ⟨marker, _, hm, h⟩ := bind_eq_result.1 h
    have hm := lift_eq_ok hm
    rw [soleIndex?, hm]
    split at h
    . obtain ⟨_, _, _, h⟩ := bind_eq_result.1 h
      cases h
      rfl
    . next hne =>
      cases h
      split
      . next heq =>
        cases heq
        exact absurd rfl (hne _)
      . rfl
  . next hne =>
    cases h
    unfold soleIndex?
    split
    . exact absurd rfl (hne _ _ _)
    . rfl

theorem drafts_of_ofMarkup {m : Markup} {s : Sketch} {events events' : List String}
    (h : ofMarkup m events = .ok s events') : Drafts m s := by
  induction m generalizing s events events' with
  | nil =>
    cases h
    exact .nil
  | cons item children siblings ihc ihs =>
    cases item with
    | element tag attributes =>
      rw [ofMarkup] at h
      obtain ⟨marker, _, hm, h⟩ := bind_eq_result.1 h
      have hm := lift_eq_ok hm
      -- A marker stands for itself; any other element may be all child or have content.
      cases marker with
      | some marker =>
        obtain ⟨_, _, he, h₁⟩ := bind_eq_result.1 h
        obtain ⟨rfl, rfl⟩ := checkEmpty_eq_ok he
        obtain ⟨rest, _, hr, h₂⟩ := bind_eq_result.1 h₁
        cases h₂
        cases marker with
        | text index => exact .textMarker hm (ihs hr)
        | child index => exact .childMarker hm (ihs hr)
      | none =>
        obtain ⟨⟨e, marks⟩, _, he, h₁⟩ := bind_eq_result.1 h
        obtain ⟨rfl, rfl⟩ := element_eq_ok he
        obtain ⟨sole, _, hs, h₂⟩ := bind_eq_result.1 h₁
        have hs := soleChild?_eq_ok hs
        cases sole with
        | some index =>
          obtain ⟨rest, _, hr, h₃⟩ := bind_eq_result.1 h₂
          cases h₃
          exact .soleChild hm hs.symm (ihs hr)
        | none =>
          obtain ⟨below, _, hb, h₃⟩ := bind_eq_result.1 h₂
          obtain ⟨rest, _, hr, h₄⟩ := bind_eq_result.1 h₃
          cases h₄
          exact .element hm hs.symm (ihc hb) (ihs hr)
    | text s =>
      rw [ofMarkup] at h
      obtain ⟨rest, _, hr, h⟩ := bind_eq_result.1 h
      cases h
      exact .text (ihs hr)
    | comment s =>
      rw [ofMarkup] at h
      obtain ⟨rest, _, hr, h⟩ := bind_eq_result.1 h
      cases h
      exact .comment (ihs hr)
    | cdata s => cases h
    | doctype s => cases h
    | instruction s => cases h

theorem drafts_of_ofRoot {item : Markup.Item} {children : Markup} {s : Sketch}
    {events events' : List String} (h : ofRoot item children events = .ok s events')
    : Drafts (.cons item children .nil) s ∧ ∀ tag attributes index, item = .element tag attributes →
        tagMarker? tag ≠ .ok (some (.child index)) := by
  unfold ofRoot at h
  cases item with
  | element tag attributes =>
    obtain ⟨marker, _, hm, h⟩ := bind_eq_result.1 h
    have hm := lift_eq_ok hm
    split at h
    . cases h
    . next hne =>
      refine ⟨drafts_of_ofMarkup h, ?_⟩
      rintro _ _ index ⟨⟩ ht
      cases hm.symm.trans ht
      exact hne index rfl
  | _ => exact ⟨drafts_of_ofMarkup h, nofun⟩

end Sketch

def Compiled (t : Template) (source : String) (normalize : Bool) : Prop :=
  ∃ events events', ofSource source normalize events = .ok t events'

/-- Whether a text makes a template that passes a test. -/
def makes (source : String) (normalize : Bool) (test : Template → Bool) : Bool :=
  match ofSource source normalize [] with
  | .ok t _ => test t
  | .error _ _ => false

theorem exists_compiled {source : String} {normalize : Bool} {test : Template → Bool}
    (h : makes source normalize test) : ∃ t : Template, t.Compiled source normalize ∧ test t := by
  unfold makes at h
  split at h
  . next t events ht => exact ⟨t, ⟨[], events, ht⟩, h⟩
  . cases h

section Compiled

variable {t : Template} {source : String} {normalize : Bool}

theorem Compiled.exists_ofRoot (h : t.Compiled source normalize)
    : ∃ item children events events', markup source normalize = .ok (.cons item children .nil) ∧
        Sketch.ofRoot item children events = .ok t.sketch events' := by
  obtain ⟨events, events', h⟩ := h
  obtain ⟨m, _, hm, h⟩ := Engine.bind_eq_result.1 h
  have hm := Sketch.lift_eq_ok hm
  cases m with
  | nil => cases h
  | cons item children siblings =>
    cases siblings with
    | cons _ _ _ => cases h
    | nil =>
      obtain ⟨sketch, _, hs, h⟩ := Engine.bind_eq_result.1 h
      cases h
      exact ⟨item, children, _, _, hm, hs⟩

theorem Compiled.drafts (h : t.Compiled source normalize)
    : ∃ item children, markup source normalize = .ok (.cons item children .nil) ∧
        Drafts (.cons item children .nil) t.sketch ∧
        ∀ tag attributes index, item = .element tag attributes →
          tagMarker? tag ≠ .ok (some (.child index)) := by
  obtain ⟨item, children, _, _, hm, hs⟩ := h.exists_ofRoot
  exact ⟨item, children, hm, Sketch.drafts_of_ofRoot hs⟩

end Compiled

end VirtualDom.Template
