import VirtualDom.Proofs.Template.Sketching
import VirtualDom.Session

/-!
This module contains what compilation comes upon in a text, in the order in which it does: event names,
which it registers at once, and flaws, the first of which ends it.
-/

namespace VirtualDom

namespace Template

inductive Finding where
  | event (name : String)
  | flaw (e : Error)
deriving DecidableEq

namespace Finding

/-- The flaw that ends a search, if one does, and the event names after it. -/
def search (events : List String) : List Finding → Option Error × List String
  | [] => (none, events)
  | .event name :: rest => search (if events.contains name then events else events ++ [name]) rest
  | .flaw e :: _ => (some e, events)

variable {events : List String}

theorem search_append (before after : List Finding) (events : List String)
    : search events (before ++ after) =
        match search events before with
        | (none, later) => search later after
        | ended => ended := by
  induction before generalizing events with
  | nil => rfl
  | cons finding before ih =>
    cases finding with
    | event name => exact ih _
    | flaw e => rfl

theorem search_eq_none {findings : List Finding}
    : (search events findings).1 = none ↔ ∀ e, .flaw e ∉ findings := by
  induction findings generalizing events with
  | nil => simp [search]
  | cons finding findings ih =>
    cases finding with
    | event name => simp [search, ih]
    | flaw e =>
      simp only [search, reduceCtorEq, List.mem_cons, not_or, false_iff]
      intro h
      exact (h e).1 rfl

theorem search_eq_some {findings : List Finding} {e : Error} (h : (search events findings).1 = some e)
    : ∃ before after, findings = before ++ .flaw e :: after ∧ (∀ e', .flaw e' ∉ before) ∧
        events <+: (search events findings).2 ∧
        ∀ name, name ∈ (search events findings).2 ↔ name ∈ events ∨ .event name ∈ before := by
  induction findings generalizing events with
  | nil => cases h
  | cons finding findings ih =>
    cases finding with
    | flaw e' =>
      cases h
      exact ⟨[], findings, rfl, by simp, List.prefix_rfl, by simp [search]⟩
    | event name =>
      obtain ⟨before, after, rfl, hfirst, hgrown, hmem⟩ := ih h
      refine ⟨.event name :: before, after, rfl, by simpa using hfirst, .trans ?_ hgrown, ?_⟩
      . split
        . exact List.prefix_rfl
        . exact List.prefix_append _ _
      . intro other
        refine (hmem other).trans ?_
        by_cases hname : events.contains name
        . rw [if_pos hname]
          grind
        . rw [if_neg hname]
          grind

end Finding

/-- The event name that an attribute registers, or what is wrong with it. -/
def attributeFinding (name value : String) : List Finding :=
  match attributeMarker? name value with
  | .error e => [.flaw e]
  | .ok (some (.handler _ event)) => [.event event]
  | .ok _ => []

def attributeFindings (attributes : List (String × String)) : List Finding :=
  attributes.flatMap fun (name, value) => attributeFinding name value

/-- What is found at a node, with what is found below it. Nothing is looked for inside a marker. -/
def itemFindings (children : Markup) (below : List Finding) : Markup.Item → List Finding
  | .element tag attributes =>
    match tagMarker? tag with
    | .error e => [.flaw e]
    | .ok (some _) =>
      if attributes.isEmpty && children.isEmpty then [] else [.flaw (.markerWithContent tag)]
    | .ok none => attributeFindings attributes ++ below
  | .text _ | .comment _ => []
  | item => [.flaw (.unsupportedNode item.kind)]

def findings : Markup → List Finding
  | .nil => []
  | .cons item children siblings =>
    itemFindings children (findings children) item ++ findings siblings

def rootFindings : Markup.Item → List Finding
  | .element tag _ =>
    match tagMarker? tag with
    | .error e => [.flaw e]
    | .ok (some (.child _)) => [.flaw (.markerAtRoot tag)]
    | .ok _ => []
  | _ => []

def wholeFindings : Markup → List Finding
  | .cons item children .nil => rootFindings item ++ findings (.cons item children .nil)
  | other => [.flaw (.rootCount other.roots.length)]

def sourceFindings (source : String) (normalize : Bool) : List Finding :=
  match markup source normalize with
  | .error e => [.flaw e]
  | .ok m => wholeFindings m

/-- Whatever was registered before, the action ends as the search of these findings does. -/
def Finds {α : Type} (x : Sketching α) (fs : List Finding) : Prop :=
  ∀ events, Finding.search events fs =
    (match outcome (x events) with | .ok _ => none | .error e => some e, remainder (x events))

namespace Finds

open Finding (search search_append)

variable {α β : Type} {fs gs : List Finding}

theorem pure (a : α) : Finds (Pure.pure a : Sketching α) [] :=
  fun _ => rfl

theorem throw (e : Error) (fs : List Finding)
    : Finds (MonadExcept.throw e : Sketching α) (.flaw e :: fs) :=
  fun _ => rfl

theorem register (event : String) : Finds (Sketching.register event) [.event event] :=
  fun _ => rfl

theorem bind {x : Sketching α} {f : α → Sketching β} (hx : Finds x fs) (hf : ∀ a, Finds (f a) gs)
    : Finds (x >>= f) (fs ++ gs) := by
  intro events
  rw [search_append, hx events]
  simp only [Bind.bind, EStateM.bind]
  cases x events with
  | ok a later => exact hf a later
  | error e later => rfl

theorem bind_lift {x : Except Error α} {f : α → Sketching β} (hok : ∀ a, x = .ok a → Finds (f a) fs)
    (herror : ∀ e, x = .error e → ∃ rest, fs = .flaw e :: rest)
    : Finds (Sketching.lift x >>= f) fs := by
  cases x with
  | ok a => exact hok a rfl
  | error e =>
    obtain ⟨rest, rfl⟩ := herror e rfl
    exact fun _ => rfl

theorem andThen {x : Sketching α} {f : α → Sketching β} (hx : Finds x fs)
    (hf : ∀ a, Finds (f a) []) : Finds (x >>= f) fs := by
  simpa using hx.bind hf

end Finds

namespace Sketch

theorem mark_finds (tag : String) {name value : String} {marker : AttributeMarker}
    (h : attributeMarker? name value = .ok (some marker))
    : Finds (mark tag marker) (attributeFinding name value) := by
  rw [attributeFinding, h]
  cases marker with
  | handler index event => exact (Finds.register event).andThen fun _ => .pure _
  | _ => exact .pure _

theorem element_finds (attributes : List (String × String)) (e : Element)
    : Finds (element e attributes) (attributeFindings attributes) := by
  induction attributes generalizing e with
  | nil => exact .pure _
  | cons entry rest ih =>
    obtain ⟨name, value⟩ := entry
    change Finds _ (attributeFinding name value ++ attributeFindings rest)
    refine .bind_lift ?_ ?_
    . intro marker? h
      cases marker? with
      | none =>
        rw [attributeFinding, h]
        exact ih _
      | some marker => exact (mark_finds e.tag h).bind fun _ => (ih e).andThen fun _ => .pure _
    . intro e h
      rw [attributeFinding, h]
      exact ⟨_, rfl⟩

theorem checkEmpty_finds (tag : String) (attributes : List (String × String)) (children : Markup)
    : Finds (checkEmpty tag attributes children)
        (if attributes.isEmpty && children.isEmpty then [] else [.flaw (.markerWithContent tag)]) := by
  unfold checkEmpty
  split
  . exact .pure _
  . exact .throw _ _

/--
The shortcut for a child that is all that an element has finds what there is to find in the content of
the element; without it the content is searched as any other.
-/
theorem soleChild?_finds {α : Type} (children : Markup) {f : Option Nat → Sketching α}
    {fs : List Finding} (hsole : ∀ index, Finds (f (some index)) fs)
    (hcontent : Finds (f none) (findings children ++ fs))
    : Finds (soleChild? children >>= f) (findings children ++ fs) := by
  unfold soleChild?
  split
  . next tag attributes below =>
    rw [bind_assoc]
    refine .bind_lift ?_ ?_
    . intro marker? h
      split
      . simp only [findings, itemFindings, h, List.append_nil, bind_assoc, pure_bind]
        exact (checkEmpty_finds tag attributes below).bind fun _ => hsole _
      . exact hcontent
    . intro e h
      simp only [findings, itemFindings, h]
      exact ⟨_, rfl⟩
  . exact hcontent

theorem ofMarkup_finds (m : Markup) : Finds (ofMarkup m) (findings m) := by
  induction m with
  | nil => exact .pure _
  | cons item children siblings ihc ihs =>
    have hrest : ∀ entry below, Finds (do return .cons entry below (← ofMarkup siblings) : Sketching Sketch)
        (findings siblings) := fun _ _ => ihs.andThen fun _ => .pure _
    cases item with
    | element tag attributes =>
      refine .bind_lift ?_ ?_
      . intro marker? h
        cases marker? with
        | some marker =>
          simp only [findings, itemFindings, h]
          exact (checkEmpty_finds tag attributes children).bind fun _ => hrest _ _
        | none =>
          simp only [findings, itemFindings, h, List.append_assoc]
          refine (element_finds attributes { tag }).bind fun _ => soleChild?_finds children ?_ ?_
          . exact fun _ => hrest _ _
          . exact ihc.bind fun _ => hrest _ _
      . intro e h
        simp only [findings, itemFindings, h]
        exact ⟨_, rfl⟩
    | text s => exact hrest _ _
    | comment s => exact hrest _ _
    | cdata s => exact .throw _ _
    | doctype s => exact .throw _ _
    | instruction s => exact .throw _ _

theorem ofRoot_finds (item : Markup.Item) (children : Markup)
    : Finds (ofRoot item children) (rootFindings item ++ findings (.cons item children .nil)) := by
  have hmarkup := ofMarkup_finds (.cons item children .nil)
  unfold ofRoot
  cases item with
  | element tag attributes =>
    refine .bind_lift ?_ ?_
    . intro marker? h
      rw [rootFindings, h]
      cases marker? with
      | none => exact hmarkup
      | some marker =>
        cases marker with
        | text index => exact hmarkup
        | child index => exact fun _ => rfl
    . intro e h
      rw [rootFindings, h]
      exact ⟨_, rfl⟩
  | _ => exact hmarkup

end Sketch

theorem ofSource_finds (source : String) (normalize : Bool)
    : Finds (ofSource source normalize) (sourceFindings source normalize) := by
  refine .bind_lift ?_ ?_
  . intro m h
    rw [sourceFindings, h]
    cases m with
    | nil => exact .throw _ _
    | cons item children siblings =>
      cases siblings with
      | nil => exact (Sketch.ofRoot_finds item children).andThen fun _ => .pure _
      | cons _ _ _ => exact .throw _ _
  . intro e h
    rw [sourceFindings, h]
    exact ⟨_, rfl⟩

end Template

namespace Session

open Template (Finding sourceFindings)

variable {s s' : Session} {source : String}

theorem compile_eq_error {e : Template.Error} (h : compile source s = .error e s')
    : s.templates.get? source = none ∧ s' = { s with delegated := s'.delegated } ∧
        Finding.search s.delegated (sourceFindings source s.settings.normalizeBlank)
          = (some e, s'.delegated) := by
  unfold compile at h
  split at h
  . cases h
  . next hnone =>
    have hfinds := Template.ofSource_finds source s.settings.normalizeBlank s.delegated
    cases hmade : Template.ofSource source s.settings.normalizeBlank s.delegated with
    | ok t events =>
      rw [hmade] at h
      cases h
    | error e' events =>
      rw [hmade] at h hfinds
      cases h
      exact ⟨hnone, rfl, hfinds⟩

theorem compile_eq_ok {t : Template} (hnone : s.templates.get? source = none)
    (h : compile source s = .ok t s')
    : Finding.search s.delegated (sourceFindings source s.settings.normalizeBlank)
        = (none, s'.delegated) := by
  unfold compile at h
  have hfinds := Template.ofSource_finds source s.settings.normalizeBlank s.delegated
  cases hmade : Template.ofSource source s.settings.normalizeBlank s.delegated with
  | error e events =>
    rw [hnone, hmade] at h
    cases h
  | ok t' events =>
    rw [hnone, hmade] at h
    rw [hmade] at hfinds
    cases h
    exact hfinds

/--
A text that makes no template leaves the templates and the settings as they are. The event names that
were found in it up to its first flaw stay registered.
-/
theorem failed_compile_registers {e : Template.Error} (h : compile source s = .error e s')
    : s'.templates = s.templates ∧ s'.settings = s.settings ∧
        ∃ before after, sourceFindings source s.settings.normalizeBlank = before ++ .flaw e :: after ∧
          (∀ e', .flaw e' ∉ before) ∧ s.delegated <+: s'.delegated ∧
          ∀ name, s'.isDelegated name ↔ s.isDelegated name ∨ .event name ∈ before := by
  obtain ⟨-, hs', hsearch⟩ := compile_eq_error h
  obtain ⟨before, after, heq, hfirst, hgrown, hmem⟩ := Finding.search_eq_some (congrArg (·.1) hsearch)
  rw [hsearch] at hgrown hmem
  refine ⟨congrArg (·.templates) hs', congrArg (·.settings) hs', before, after, heq, hfirst, hgrown, ?_⟩
  intro name
  simpa [isDelegated] using hmem name

/-- Why a text makes no template in a new session, and the event names that it leaves behind. -/
def failure? (source : String) : Option (Template.Error × List String) :=
  match compile source {} with
  | .ok _ _ => none
  | .error e s => some (e, s.delegated)

theorem exists_of_failure? {e : Template.Error} {events : List String}
    (h : failure? source = some (e, events))
    : ∃ s, compile source {} = .error e s ∧ s.delegated = events := by
  unfold failure? at h
  split at h
  . cases h
  . next s hs =>
    cases h
    exact ⟨s, hs, rfl⟩

theorem exists_of_failure?_eq_none (h : failure? source = none) : ∃ t s, compile source {} = .ok t s := by
  unfold failure? at h
  split at h
  . next t s hs => exact ⟨t, s, hs⟩
  . cases h

def halfMade : String :=
  "<p block-handler-0='click'><![CDATA[x]]></p>"

theorem failed_compile_registers_click
    : ∃ s' before after, compile halfMade {} = .error (.unsupportedNode "CDATA") s' ∧
        sourceFindings halfMade true = before ++ .flaw (.unsupportedNode "CDATA") :: after ∧
        (∀ name, s'.isDelegated name ↔ .event name ∈ before) ∧ s'.isDelegated "click" := by
  have hfails : failure? halfMade = some (.unsupportedNode "CDATA", ["click"]) := by decide +kernel
  obtain ⟨s', hs', hevents⟩ := exists_of_failure? hfails
  obtain ⟨-, -, before, after, heq, -, -, hmem⟩ := failed_compile_registers hs'
  refine ⟨s', before, after, hs', heq, ?_, ?_⟩
  . intro name
    simpa [isDelegated] using hmem name
  . simp [isDelegated, hevents]

/-- A failure may leave an event name behind. -/
theorem failed_compile_not_traceless
    : ¬ ∀ (s s' : Session) (source : String) (e : Template.Error), compile source s = .error e s' →
        s'.templates = s.templates ∧ s'.settings = s.settings ∧
          ∀ name, s'.isDelegated name = s.isDelegated name := by
  intro h
  have hfails : failure? halfMade = some (.unsupportedNode "CDATA", ["click"]) := by decide +kernel
  obtain ⟨s', hs', hevents⟩ := exists_of_failure? hfails
  have hclick := (h _ _ _ _ hs').2.2 "click"
  simp [isDelegated, hevents] at hclick

end Session

end VirtualDom
