import Mathlib.Logic.Relation
import VirtualDom.Proofs.Template.Findings
import VirtualDom.Proofs.Template.Wiring

/-!
This module contains the proof that all event names that templates bind payloads to are registered once
the templates are there, also when these were made before and are only looked up.
-/

namespace VirtualDom

namespace Template

namespace Wiring

variable {l : Location} {s : Sketch} {w : Wiring}

theorem exists_mark_of_addSketch {parent : Nat} (hl : l ∈ (addSketch parent w s).locations)
    : l ∈ w.locations ∨ ∃ n ∈ s.labels, ∃ m ∈ n.2, m.location? l.reference = some l := by
  induction s generalizing parent w with
  | nil => exact .inl hl
  | cons label children siblings ihc ihs =>
    obtain ⟨c, marks⟩ := label
    have branch : ∀ {t : Sketch} {P : Prop} {parent source : Nat} {direction : Direction} {w : Wiring},
        (∀ {parent : Nat} {w : Wiring}, l ∈ (addSketch parent w t).locations → l ∈ w.locations ∨ P) →
        l ∈ (addBranch parent source direction t w).locations → l ∈ w.locations ∨ P := by
      intro t P parent source direction w ih hl
      unfold addBranch at hl
      split at hl
      . exact ih (w := w.addStep source direction) hl
      . exact .inl hl
    rw [addSketch_cons] at hl
    simp only [Forest.labels, List.cons_append, List.mem_cons, List.mem_append]
    rcases branch ihs hl with hl | ⟨n, hn, hm⟩
    . rcases branch ihc hl with hl | ⟨n, hn, hm⟩
      . rcases List.mem_append.1 hl with hl | hl
        . exact .inl hl
        . obtain ⟨m, hm, hlocation⟩ := List.mem_filterMap.1 hl
          have hreference : l.reference = w.references := by
            cases m <;> cases hlocation <;> rfl
          exact .inr ⟨_, .inl rfl, m, hm, hreference ▸ hlocation⟩
      . exact .inr ⟨n, .inr (.inl hn), hm⟩
    . exact .inr ⟨n, .inr (.inr hn), hm⟩

theorem exists_mark {t : Template} (hl : l ∈ t.wiring.locations)
    : ∃ n ∈ t.sketch.labels, ∃ m ∈ n.2, m.location? l.reference = some l := by
  rw [t.wiring_eq] at hl
  exact (exists_mark_of_addSketch hl).resolve_left nofun

end Wiring

theorem Mark.eq_handler_of_location? {m : Mark} {l : Location} {event : String}
    (h : m.location? l.reference = some l) (hl : l.binding = .handler event)
    : m = .handler l.dataIndex event := by
  match m with
  | .attribute index name tag =>
    rw [location?, Option.some.injEq] at h
    rw [← h] at hl
    dsimp only at hl
    rw [Binding.ofAttribute] at hl
    split at hl
    . cases hl
    . split at hl <;> cases hl
  | .handler index name =>
    rw [location?, Option.some.injEq] at h
    rw [← h] at hl ⊢
    cases hl
    rfl
  | .text _ | .bag _ | .ref _ =>
    rw [location?, Option.some.injEq] at h
    rw [← h] at hl
    cases hl

theorem event_mem_attributeFindings {tag : String} {attributes : List (String × String)} {index : Nat}
    {event : String} (h : .handler index event ∈ attributeMarks tag attributes)
    : .event event ∈ attributeFindings attributes := by
  obtain ⟨⟨name, value⟩, hentry, hmark⟩ := List.mem_filterMap.1 h
  refine List.mem_flatMap.2 ⟨_, hentry, ?_⟩
  dsimp only at hmark ⊢
  rw [attributeFinding]
  split at hmark
  . next marker hmarker =>
    rw [hmarker]
    cases marker <;> cases hmark
    exact List.mem_cons_self
  . cases hmark

theorem Drafts.event_mem {m : Markup} {s : Sketch} (h : Drafts m s) {index : Nat} {event : String}
    {n : Content × List Mark} (hn : n ∈ s.labels) (hm : .handler index event ∈ n.2)
    : .event event ∈ findings m := by
  induction h with
  | nil => cases hn
  | textMarker _ _ ih | childMarker _ _ ih | text _ ih | comment _ ih =>
    rcases List.mem_cons.1 hn with rfl | hn
    . simp at hm
    . exact List.mem_append_right _ (ih hn)
  | soleChild marker sole rest ih =>
    rw [findings, itemFindings, marker]
    rcases List.mem_cons.1 hn with rfl | hn
    . have hm := (List.mem_append.1 hm).resolve_right (by simp)
      exact List.mem_append_left _ (List.mem_append_left _ (event_mem_attributeFindings hm))
    . exact List.mem_append_right _ (ih hn)
  | element marker sole inside rest ihc ih =>
    rw [findings, itemFindings, marker]
    rcases List.mem_cons.1 hn with rfl | hn
    . exact List.mem_append_left _ (List.mem_append_left _ (event_mem_attributeFindings hm))
    . rcases List.mem_append.1 hn with hn | hn
      . exact List.mem_append_left _ (List.mem_append_right _ (ihc hn))
      . exact List.mem_append_right _ (ih hn)

theorem Compiled.event_mem {t : Template} {source : String} {normalize : Bool}
    (compiled : t.Compiled source normalize) {l : Location} (hl : l ∈ t.wiring.locations)
    {event : String} (hevent : l.binding = .handler event)
    : .event event ∈ sourceFindings source normalize := by
  obtain ⟨item, children, hmarkup, hdrafts, -⟩ := compiled.drafts
  obtain ⟨n, hn, m, hm, hlocation⟩ := Wiring.exists_mark hl
  rw [sourceFindings, hmarkup]
  exact List.mem_append_right _
    (hdrafts.event_mem hn (Mark.eq_handler_of_location? hlocation hevent ▸ hm))

namespace Finding

variable {events later : List String} {findings : List Finding}

/-- A search without an end keeps what was registered, and registers all that it comes upon. -/
theorem mem_of_search (h : search events findings = (none, later)) (name : String)
    : name ∈ later ↔ name ∈ events ∨ .event name ∈ findings := by
  induction findings generalizing events with
  | nil =>
    cases h
    simp
  | cons finding findings ih =>
    cases finding with
    | flaw e => cases h
    | event other =>
      rw [ih h]
      by_cases hother : events.contains other
      . rw [if_pos hother]
        grind
      . rw [if_neg hother]
        grind

end Finding
end Template

namespace Session

open Template (Location)

/-- What may be done in a session: it is set up, events are delegated, and templates are asked for. -/
inductive Step : Session → Session → Prop
  | configure {s : Session} (settings : Settings) : Step s { s with settings }
  | delegate {s : Session} (event : String) : Step s (s.delegate event)
  | made {s s' : Session} {source : String} {t : Template} (run : compile source s = .ok t s') : Step s s'
  | failed {s s' : Session} {source : String} {e : Template.Error}
      (run : compile source s = .error e s') : Step s s'

def Reached (s : Session) : Prop :=
  Relation.ReflTransGen Step {} s

/-- All events that the template binds payloads to are registered. -/
def Registers (s : Session) (t : Template) : Prop :=
  ∀ l ∈ t.wiring.locations, ∀ event, l.binding = .handler event → s.isDelegated event

variable {s s' : Session} {source : String} {t : Template}

theorem compile_of_none (hnone : s.templates.get? source = none) (h : compile source s = .ok t s')
    : t.Compiled source s.settings.normalizeBlank ∧ s'.templates = s.templates.put source t := by
  unfold compile at h
  rw [hnone] at h
  dsimp only at h
  split at h
  . next hmade =>
    cases h
    exact ⟨⟨_, _, hmade⟩, rfl⟩
  . cases h

theorem compile_of_some {t' : Template} (hsome : s.templates.get? source = some t')
    (h : compile source s = .ok t s') : t = t' ∧ s' = s := by
  unfold compile at h
  rw [hsome] at h
  cases h
  exact ⟨rfl, rfl⟩

theorem Step.isDelegated (h : Step s s') {event : String} (hevent : s.isDelegated event)
    : s'.isDelegated event := by
  simp only [Session.isDelegated, List.contains_iff_mem] at hevent ⊢
  cases h with
  | configure settings => exact hevent
  | delegate other =>
    unfold Session.delegate
    split
    . exact hevent
    . exact List.mem_append_left _ hevent
  | @made _ source t run =>
    cases hcached : s.templates.get? source with
    | none => exact (Template.Finding.mem_of_search (compile_eq_ok hcached run) event).2 (.inl hevent)
    | some t' =>
      obtain ⟨-, rfl⟩ := compile_of_some hcached run
      exact hevent
  | failed run =>
    obtain ⟨-, -, hsearch⟩ := compile_eq_error run
    obtain ⟨_, _, -, -, hgrown, -⟩ := Template.Finding.search_eq_some (congrArg (·.1) hsearch)
    rw [hsearch] at hgrown
    exact hgrown.subset hevent

theorem Registers.mono (h : s.Registers t) (hsteps : Relation.ReflTransGen Step s s')
    : s'.Registers t := by
  induction hsteps with
  | refl => exact h
  | tail _ step ih => exact fun l hl event hevent => step.isDelegated (ih l hl event hevent)

theorem registers_of_none (hnone : s.templates.get? source = none) (h : compile source s = .ok t s')
    : s'.Registers t := by
  intro l hl event hevent
  obtain ⟨compiled, -⟩ := compile_of_none hnone h
  rw [isDelegated, List.contains_iff_mem, Template.Finding.mem_of_search (compile_eq_ok hnone h)]
  exact .inr (compiled.event_mem hl hevent)

theorem Reached.registers (hs : s.Reached) (hcached : s.templates.get? source = some t)
    : s.Registers t := by
  induction hs generalizing source t with
  | refl => cases hcached
  | @tail s s' hs step ih =>
    have hkept : s.templates.get? source = some t → s'.Registers t := fun hcached =>
      (ih hcached).mono (.single step)
    cases step with
    | configure settings => exact hkept hcached
    | delegate event =>
      unfold Session.delegate at hcached
      split at hcached <;> exact hkept hcached
    | @made _ other t' run =>
      cases hother : s.templates.get? other with
      | some t'' =>
        obtain ⟨-, rfl⟩ := compile_of_some hother run
        exact hkept hcached
      | none =>
        rw [(compile_of_none hother run).2, Dict.get?_put] at hcached
        split at hcached
        . cases hcached
          exact registers_of_none hother run
        . exact hkept hcached
    | failed run =>
      rw [(compile_eq_error run).2.1] at hcached
      exact hkept hcached

theorem Reached.compile_registers (hs : s.Reached) (h : compile source s = .ok t s')
    : s'.Registers t := by
  cases hcached : s.templates.get? source with
  | none => exact registers_of_none hcached h
  | some t' =>
    obtain ⟨rfl, rfl⟩ := compile_of_some hcached h
    exact hs.registers hcached

end Session
end VirtualDom
