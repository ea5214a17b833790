import VirtualDom.Event
import VirtualDom.Template.Basic

/-!
This module contains what lasts from one rendering to the next: the settings, the templates made so
far, and the names of the delegated events.
-/

namespace VirtualDom

structure Settings where
  normalizeBlank : Bool := true
  handler : EventHandler := .standard

structure Session where
  settings : Settings := {}
  /-- The templates by their sources. None is ever dropped or made again. -/
  templates : Dict Template := []
  delegated : List String := []

namespace Session

def isDelegated (s : Session) (event : String) : Bool :=
  s.delegated.contains event

def delegate (s : Session) (event : String) : Session :=
  if s.isDelegated event then s else { s with delegated := s.delegated ++ [event] }

def compile (source : String) : EStateM Template.Error Session Template := fun s =>
  match s.templates.get? source with
  | some t => .ok t s
  | none =>
    match Template.ofSource source s.settings.normalizeBlank s.delegated with
    | .ok t delegated =>
      .ok t { s with delegated, templates := s.templates.put source t }
    | .error e delegated => .error e { s with delegated }

end Session
end VirtualDom
