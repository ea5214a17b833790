import VirtualDom.Document.Content
import VirtualDom.Document.Html
import VirtualDom.Trace

/-!
This module contains the state that views act on, a document and the trace of what was told so far,
and the actions on it.
-/

namespace VirtualDom

structure Host where
  document : Document := {}
  trace : List Entry := []

/-- Actions on a host. After a fault the host is as it was when the fault came up. -/
abbrev Engine :=
  EStateM Fault Host

namespace Engine

def read {α : Type} (f : Document → Except Fault α) : Engine α := fun h =>
  match f h.document with
  | .ok a => .ok a h
  | .error e => .error e h

def edit (f : Document → Except Fault Document) : Engine Unit := fun h =>
  match f h.document with
  | .ok document => .ok () { h with document }
  | .error e => .error e h

def change {α : Type} (f : Document → Except Fault (α × Document)) : Engine α := fun h =>
  match f h.document with
  | .ok (a, document) => .ok a { h with document }
  | .error e => .error e h

def create {α : Type} (f : Document → α × Document) : Engine α :=
  modifyGet fun h =>
    let (a, document) := f h.document
    (a, { h with document })

def log (entries : List Entry) : Engine Unit :=
  modify fun h => { h with trace := h.trace ++ entries }

def warn (w : Warning) : Engine Unit :=
  log [.warning w]

def insert (parent id : NodeId) (anchor : Option NodeId) : Engine Unit :=
  edit (·.insertBefore parent id anchor)

def createText (s : String) : Engine NodeId :=
  create (·.createText s)

def discard (id : NodeId) : Engine Unit :=
  edit (·.discard id)

/-- Frees all that is in `parent`, and records that this was for a view with these nodes. -/
def clear (parent : NodeId) (own : List NodeId) : Engine Unit := do
  let children ← read (·.children parent)
  edit fun d => .ok (d.recordClearing ⟨parent, children, own⟩)
  edit (·.discardChildren parent)

end Engine
end VirtualDom
