import VirtualDom.Document.Html
import VirtualDom.Markup.Parse
import VirtualDom.Template.Wiring

/-!
This module contains templates: the static content and the wiring of a text in markup.
-/

namespace VirtualDom

structure Template where
  /-- The text that the template was made from, by which templates are told apart. -/
  source : String
  sketch : Template.Sketch
  wiring : Template.Wiring
  wiring_eq : wiring = .ofSketch sketch

namespace Template

def markup (source : String) (normalize : Bool) : Except Error Markup :=
  match Markup.parse source with
  | .error e => .error (.malformed e)
  | .ok m => .ok (if normalize then m.dropBlankRoots.dropBlank else m.dropBlankRoots)

/-- The template with this source, the markup of which must have one root. -/
def ofSource (source : String) (normalize : Bool) : Sketching Template := do
  match ← Sketching.lift (markup source normalize) with
  | .cons item children .nil =>
    let sketch ← Sketch.ofRoot item children
    return ⟨source, sketch, .ofSketch sketch, rfl⟩
  | other => throw (.rootCount other.roots.length)

def content (t : Template) : Forest Content :=
  t.sketch.content

def html (t : Template) : String :=
  .ofList (Html.write t.content)

end Template
end VirtualDom
