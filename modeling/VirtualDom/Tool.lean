import VirtualDom.Session
import VirtualDom.Template.Report
import VirtualDom.Value.Argument
import VirtualDom.View.Mount

/-!
This module contains the commands on template files: showing how a template is wired, and rendering
it with data from the command line.
-/

namespace VirtualDom.Tool

inductive ReadProblem where
  | missing
  | notText
  | other (reason : String)

def ReadProblem.message : ReadProblem → String
  | .missing => "No such file or directory (os error 2)"
  | .notText => "stream did not contain valid UTF-8"
  | .other reason => reason

structure File where
  name : String
  text : Except ReadProblem String

def File.ofBytes (name : String) (bytes : ByteArray) : File :=
  match String.fromUTF8? bytes with
  | some s => ⟨name, .ok s⟩
  | none => ⟨name, .error .notText⟩

inductive Error where
  | unreadable (name : String) (problem : ReadProblem)
  | uncompilable (name : String) (e : Template.Error)
  | fault (f : Fault)

def Error.message : Error → String
  | .unreadable name problem => "failed to read " ++ name ++ ": " ++ problem.message
  | .uncompilable name e => "failed to compile " ++ name ++ ": " ++ e.message
  | .fault f => f.message

abbrev Command :=
  EStateM Error Session

def check {α : Type} : Except Fault α → Command α
  | .ok a => pure a
  | .error f => throw (.fault f)

/-- Compiles the template in a file. The settings are the standard ones again afterwards. -/
def load (file : File) (keepBlank : Bool) : Command Template := fun s =>
  match file.text with
  | .error problem => .error (.unreadable file.name problem) s
  | .ok source =>
    let settings := if keepBlank then { s.settings with normalizeBlank := false } else s.settings
    match Session.compile source { s with settings } with
    | .ok t s => .ok t { s with settings := {} }
    | .error e s => .error (.uncompilable file.name e) { s with settings := {} }

def inspect (file : File) (keepBlank : Bool) : Command String := do
  let t ← load file keepBlank
  check t.report

def render (file : File) (words : List String) (keepBlank : Bool) : Command String := do
  let t ← load file keepBlank
  let view ← check (View.ofTemplate t ⟨0, words.map Value.ofWord⟩ [])
  check view.render

end VirtualDom.Tool
