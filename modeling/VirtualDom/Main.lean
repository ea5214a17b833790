import VirtualDom.Tool.Request

/-!
This module contains the command line: it reads the file that a request names and prints the answer.
-/

namespace VirtualDom.Tool

def File.read (name : String) : IO File := do
  try
    return .ofBytes name (← IO.FS.readBinFile name)
  catch
    | .noFileOrDirectory _ _ _ => return ⟨name, .error .missing⟩
    | e => return ⟨name, .error (.other (toString e))⟩

def refuse : IO UInt32 := do
  IO.eprint Request.usage
  return 2

def Request.run (request : Request) : IO UInt32 := do
  match request.files with
  | [name] =>
    match request.answer (← File.read name) {} with
    | .ok output _ =>
      IO.print output
      return 0
    | .error e _ =>
      IO.eprintln ("Error: " ++ e.message)
      return 1
  | _ => refuse

end VirtualDom.Tool

def main (arguments : List String) : IO UInt32 := do
  match VirtualDom.Tool.Request.ofArguments? arguments with
  | some request => request.run
  | none => VirtualDom.Tool.refuse
