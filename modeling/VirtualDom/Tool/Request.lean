import VirtualDom.Tool

/-!
This module contains the requests that a command line can make: the command, the file that it is
about, and its options.
-/

namespace VirtualDom.Tool

inductive Action where
  | inspect
  | render

structure Request where
  action : Action
  /-- The files that are named; there must be one. -/
  files : List String := []
  words : List String := []
  keepBlank : Bool := false

namespace Request

def usage : String :=
  "usage: inspect FILE [--keep-whitespace]\n" ++
  "       render FILE [--data WORD...] [--keep-whitespace]\n"

def isOption (word : String) : Bool :=
  word.toList.head? = some '-'

/-- Reads arguments; right after `--data`, a word is data and not a file. -/
def addArguments? (request : Request) (inData : Bool) : List String → Option Request
  | [] => some request
  | "--keep-whitespace" :: rest => { request with keepBlank := true }.addArguments? false rest
  | "--data" :: rest =>
    match request.action, rest.head? with
    | .render, some word => if isOption word then none else request.addArguments? true rest
    | _, _ => none
  | word :: rest =>
    if isOption word then
      none
    else if inData then
      { request with words := request.words ++ [word] }.addArguments? true rest
    else
      { request with files := request.files ++ [word] }.addArguments? false rest

def ofArguments? : List String → Option Request
  | "inspect" :: rest => addArguments? ⟨.inspect, [], [], false⟩ false rest
  | "render" :: rest => addArguments? ⟨.render, [], [], false⟩ false rest
  | _ => none

def answer (request : Request) (file : File) : Command String :=
  match request.action with
  | .inspect => inspect file request.keepBlank
  | .render => return (← render file request.words request.keepBlank) ++ "\n"

end Request
end VirtualDom.Tool
