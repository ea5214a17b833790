/-!
This module contains the classes of characters that markup is made of.
-/

namespace VirtualDom.Markup

def isSpace (c : Char) : Bool :=
  c == ' ' || c == '\t' || c == '\r' || c == '\n'

def isNameStart (c : Char) : Bool :=
  c.isAlpha || c == '_'

def isNameChar (c : Char) : Bool :=
  c.isAlphanum || c == '-' || c == '_' || c == ':' || c == '.'

def isAttributeChar (c : Char) : Bool :=
  !(isSpace c || c == '=' || c == '>' || c == '/' || c == '<' || c == '"' || c == '\'')

def skipSpace (cs : List Char) : List Char :=
  cs.dropWhile isSpace

end VirtualDom.Markup
