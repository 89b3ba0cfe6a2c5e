import LiquidTemplate.Token

/-!
# Embedded code

Code inside a template, such as a script, is handed to a formatter that the caller supplies. A formatter
answers a request with the new code or with the text of an error, and may take the requests before into
account. `Session` records the requests in order and the last error.
-/

namespace LiquidTemplate

/-- Code to be formatted, with its language and the measures to keep. -/
structure CodeRequest where
  code : String
  kind : CodeKind
  /-- The width that the surrounding indentation leaves. -/
  printWidth : Nat
  indentWidth : Nat
deriving DecidableEq, Repr, Inhabited

/-- A formatter of embedded code: it sees the requests before, oldest first, and the one to answer. -/
abbrev CodeFormatter : Type :=
  List CodeRequest → CodeRequest → Except String String

namespace CodeFormatter

/-- Leaves all code as it is. -/
def identity : CodeFormatter :=
  fun _ request => .ok request.code

/-- Puts the ASCII letters into upper case. -/
def upper : CodeFormatter :=
  fun _ request => .ok (Text.upper request.code)

/-- Answers every request with the same text. -/
def constant (text : String) : CodeFormatter :=
  fun _ _ => .ok text

/-- Fails on the languages with these extensions, or on all of them, and leaves other code as it is. -/
def failing (extensions : Option (List String)) : CodeFormatter :=
  fun earlier request =>
    if extensions.all (request.kind.extension ∈ ·) then
      .error ("call " ++ toString (earlier.length + 1) ++ " failed on " ++ request.kind.extension)
    else .ok request.code

end CodeFormatter

/-- The requests made so far, oldest first, and the last error. -/
structure Session where
  requests : List CodeRequest := []
  failure : Option String := none
deriving DecidableEq, Repr, Inhabited

/-- Ask the formatter. If it fails, the code stays as it is and the error is recorded. -/
def CodeFormatter.ask (formatter : CodeFormatter) (request : CodeRequest) : StateM Session String :=
  fun s =>
    let requests := s.requests ++ [request]
    match formatter s.requests request with
    | .ok code => (code, { s with requests := requests })
    | .error message => (request.code, { requests := requests, failure := some message })

end LiquidTemplate
