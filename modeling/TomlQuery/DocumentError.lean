import TomlQuery.Toml.Fault
/-! # Errors of documents

A text may fail to be a document, and a value may have no counterpart among the nodes. A caller
may also state such an error in its own words.
-/
namespace TomlQuery

inductive DocumentError
  | malformed (reason : Toml.Reason) (position : Text.Position)
  | unsupported (location kind : String)
  | stated (text : String) (line column : Option Nat)
  deriving DecidableEq, Repr

namespace DocumentError

def message : DocumentError → String
  | malformed reason _ => s!"Invalid TOML syntax: {reason.message}"
  | unsupported location kind =>
    if location = "" then s!"Unsupported value at document root: {kind}"
    else s!"Unsupported value at '{location}': {kind}"
  | stated text _ _ => text

def line : DocumentError → Option Nat
  | malformed _ position => some position.line
  | unsupported .. => none
  | stated _ line _ => line

def column : DocumentError → Option Nat
  | malformed _ position => some position.column
  | unsupported .. => none
  | stated _ _ column => column

def hasCause : DocumentError → Bool
  | malformed .. => true
  | _ => false

end DocumentError

end TomlQuery
