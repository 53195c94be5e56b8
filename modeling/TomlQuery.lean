import TomlQuery.Binary64.Basic
import TomlQuery.Binary64.Notation
import TomlQuery.Binary64.Rounding
import TomlQuery.Binary64.Shortest
import TomlQuery.Binary64.Value
import TomlQuery.Calendar
import TomlQuery.Command.Arguments
import TomlQuery.Command.Help
import TomlQuery.Command.Host
import TomlQuery.Command.Output
import TomlQuery.Command.Run
import TomlQuery.Document
import TomlQuery.DocumentError
import TomlQuery.Environment
import TomlQuery.Failure
import TomlQuery.FilePath
import TomlQuery.Format.Basic
import TomlQuery.Format.Inline
import TomlQuery.Format.Json
import TomlQuery.Input
import TomlQuery.Log
import TomlQuery.Lookup
import TomlQuery.Main
import TomlQuery.Node.Basic
import TomlQuery.Node.Entries
import TomlQuery.Offset
import TomlQuery.Path.Basic
import TomlQuery.Path.Reader
import TomlQuery.Query
import TomlQuery.Settings
import TomlQuery.Text.Blank
import TomlQuery.Text.Key
import TomlQuery.Text.Numeral
import TomlQuery.Text.Quoted
import TomlQuery.Text.Units
import TomlQuery.Text.Utf16
import TomlQuery.Text.Utf8
import TomlQuery.Toml.Document
import TomlQuery.Toml.Draft
import TomlQuery.Toml.Fault
import TomlQuery.Toml.Gap
import TomlQuery.Toml.Key
import TomlQuery.Toml.Literal
import TomlQuery.Toml.Moment
import TomlQuery.Toml.Number
import TomlQuery.Toml.Value
import TomlQuery.Untyped.Basic
import TomlQuery.Untyped.Json
import TomlQuery.Untyped.Node
import TomlQuery.Untyped.Text
import TomlQuery.Proofs.Binary64.Magnitude
import TomlQuery.Proofs.Binary64.ReadBack
import TomlQuery.Proofs.Lookup
import TomlQuery.Proofs.Node.Tree
import TomlQuery.Proofs.Path.Grammar
import TomlQuery.Proofs.Path.Reading
import TomlQuery.Proofs.Path.RoundTrip
import TomlQuery.Proofs.Text.Quoted
import TomlQuery.Proofs.Text.Units
import TomlQuery.Proofs.Text.Utf16
import TomlQuery.Proofs.Toml.Draft
import TomlQuery.Proofs.Toml.Inline
import TomlQuery.Proofs.Toml.Literal
import TomlQuery.Proofs.Toml.Number
import TomlQuery.Proofs.Toml.Proper
import TomlQuery.Proofs.Toml.Scalar
import TomlQuery.Proofs.Address
import TomlQuery.Proofs.Command.Agreement
import TomlQuery.Proofs.Json.Grammar
import TomlQuery.Proofs.Json.Reader
import TomlQuery.Proofs.Format.Json
import TomlQuery.Proofs.Path.Dotted
import TomlQuery.Proofs.DottedKey
import TomlQuery.Proofs.Command.Quiet
import TomlQuery.Proofs.Query
import TomlQuery.Proofs.OneLine
import TomlQuery.Proofs.Command.Judgement
import TomlQuery.Proofs.Command.Spelling
import TomlQuery.Proofs.Path.Position
import TomlQuery.Proofs.Command.Bundle
import TomlQuery.Proofs.Command.FileValue
import TomlQuery.Proofs.Command.Timeline
import TomlQuery.Proofs.Format.Shell
import TomlQuery.Proofs.Input
import TomlQuery.Proofs.Untyped.Node
import TomlQuery.Proofs.Calendar
import TomlQuery.Proofs.Command.Debug
import TomlQuery.Proofs.Environment.Reading
import TomlQuery.Proofs.FilePath
import TomlQuery.Proofs.Location
import TomlQuery.Proofs.Untyped.Moment
import TomlQuery.Proofs.Node.Indices
import TomlQuery.Proofs.Log
import TomlQuery.Proofs.Document
