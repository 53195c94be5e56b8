import TomlQuery.Format.Basic
/-! # Settings

The settings of a run come in layers: flags of the command line before variables of the
environment before the defaults.
-/
namespace TomlQuery

structure Settings where
  format : Format
  quiet : Bool
  debug : Bool
  projectRoot : Option String
  deriving DecidableEq, Repr

/-- Settings of one layer; what a layer leaves open falls to the layer below it. -/
structure Overrides where
  format : Option Format
  quiet : Option Bool
  debug : Option Bool
  projectRoot : Option String
  deriving DecidableEq, Repr

def Overrides.empty : Overrides := ⟨none, none, none, none⟩

namespace Settings

def default : Settings := ⟨.text, false, false, none⟩

def override (settings : Settings) (layer : Overrides) : Settings where
  format := layer.format.getD settings.format
  quiet := layer.quiet.getD settings.quiet
  debug := layer.debug.getD settings.debug
  projectRoot := layer.projectRoot.or settings.projectRoot

end Settings

def manifestName : String := "pyproject.toml"

end TomlQuery
