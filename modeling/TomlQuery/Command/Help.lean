import TomlQuery.Environment
/-! # Help

The text that explains the command line.
-/
namespace TomlQuery.Command

def padRight (size : Nat) (text : String) : String :=
  text ++ String.ofList (List.replicate (size - text.length) ' ')

def variableLine (v : Variable) : String := s!"  {padRight 20 v.name} {v.description}"

def usageLines : List String :=
  ["Usage: tomlraider [options] <property>",
    "",
    "Read a property from a TOML document.",
    "",
    "Property paths separate keys with '.' and index arrays with [n]:",
    "  package.version",
    "  tool.pdm.dev-dependencies.dev[1]",
    "  'quoted.key'.value",
    "",
    "OPTIONS:",
    "  -f, --file <path>        TOML file to read ('-' for stdin)",
    "  -p, --pyproject          Read pyproject.toml from MESON_SOURCE_ROOT or the cwd",
    "  -j, --json               Print the value as JSON",
    "  -s, --shell              Print the value in shell-friendly form",
    "      --format <format>    Output format: text, json or shell",
    "  -e, --exists             Print nothing; exit 0 if the property exists",
    "  -q, --quiet              Write nothing to stderr",
    "  -d, --debug              Write debug logs to stderr",
    "  -v, --version            Show version information",
    "  -h, --help               Show this help message",
    "",
    "ENVIRONMENT:"]

def exitCodeLines : List String :=
  ["",
    "EXIT CODES:",
    "  0  success",
    "  1  usage error, missing or unreadable input",
    "  2  invalid TOML document",
    "  3  invalid property path",
    "  4  type mismatch",
    "  5  key not found",
    "  6  index out of range"]

def helpLines : List String := usageLines ++ Variable.all.map variableLine ++ exitCodeLines

def helpText : String := "".intercalate (helpLines.map (· ++ "\n"))

end TomlQuery.Command
