import RiskExchange.CommandLine.Arguments

/-! # Help — what the program says about itself -/

namespace RiskExchange.CommandLine

/-- The lines of a text, each with a line break behind it. -/
def unlines (lines : List String) : String :=
  String.join (lines.map (· ++ "\n"))

/-- The options that every command has, on one line each. -/
def commonOptions : List String := [
  "  -v, --verbose...       Verbosity (-v, -vv, -vvv)",
  "  -c, --config <CONFIG>  Path to the configuration file [default: "
    ++ defaultConfig ++ "]"]

/-- Help about the program. -/
def programHelp : String := unlines <| [
  "Converts flattened PRA solver records into Open-PSA MEF XML",
  "",
  "Usage: pramef [OPTIONS] <COMMAND>",
  "",
  "Commands:",
  "  convert  Convert a solver record file into an MEF document",
  "  encode   Print the encoded form of raw sequence terms",
  "  help     Print this message or the help of the given subcommand(s)",
  "",
  "Options:"] ++ commonOptions ++ [
  "  -h, --help             Print help",
  "  -V, --version          Print version"]

/-- Help about encoding terms. -/
def encodeHelp : String := unlines <| [
  "Print the encoded form of raw sequence terms",
  "",
  "Usage: pramef encode [OPTIONS] <TERMS>...",
  "",
  "Arguments:",
  "  <TERMS>...  Raw sequence terms",
  "",
  "Options:"] ++ commonOptions ++ [
  "  -h, --help             Print help"]

/-- Help about conversions in brief. -/
def convertSummary : String := unlines <| [
  "Convert a solver record file into an MEF document",
  "",
  "Usage: pramef convert [OPTIONS] <INPUT>",
  "",
  "Arguments:",
  "  <INPUT>  The solver record file (JSON)",
  "",
  "Options:",
  "  -o, --output <OUTPUT>  Where to write the MEF document"]
  ++ commonOptions ++ [
  "      --store <PATH>     Override the configured sequence store",
  "      --indent <INDENT>  Override the configured indentation width "
    ++ "(0 for a single line)",
  "  -h, --help             Print help (see more with '--help')"]

/-- Help about conversions. -/
def convertHelp : String := unlines [
  "Convert a solver record file into an MEF document",
  "",
  "The encoded sequence logic is merged into the sequence store.",
  "",
  "Usage: pramef convert [OPTIONS] <INPUT>",
  "",
  "Arguments:",
  "  <INPUT>",
  "          The solver record file (JSON)",
  "",
  "Options:",
  "  -o, --output <OUTPUT>",
  "          Where to write the MEF document",
  "          ",
  "          Defaults to the input path with an `.xml` extension.",
  "",
  "  -v, --verbose...",
  "          Verbosity (-v, -vv, -vvv)",
  "",
  "  -c, --config <CONFIG>",
  "          Path to the configuration file",
  "          ",
  "          [default: " ++ defaultConfig ++ "]",
  "",
  "      --store <PATH>",
  "          Override the configured sequence store",
  "",
  "      --indent <INDENT>",
  "          Override the configured indentation width (0 for a single line)",
  "",
  "  -h, --help",
  "          Print help (see a summary with '-h')"]

/-- Help about help. -/
def helpHelp : String := unlines [
  "Print this message or the help of the given subcommand(s)",
  "",
  "Usage: pramef help [COMMAND]...",
  "",
  "Arguments:",
  "  [COMMAND]...  Print help for the subcommand(s)"]

/-- Help about a topic. -/
def Topic.text : Topic → String
  | .program => programHelp
  | .convert true => convertHelp
  | .convert false => convertSummary
  | .encode => encodeHelp
  | .help => helpHelp

/-- The program's name and version. -/
def versionText : String := unlines ["pra-mef-converter 0.1.0"]

end RiskExchange.CommandLine
