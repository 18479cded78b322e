import FeatureDigest.Command.Basic
import FeatureDigest.Report.Listing

/-!
# Help texts

What the program says about itself and its commands.
-/

set_option autoImplicit false

namespace FeatureDigest

/-- The lines of a help text. -/
def HelpTopic.lines : HelpTopic → List String
  | .program =>
    ["A fast CLI tool for extracting test reports from Gherkin feature files",
     "",
     "Usage: gherkin-report [COMMAND]",
     "",
     "Commands:",
     "  scan  Extract features, scenarios and steps from Gherkin feature files",
     "  init  Initialize a new .gherkinrc.json configuration file",
     "  help  Print this message or the help of the given subcommand(s)",
     "",
     "Options:",
     "  -h, --help     Print help",
     "  -V, --version  Print version"]
  | .scan =>
    ["Extract features, scenarios and steps from Gherkin feature files",
     "",
     "Usage: gherkin-report scan [OPTIONS] [PATH]",
     "",
     "Arguments:",
     "  [PATH]  Directory to scan (overrides `root` in the config file)",
     "",
     "Options:",
     "      --format <FORMAT>  Output format (overrides config file) "
       ++ "[possible values: text, json]",
     "      --ignore <GLOB>    Glob pattern or root-relative path to skip, added to the "
       ++ "config file's ignores. Can be specified multiple times",
     "      --extension <EXT>  Feature file extension (replaces the config file's "
       ++ "extensions). Can be specified multiple times",
     "  -v, --verbose          Enable verbose output",
     "  -h, --help             Print help"]
  | .init =>
    ["Initialize a new .gherkinrc.json configuration file",
     "",
     "Usage: gherkin-report init",
     "",
     "Options:",
     "  -h, --help  Print help"]
  | .help =>
    ["Print this message or the help of the given subcommand(s)",
     "",
     "Usage: gherkin-report help [COMMAND]...",
     "",
     "Arguments:",
     "  [COMMAND]...  Print help for the subcommand(s)"]

/-- The help text of a topic. -/
def HelpTopic.text (topic : HelpTopic) : String := unlines topic.lines

/-- The version of the program. -/
def versionText : String := unlines ["gherkin-report 0.1.0"]

/-- The wording of a misuse. -/
def Misuse.message : Misuse → String
  | .unknownArgument => "unexpected argument"
  | .invalidValue => "invalid or missing value for an argument"
  | .unknownCommand => "unrecognized subcommand"
  | .repeated => "an argument cannot be used multiple times"
  | .unexpectedValue => "unexpected value for a flag"

end FeatureDigest
