import ElementScript.CommandLine.Arguments

/-!
# Help

The pages that the program prints when it is asked how to be used.
-/

namespace ElementScript

/-- The text of a page of help. -/
def HelpPage.text : HelpPage → String
  | program =>
    "Translate component scripts to custom element class bodies\n\n" ++
    "Usage: componentc <COMMAND>\n\n" ++
    "Commands:\n" ++
    "  translate  Translate a single component script\n" ++
    "  check      Translate every component script (`_*.js`) under a directory\n" ++
    "  bundle     Load components and print the payload served to the client\n" ++
    "  help       Print this message or the help of the given subcommand(s)\n\n" ++
    "Options:\n" ++
    "  -h, --help  Print help\n"
  | translate =>
    "Translate a single component script\n\n" ++
    "Usage: componentc translate [OPTIONS] [FILE]\n\n" ++
    "Arguments:\n" ++
    "  [FILE]  Path to a component script\n\n" ++
    "Options:\n" ++
    "      --stdin  Read from stdin\n" ++
    "      --json   Output the translation result as JSON\n" ++
    "  -h, --help   Print help\n"
  | check =>
    "Translate every component script (`_*.js`) under a directory\n\n" ++
    "Usage: componentc check <DIR>\n\n" ++
    "Arguments:\n" ++
    "  <DIR>  \n\n" ++
    "Options:\n" ++
    "  -h, --help  Print help\n"
  | bundle =>
    "Load components and print the payload served to the client\n\n" ++
    "Usage: componentc bundle [OPTIONS] <NAMES>...\n\n" ++
    "Arguments:\n" ++
    "  <NAMES>...  Component names to resolve\n\n" ++
    "Options:\n" ++
    "      --dir <DIR>        Components directory (overrides the config file)\n" ++
    "      --config <CONFIG>  JSON config file with a `components` section\n" ++
    "  -h, --help             Print help\n"
  | help =>
    "Print this message or the help of the given subcommand(s)\n\n" ++
    "Usage: componentc help [COMMAND]...\n\n" ++
    "Arguments:\n" ++
    "  [COMMAND]...  Print help for the subcommand(s)\n"

end ElementScript
