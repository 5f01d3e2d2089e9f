/-
Help about command lines.

Each topic is a text of its own: how the command line is written, what its values are, and what its switches do.
-/

namespace Turnstile

/-- what help is asked about -/
inductive HelpTopic where
  | program
  | instrument
  | map
  deriving DecidableEq, Repr

namespace HelpTopic

def lines : HelpTopic → List String
  | program => [
    "usage: jstrace [-h] [--version] \x7binstrument,map\x7d ...",
    "",
    "jstrace - coverage instrumentation for JavaScript",
    "",
    "positional arguments:",
    "  \x7binstrument,map\x7d  Available commands",
    "    instrument      Instrument JavaScript files for coverage tracing",
    "    map             Print the instrumentation map of a JavaScript file",
    "",
    "options:",
    "  -h, --help        show this help message and exit",
    "  --version         show program's version number and exit"]
  | instrument => [
    "usage: jstrace instrument [-h] [-o OUTPUT] [--trace-variable TRACE_VARIABLE]",
    "                          [--embed-source] [--no-auto-wrap] [--no-compact]",
    "                          [-d] [-v]",
    "                          files [files ...]",
    "",
    "positional arguments:",
    "  files                 JavaScript files to instrument",
    "",
    "options:",
    "  -h, --help            show this help message and exit",
    "  -o OUTPUT, --output OUTPUT",
    "                        Directory to write instrumented files to (default:",
    "                        stdout, single file only)",
    "  --trace-variable TRACE_VARIABLE",
    "                        Global variable holding the runtime record (default:",
    "                        __trace__)",
    "  --embed-source        Embed the original source lines in the record",
    "  --no-auto-wrap        Reject a return statement outside any function",
    "  --no-compact          Emit the preamble one statement per line",
    "  -d, --debug           Print annotated source and phase timings",
    "  -v, --verbose         Verbose output"]
  | map => [
    "usage: jstrace map [-h] [--indent INDENT] file",
    "",
    "positional arguments:",
    "  file             JavaScript file",
    "",
    "options:",
    "  -h, --help       show this help message and exit",
    "  --indent INDENT  JSON indentation"]

/-- the lines of a topic, each with its line end -/
def text (t : HelpTopic) : String := String.join (t.lines.map (· ++ "\n"))

end HelpTopic

end Turnstile
