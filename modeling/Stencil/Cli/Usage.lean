/-
# `Stencil.Cli.Usage` — how the program is to be called
-/
import Stencil.Cli.Command

namespace Stencil.Usage

/-- The way a command line with a verb is put together, or any command line. -/
def line : Option Verb → List String
  | none => ["usage: leaf [-h] [-v] \x7brender,compile,disasm\x7d ..."]
  | some .render => [
      "usage: leaf render [-h] [--base BASE] [--extension EXTENSION]",
      "                   [--context CONTEXT] [--max-steps MAX_STEPS] [--out OUT]",
      "                   template"]
  | some .compile => [
      "usage: leaf compile [-h] [--base BASE] [--extension EXTENSION] [--out OUT]",
      "                    template"]
  | some .disasm => ["usage: leaf disasm [-h] file"]

def helpOption : String := "  -h, --help            show this help message and exit"

def entryOptions : List String := [
  "  --base BASE           Directory embeds and extends resolve against (default:",
  "                        template dir)",
  "  --extension EXTENSION",
  "                        Suffix for #embed/#extend names"]

def parts : Option Verb → List String
  | none => [
      "Leaf template compiler",
      "",
      "positional arguments:",
      "  \x7brender,compile,disasm\x7d",
      "    render              Compile and render a template",
      "    compile             Compile a template to a packaged .lbc file",
      "    disasm              List the bytecode of a packaged .lbc file",
      "",
      "options:",
      helpOption,
      "  -v, --verbose         Log compile and render details"]
  | some .render => [
      "positional arguments:",
      "  template              Path to the template file",
      "",
      "options:",
      helpOption] ++ entryOptions ++ [
      "  --context CONTEXT     JSON file with the top-level bindings",
      "  --max-steps MAX_STEPS",
      "                        Abort after this many statements",
      "  --out OUT             Write output here instead of stdout"]
  | some .compile => [
      "positional arguments:",
      "  template              Path to the template file",
      "",
      "options:",
      helpOption] ++ entryOptions ++ [
      "  --out OUT             Output file (default: <template>.lbc)"]
  | some .disasm => [
      "positional arguments:",
      "  file        Packaged template",
      "",
      "options:",
      "  -h, --help  show this help message and exit"]

def ofLines (lines : List String) : String := String.join (lines.map (· ++ "\n"))

def help (verb : Option Verb) : String := ofLines (line verb ++ [""] ++ parts verb)

def reminder (verb : Option Verb) : String := ofLines (line verb)

end Stencil.Usage
