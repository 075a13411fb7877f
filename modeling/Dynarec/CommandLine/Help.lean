import Dynarec.CommandLine.Arguments

/-!
# Help

The texts that explain the command line.
-/

namespace Dynarec.Help

/-- The lines about the program. -/
def programLines : List String :=
  ["Dynamic recompiler for a MIPS/Allegrex core",
   "",
   "Usage: allegrex-jit <COMMAND>",
   "",
   "Commands:",
   "  run   Run a raw little-endian guest image",
   "  help  Print this message or the help of the given subcommand(s)",
   "",
   "Options:",
   "  -h, --help  Print help"]

/-- The lines about running an image. -/
def runLines : List String :=
  ["Run a raw little-endian guest image",
   "",
   "Usage: allegrex-jit run [OPTIONS] <IMAGE>",
   "",
   "Arguments:",
   "  <IMAGE>  The image file",
   "",
   "Options:",
   "      --base <BASE>      Load address (defaults to the start of RAM)",
   "      --entry <ENTRY>    Entry point (defaults to the load address)",
   "      --cycles <CYCLES>  Stop after this many guest cycles [default: 100000000]",
   "      --jit <JIT>        Execution engine (overrides the config file) [possible values: off, on]",
   "      --config <CONFIG>  TOML configuration file",
   "      --trace-jit        Trace JIT compilation events",
   "      --no-blocklink     Disable block linking",
   "      --dump-state       Print the final guest state and JIT statistics as JSON",
   "      --dump-blocks      Print the host code of every valid block when the run ends",
   "  -h, --help             Print help"]

end Dynarec.Help
