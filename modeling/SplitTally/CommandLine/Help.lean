/-!
# The help page

What the program prints about itself.
-/

namespace SplitTally.CommandLine

/-- The name and the version of the program. -/
def versionText : String := "prio-encode 0.1.0\n"

/-- The help page. -/
def helpText : String :=
  String.join [
    versionText,
    "Encode, encrypt and verify Prio measurements\n\n",
    "USAGE:\n",
    "    prio-encode [--schema <path>] keygen [-o <output>]\n",
    "    prio-encode [--schema <path>] encode --batch-id <batch-id> ",
    "--public-key-a <public-key-a>\n",
    "        --public-key-b <public-key-b> [-o <output>] <measurements>...\n",
    "    prio-encode [--schema <path>] decrypt --batch-id <batch-id> ",
    "--server-a-private-key <path>\n",
    "        --server-b-private-key <path> [-i <input>]\n\n",
    "A measurement is written name=value. Keys are generated by keygen, which writes the private\n",
    "key to the output and the public key to standard error. The schema is a JSON list of metrics;\n",
    "without one, the metrics are the three browser flags. A dash stands for a standard stream.\n"]

end SplitTally.CommandLine
