import SplitTally.Text.Cut

/-!
# Options on the command line

A word that starts with two dashes names an option by its long name, one that starts with a single
dash by its letter. The value of an option follows an equals sign or, after a letter, directly;
otherwise it is the next word, unless that names an option itself. The other words are operands.
Two dashes alone make operands of all words behind them.
-/

namespace SplitTally.CommandLine

/-- An option with a value. -/
inductive Key where
  /-- The file with the schema. -/
  | schema
  /-- The batch. -/
  | batchId
  /-- The public key of the first server. -/
  | publicKeyA
  /-- The public key of the second server. -/
  | publicKeyB
  /-- The file with the private key of the first server. -/
  | privateKeyA
  /-- The file with the private key of the second server. -/
  | privateKeyB
  /-- Where the input is read. -/
  | input
  /-- Where the output is written. -/
  | output
  deriving DecidableEq, Repr

namespace Key

/-- The long name of an option. -/
def name : Key → String
  | .schema => "schema"
  | .batchId => "batch-id"
  | .publicKeyA => "public-key-a"
  | .publicKeyB => "public-key-b"
  | .privateKeyA => "server-a-private-key"
  | .privateKeyB => "server-b-private-key"
  | .input => "input"
  | .output => "output"

/-- The letter of an option, if it has one. -/
def letter? : Key → Option Char
  | .input => some 'i'
  | .output => some 'o'
  | _ => none

/-- The value of an option that is not given one. -/
def default? : Key → Option String
  | .input | .output => some "-"
  | _ => none

end Key

/-- Why the words of a command line are no invocation. -/
inductive Stop where
  /-- The words ask for help. -/
  | help
  /-- The words ask for the version. -/
  | version
  /-- The words do not fit together. -/
  | usage
  deriving DecidableEq, Repr

/-- What a word of the command line is by itself. -/
inductive Word where
  /-- A value or an operand. -/
  | operand
  /-- Two dashes. -/
  | separator
  /-- The name of an option, with the value in the same word. -/
  | option (key : Key) (value : Option String)
  /-- The name of an option that ends the scan. -/
  | stop (reason : Stop)
  deriving DecidableEq, Repr

namespace Word

/-- A value without the equals signs in front of it. -/
def withoutEquals (value : List Char) : String := String.ofList (value.dropWhile (· = '='))

/-- The meaning of a long name, which may have a value behind it. -/
def ofLong (keys : List Key) (text : List Char) : Word :=
  let (name, value) := match Cut.atMark? '=' text with
    | some (name, value) => (String.ofList name, some (withoutEquals value))
    | none => (String.ofList text, none)
  match keys.find? fun key => key.name = name with
  | some key => .option key value
  | none =>
    if name = "help" then .stop .help
    else if name = "version" then .stop .version
    else .stop .usage

/-- The meaning of a letter, which may have a value behind it. -/
def ofLetter (keys : List Key) (letter : Char) (text : List Char) : Word :=
  match keys.find? fun key => key.letter? = some letter with
  | some key => .option key (if text.isEmpty then none else some (withoutEquals text))
  | none =>
    if letter = 'h' then .stop .help
    else if letter = 'V' then .stop .version
    else .stop .usage

/-- The meaning of a word where the given options may occur. A dash by itself is an operand, and
dashes before a long name do not count. -/
def read (keys : List Key) (word : String) : Word :=
  match word.toList with
  | ['-', '-'] => .separator
  | '-' :: '-' :: text => ofLong keys (text.dropWhile (· = '-'))
  | '-' :: letter :: text => ofLetter keys letter text
  | _ => .operand

end Word

/-- What to do with operands. -/
inductive Operands where
  /-- There may be none. -/
  | refused
  /-- They are collected. -/
  | collected
  /-- The first one ends the scan. -/
  | final
  deriving DecidableEq, Repr

/-- The words of a command line, taken apart. -/
structure Scanned where
  /-- The options in their order, each with its value if it has one. -/
  settings : List (Key × Option String)
  /-- The operands, or the words from the final operand on. -/
  operands : List String
  deriving DecidableEq, Repr

namespace Scanned

/-- The words with another option in front. -/
def withSetting (key : Key) (value : Option String) (scanned : Scanned) : Scanned :=
  { scanned with settings := (key, value) :: scanned.settings }

/-- The words with another operand in front. -/
def withOperand (word : String) (scanned : Scanned) : Scanned :=
  { scanned with operands := word :: scanned.operands }

/-- Takes words apart, from left to right; the first one that does not fit decides. -/
def read (keys : List Key) (operands : Operands) : List String → Except Stop Scanned
  | [] => .ok ⟨[], []⟩
  | word :: rest =>
    match Word.read keys word with
    | .stop reason => .error reason
    | .option key (some value) => (read keys operands rest).map (withSetting key (some value))
    | .option key none =>
      match rest with
      | [] => .ok ⟨[(key, none)], []⟩
      | next :: later =>
        match Word.read keys next with
        | .operand => (read keys operands later).map (withSetting key (some next))
        | _ => (read keys operands (next :: later)).map (withSetting key none)
    | .separator =>
      match operands with
      | .refused => if rest.isEmpty then .ok ⟨[], []⟩ else .error .usage
      | .collected => .ok ⟨[], rest⟩
      | .final => .error .usage
    | .operand =>
      match operands with
      | .refused => .error .usage
      | .collected => (read keys operands rest).map (withOperand word)
      | .final => .ok ⟨[], word :: rest⟩

/-- The value of an option that need not be given. It may be given once, and then needs a value,
which may be the one that it has by default. -/
def value? (scanned : Scanned) (key : Key) : Except Stop (Option String) :=
  match scanned.settings.filter fun setting => setting.1 = key with
  | [] => .ok key.default?
  | [(_, some value)] => .ok (some value)
  | [(_, none)] =>
    match key.default? with
    | some value => .ok (some value)
    | none => .error .usage
  | _ => .error .usage

/-- The value of an option that must be given or have a value by default. -/
def value (scanned : Scanned) (key : Key) : Except Stop String := do
  match ← scanned.value? key with
  | some value => return value
  | none => throw .usage

end Scanned

end SplitTally.CommandLine
