import SplitTally.Client
import SplitTally.CommandLine.Invocation
import SplitTally.Schema.Text
import SplitTally.Text.Blank
import SplitTally.Teller

/-!
# Running an invocation

A run reads files and standard input, draws random bytes, and ends with a text to be written or with
a chain of messages, each of which is explained by the next one. All that is read is read before the
first random byte is drawn, and in this order: the schema, the key files, the packet.
-/

namespace SplitTally.CommandLine

/-- Why a text cannot be read. -/
inductive ReadFault where
  /-- The file cannot be opened, for this reason. -/
  | notOpened (reason : String)
  /-- What was opened cannot be read to its end, for this reason. -/
  | notRead (reason : String)
  deriving DecidableEq, Repr

/-- The reason in a fault. -/
def ReadFault.reason : ReadFault → String
  | .notOpened reason | .notRead reason => reason

/-- The fault of bytes that spell no text. -/
def ReadFault.notText : ReadFault := .notRead "stream did not contain valid UTF-8"

/-- The text that bytes spell in UTF-8. -/
def textOfBytes (bytes : List UInt8) : Except ReadFault String :=
  match String.fromUTF8? bytes.toByteArray with
  | some text => .ok text
  | none => .error .notText

/-- Why a run failed. -/
structure Failure where
  /-- The messages, the outermost first. -/
  chain : List String
  deriving DecidableEq, Repr

namespace Failure

/-- The messages of an envelope error. -/
def ofEnvelope (e : EnvelopeError) : List String := e.message :: e.cause?.toList

/-- The messages of a wire error. -/
def ofWire (e : WireError) : List String := e.message :: e.cause?.toList

/-- The messages of a client's error. -/
def ofClient (e : ClientError) : List String :=
  e.message :: match e with
    | .wire cause => ofWire cause
    | _ => []

/-- The messages of a verifier's error. -/
def ofVerify (e : VerifyError) : List String :=
  e.message :: match e with
    | .envelope cause => ofEnvelope cause
    | .wire cause => ofWire cause
    | _ => []

/-- The messages of a schema that cannot be read. Where JSON went wrong is not told. -/
def ofSchemaText : SchemaTextError → List String
  | .json _ => []
  | .schema cause => [cause.message]

/-- The failure of an input that cannot be read. -/
def ofInput : ReadFault → Failure
  | .notOpened reason => ⟨["failed to open input path", reason]⟩
  | .notRead reason => ⟨["failed to read to end of input", reason]⟩

/-- The failure of an output that cannot be opened. -/
def ofOutput (reason : String) : Failure := ⟨["failed to open output path", reason]⟩

end Failure

/-- A result with a message about its failure. -/
def orFail {ε α : Type} (message : String) (messages : ε → List String) (r : Except ε α) :
    Except Failure α :=
  r.mapError fun e => ⟨message :: messages e⟩

/-- A computation with a message about its failure. -/
def drawOrFail {ε α : Type} (message : String) (messages : ε → List String) (x : Draw ε α) :
    Draw Failure α :=
  x.mapError fun e => ⟨message :: messages e⟩

/-- The bytes of a batch. -/
def batchBytes (batch : String) : List UInt8 := batch.toUTF8.toList

/-- The text of a packet: both envelopes in hexadecimal digits, with a dollar sign between them. -/
def packetText (packet : Packet) : String :=
  Hex.encode .lower packet.a ++ "$" ++ Hex.encode .lower packet.b

/-- The envelopes in the text of a packet, which may have blanks around it. -/
def readPacket (text : String) : Except Failure (List UInt8 × List UInt8) := do
  match Cut.textAtMark? '$' (Blank.trim text) with
  | none => throw ⟨["packet must be two hex strings separated by '$'"]⟩
  | some (a, b) =>
    let a ← orFail "could not decode share for A" (fun e => [e.message]) (Hex.decode a)
    let b ← orFail "could not decode share for B" (fun e => [e.message]) (Hex.decode b)
    return (a, b)

/-- Turns measurements into a packet for the keys with the given hexadecimal texts. Of several
values of one name the last one counts. -/
def encodePacket (schema : Schema) (batch keyA keyB : String)
    (measurements : List (String × UInt64)) : Draw Failure Packet := do
  let keyA ← Draw.ofExcept
    (orFail "bad public key for A" Failure.ofEnvelope (PublicKey.ofHex keyA))
  let keyB ← Draw.ofExcept
    (orFail "bad public key for B" Failure.ofEnvelope (PublicKey.ofHex keyB))
  let client ← Draw.ofExcept
    (orFail "could not create client" Failure.ofClient (Client.new schema keyA keyB))
  drawOrFail "could not encode measurements" Failure.ofClient
    (client.encode (batchBytes batch) (.ofList measurements))

/-- Plays both servers on a single packet and returns the measurements in it. The first server
draws the point at which the proof is checked. -/
def openPacket (schema : Schema) (batch : String) (keyA keyB : PrivateKey)
    (a b : List UInt8) : Draw Failure Measurements := do
  let serverA := Teller.start schema.dimension .a keyA (batchBytes batch)
  let serverB := Teller.start schema.dimension .b keyB (batchBytes batch)
  let bundleA ← Draw.ofExcept
    (orFail "failed to decrypt share for A" Failure.ofVerify (serverA.verifier.decrypt a))
  let bundleB ← Draw.ofExcept
    (orFail "failed to decrypt share for B" Failure.ofVerify (serverB.verifier.decrypt b))
  let point ← drawOrFail "could not choose evaluation point" Failure.ofVerify serverA.choosePoint
  let (messageA, serverA) := serverA.message point bundleA
  let messageA ← Draw.ofExcept (orFail "failed to verify share for A" Failure.ofVerify messageA)
  let (messageB, serverB) := serverB.message point bundleB
  let messageB ← Draw.ofExcept (orFail "failed to verify share for B" Failure.ofVerify messageB)
  let (acceptedA, serverA) := serverA.aggregate bundleA messageA messageB
  let acceptedA ← Draw.ofExcept (orFail "failed to verify input" Failure.ofVerify acceptedA)
  unless acceptedA do throw ⟨["server A share proof validation failed"]⟩
  let (acceptedB, serverB) := serverB.aggregate bundleB messageA messageB
  let acceptedB ← Draw.ofExcept (orFail "failed to verify input" Failure.ofVerify acceptedB)
  unless acceptedB do throw ⟨["server B share proof validation failed"]⟩
  let sums ← Draw.ofExcept
    (orFail "failed to reconstruct input shares" Failure.ofVerify
      (reconstructTotals serverA.verifier.total serverB.verifier.total))
  let totals ← Draw.ofExcept
    (orFail "failed to decode measurements" (fun e => [e.message]) (schema.decodeSums sums))
  return .ofList totals

/-- The text of measurements, a JSON object in the order of the names. -/
def measurementsText (measurements : Measurements) : String :=
  String.ofList (Json.writeLines
    (measurements.entries.map fun (name, value) => (name, Json.writeNat value.toNat)))

/-- A command with all that it works on. -/
inductive Job where
  /-- Generates a key pair. -/
  | keygen (output : Place)
  /-- Turns measurements into a packet, for keys with hexadecimal texts. -/
  | encode (schema : Schema) (batch keyA keyB : String) (measurements : List (String × UInt64))
    (output : Place)
  /-- Opens and verifies the packet in a text. -/
  | decrypt (schema : Schema) (batch : String) (keyA keyB : PrivateKey) (text : String)

section Prepare

variable {m : Type → Type} [Monad m]

/-- The text in a file, or a failure with a message. -/
def readText (read : Place → m (Except ReadFault String)) (message path : String) :
    ExceptT Failure m String := do
  liftExcept (orFail message (fun e => [e.reason]) (← read (.file path)))

/-- The schema to use. -/
def readSchema (read : Place → m (Except ReadFault String)) :
    Option String → ExceptT Failure m Schema
  | none => return .browser
  | some path => do
    let text ← readText read "could not read schema file" path
    liftExcept (orFail "could not parse schema" Failure.ofSchemaText (Schema.ofJson text))

/-- The private key in a file, with blanks around it. -/
def readPrivateKey (read : Place → m (Except ReadFault String)) (path : String) :
    ExceptT Failure m PrivateKey := do
  let text ← readText read "could not read private key from file" path
  liftExcept (orFail "could not decode base64 private key" Failure.ofEnvelope
    (PrivateKey.ofBase64 (Blank.trim text)))

/-- The text at the place of the input. -/
def readInput (read : Place → m (Except ReadFault String)) (input : Place) :
    ExceptT Failure m String := do
  liftExcept ((← read input).mapError Failure.ofInput)

/-- Reads what a command under a schema works on. -/
def Command.prepare (read : Place → m (Except ReadFault String)) (schema : Schema) :
    Command → ExceptT Failure m Job
  | .keygen output => return .keygen output
  | .encode batch keyA keyB measurements output =>
    return .encode schema batch keyA keyB measurements output
  | .decrypt batch keyPathA keyPathB input => do
    let keyA ← readPrivateKey read keyPathA
    let keyB ← readPrivateKey read keyPathB
    return .decrypt schema batch keyA keyB (← readInput read input)

/-- Reads what an invocation works on, one place after the other. What can be read at a place may
depend on what has been read before. -/
def Invocation.prepare (read : Place → m (Except ReadFault String)) (invocation : Invocation) :
    ExceptT Failure m Job := do
  let schema ← readSchema read invocation.schema
  invocation.command.prepare read schema

end Prepare

/-- What a successful run writes. -/
structure Report where
  /-- Where the text goes. -/
  output : Place
  /-- The text. -/
  text : String
  /-- What goes to standard error once the text is written. -/
  note : String
  /-- The message if the text cannot be written to its place. -/
  unwritten : String
  deriving DecidableEq, Repr

/-- Runs a job. -/
def Job.run : Job → Draw Failure Report
  | .keygen output => do
    let key ← drawOrFail "could not generate key" Failure.ofEnvelope PrivateKey.generate
    return { output, text := key.toBase64 ++ "\n", note := key.toPublic.toHex ++ "\n",
             unwritten := "could not write private key" }
  | .encode schema batch keyA keyB measurements output => do
    let packet ← encodePacket schema batch keyA keyB measurements
    return { output, text := packetText packet ++ "\n", note := "",
             unwritten := "could not write packet" }
  | .decrypt schema batch keyA keyB text => do
    let (a, b) ← Draw.ofExcept (readPacket text)
    let measurements ← openPacket schema batch keyA keyB a b
    return { output := .standard, text := measurementsText measurements ++ "\n", note := "",
             unwritten := "could not write measurements" }

end SplitTally.CommandLine
