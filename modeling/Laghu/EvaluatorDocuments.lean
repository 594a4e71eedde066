import Laghu.FallibleSteps
import Laghu.JsonTexts

/-!
The evaluator's JSON documents. The parser is a recursive descent over a text in storage; it
records values, members and elements in three tables of a fixed size, so that an entry of an
object or array stands behind the entries of the values in it. A node is its index; a view of
the text is its contents.

An error stands for a parser that returns false, whatever it leaves behind.
-/

namespace Laghu.Evaluator

open FallibleSteps JsonTexts
open BigEndian (Byte)

def maximumDocumentBytes : ℕ := 262144
def maximumJsonNodes : ℕ := 8192
def maximumJsonMembers : ℕ := 1024
def maximumJsonElements : ℕ := 8192

/-- The deepest values that are parsed. -/
def maximumDepth : ℕ := 64

inductive JsonType
  | nullValue
  | boolean
  | number
  | string
  | array
  | object
  deriving DecidableEq

structure JsonNode where
  type : JsonType
  string : Text := []
  raw : Text := []
  number : ℕ := 0
  boolean : Bool := false
  deriving DecidableEq

structure JsonMember where
  parent : ℕ
  key : Text
  value : ℕ
  deriving DecidableEq

structure JsonElement where
  parent : ℕ
  value : ℕ
  deriving DecidableEq

structure JsonTables where
  nodes : List JsonNode := []
  members : List JsonMember := []
  elements : List JsonElement := []
  deriving DecidableEq

/-- `storage` is as long as `size_` says. -/
structure JsonDocument where
  storage : Text := []
  cursor : ℕ := 0
  root : ℕ := 0
  tables : JsonTables := {}
  deriving DecidableEq

namespace JsonTables

def node (d : JsonTables) (index : ℕ) : Option ℕ :=
  if index < d.nodes.length then some index else none

def field (d : JsonTables) (object : Option ℕ) (key : Text) : Option ℕ := do
  let index ← object
  let node ← d.nodes[index]?
  if node.type = .object then
    let member ← d.members.find? fun m => m.parent = index ∧ m.key = key
    d.node member.value
  else none

def element (d : JsonTables) (array : Option ℕ) (ordinal : ℕ) : Option ℕ := do
  let index ← array
  let node ← d.nodes[index]?
  if node.type = .array then
    let element ← (d.elements.filter fun e => e.parent = index)[ordinal]?
    d.node element.value
  else none

def elementCount (d : JsonTables) (array : Option ℕ) : ℕ :=
  match array with
  | none => 0
  | some index =>
    match d.nodes[index]? with
    | none => 0
    | some node =>
      if node.type = .array then (d.elements.filter fun e => e.parent = index).length else 0

end JsonTables

namespace JsonDocument

/-- What is left of the text. -/
def remaining (d : JsonDocument) : Text := d.storage.drop d.cursor

def advance (d : JsonDocument) (count : ℕ) : JsonDocument := { d with cursor := d.cursor + count }

end JsonDocument

abbrev Parser (α : Type) := Action JsonDocument Unit α

namespace Parser

def look : Parser Text := perform fun d => some (d.remaining, d)

def advance (count : ℕ) : Parser Unit := perform fun d => some ((), d.advance count)

def skipSpace : Parser Unit := perform fun d =>
  some ((), d.advance (d.remaining.takeWhile isSpace).length)

/-- How many characters there are before the quote that ends a string. -/
def scanString : Text → Option ℕ
  | [] => none
  | character :: rest =>
    if character = quote then some 0
    else if character < 0x20#8 then none
    else if character = backslash then
      match rest with
      | [] => none
      | escape :: rest =>
        if escape = 0x75#8 then
          match rest with
          | a :: b :: c :: d :: rest =>
            if isHex a && isHex b && isHex c && isHex d then (scanString rest).map (· + 6) else none
          | _ => none
        else if isEscape escape then (scanString rest).map (· + 2)
        else none
    else (scanString rest).map (· + 1)

def parseString : Parser Text := do
  let rest ← look
  check (rest.head? = some quote) ()
  match scanString rest.tail with
  | none => throw ()
  | some count =>
    advance (count + 2)
    pure (rest.tail.take count)

/-- `std::from_chars` takes the digits, or finds them out of range. -/
def parseNumber : Parser ℕ := do
  let rest ← look
  let digits := rest.takeWhile isDigit
  check (digits ≠ []) ()
  check (digits.head? = some zero → digits.length = 1) ()
  check (decimalValue digits < 2 ^ 64) ()
  advance digits.length
  pure (decimalValue digits)

def getTables : Parser JsonTables := perform fun d => some (d.tables, d)

def setTables (tables : JsonTables) : Parser Unit := perform fun d =>
  some ((), { d with tables := tables })

def appendNode (type : JsonType) : Parser ℕ := do
  let tables ← getTables
  check (tables.nodes.length ≠ maximumJsonNodes) ()
  setTables { tables with nodes := tables.nodes ++ [{ type := type }] }
  pure tables.nodes.length

def setNode (index : ℕ) (change : JsonNode → JsonNode) : Parser Unit := do
  let tables ← getTables
  setTables { tables with nodes := tables.nodes.modify index change }

def appendMember (member : JsonMember) : Parser Unit := do
  let tables ← getTables
  check (tables.members.length ≠ maximumJsonMembers) ()
  setTables { tables with members := tables.members ++ [member] }

def appendElement (element : JsonElement) : Parser Unit := do
  let tables ← getTables
  check (tables.elements.length ≠ maximumJsonElements) ()
  setTables { tables with elements := tables.elements ++ [element] }

/-- The loop of `parse_object` and of `parse_array`, at most `fuel` times. -/
def parseChildren (close : Byte) (child : Parser Unit) : ℕ → Parser Unit
  | 0 => fun _ => none
  | fuel + 1 => do
    let rest ← look
    check (rest ≠ []) ()
    child
    skipSpace
    let rest ← look
    if rest.head? = some close then advance 1
    else do
      check (rest.head? = some comma) ()
      advance 1
      skipSpace
      parseChildren close child fuel

def parseSequence (close : Byte) (child : Parser Unit) : Parser Unit := do
  advance 1
  skipSpace
  let rest ← look
  if rest.head? = some close then advance 1
  else parseChildren close child (rest.length + 1)

/-- The colon of a member, and the blanks around it. -/
def parseColon : Parser Unit := do
  skipSpace
  let rest ← look
  check (rest.head? = some colon) ()
  advance 1
  skipSpace

def parseMember (value : Parser ℕ) (parent : ℕ) : Parser Unit := do
  let key ← parseString
  let tables ← getTables
  check (¬ ∃ member ∈ tables.members, member.parent = parent ∧ member.key = key) ()
  parseColon
  let output ← value
  appendMember ⟨parent, key, output⟩

def parseElement (value : Parser ℕ) (parent : ℕ) : Parser Unit := do
  let output ← value
  appendElement ⟨parent, output⟩

def parseObject (value : Parser ℕ) (parent : ℕ) : Parser Unit :=
  parseSequence closeBrace (parseMember value parent)

def parseArray (value : Parser ℕ) (parent : ℕ) : Parser Unit :=
  parseSequence closeBracket (parseElement value parent)

/-- The branches of `parse_value`, by the text that is left. -/
def parseToken (value : Parser ℕ) (rest : Text) : Parser ℕ :=
  if rest.head? = some quote then do
    let output ← appendNode .string
    let body ← parseString
    setNode output fun n => { n with string := body }
    pure output
  else if rest.head? = some openBrace then do
    let output ← appendNode .object
    parseObject value output
    pure output
  else if rest.head? = some openBracket then do
    let output ← appendNode .array
    parseArray value output
    pure output
  else if rest.take 4 = ascii "true" then do
    let output ← appendNode .boolean
    setNode output fun n => { n with boolean := true }
    advance 4
    pure output
  else if rest.take 5 = ascii "false" then do
    let output ← appendNode .boolean
    advance 5
    pure output
  else if rest.take 4 = ascii "null" then do
    let output ← appendNode .nullValue
    advance 4
    pure output
  else do
    let output ← appendNode .number
    let number ← parseNumber
    setNode output fun n => { n with number := number }
    pure output

/-- `levels` is how many more levels of values may be entered, this one among them: the depth
is `maximumDepth + 1 - levels`. -/
def parseValue : ℕ → Parser ℕ
  | 0 => throw ()
  | levels + 1 => do
    skipSpace
    let rest ← look
    check (rest ≠ []) ()
    let output ← parseToken (parseValue levels) rest
    let after ← look
    setNode output fun n => { n with raw := rest.take (rest.length - after.length) }
    pure output

def parseDocument : Parser Unit := do
  let root ← parseValue (maximumDepth + 1)
  perform fun d => some ((), { d with root := root })
  skipSpace
  let rest ← look
  check (rest = []) ()

end Parser

/-- The contents of a file that can be read and is not too long. -/
def readFile (file : Option Text) : Option Text :=
  file.filter fun bytes => bytes.length ≤ maximumDocumentBytes

/-- `none` is a parser that does not come to an end. -/
def JsonDocument.load (file : Option Text) : Option (Except Unit JsonDocument) :=
  match readFile file with
  | none => some (.error ())
  | some bytes =>
    if bytes = [] then some (.error ())
    else
      match Parser.parseDocument { storage := bytes } with
      | none => none
      | some (.error (), _) => some (.error ())
      | some (.ok (), d) => some (.ok d)

end Laghu.Evaluator
