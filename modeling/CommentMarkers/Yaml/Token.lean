import CommentMarkers.Yaml.Scalar

/-!
# Tokens of documents

A document is a sequence of tokens. Indentation shows as tokens too: a block collection starts where
a line is indented more than the collection around it, and stops where a line is indented less.

A key of a mapping is recognised late, by the colon behind it. Until then its first token is kept as
a candidate, and the key token is put in front of it afterwards. A candidate must stand on one line
and within 1024 characters of its colon.

Main results:

- Theorem `Reading.leave_spec`: the block collections that stop at a column are those that are
  indented deeper.
-/

namespace CommentMarkers.Yaml

/-- The parts of a document. -/
inductive Token where
  | version (major : Nat)
  | otherDirective
  | documentStart
  | documentStop
  | blockSequence
  | blockMapping
  | blockStop
  | flowSequence
  | flowSequenceStop
  | flowMapping
  | flowMappingStop
  | entry
  | comma
  | key
  | value
  | alias (name : String)
  | anchor (name : String)
  | tag (handle : Option String) (suffix : String)
  | scalar (plain : Bool) (text : String)
  deriving DecidableEq, Repr

/-! ## The state of reading -/

/-- A token that may turn out to begin a key. -/
structure Candidate where
  /-- The number of tokens in front of it. -/
  position : Nat
  /-- Whether the indentation leaves no other choice. -/
  required : Bool
  index : Nat
  line : Nat
  column : Nat

/-- What has been read of a document. -/
structure Reading where
  cursor : Cursor
  tokens : Array Token
  /-- The number of flow collections that are open. -/
  flow : Nat
  /-- The indentation of the current block collection. -/
  indent : Int
  /-- The indentations of the block collections around it. -/
  outer : List Int
  /-- Whether a key may begin here. -/
  allowKey : Bool
  /-- The candidates for keys, by the number of open flow collections. -/
  candidates : List (Nat × Candidate)

namespace Reading

/-- Nothing has been read. -/
def start (text : List Char) : Reading where
  cursor := .start text
  tokens := #[]
  flow := 0
  indent := -1
  outer := []
  allowKey := true
  candidates := []

/-- Adds a token at the end. -/
def emit (reading : Reading) (token : Token) : Reading :=
  { reading with tokens := reading.tokens.push token }

/-- Adds tokens behind the first `position` ones. -/
def insertAt (reading : Reading) (position : Nat) (added : List Token) : Reading :=
  { reading with
    tokens := reading.tokens.extract 0 position ++ added.toArray
      ++ reading.tokens.extract position reading.tokens.size }

/-- Moves on. -/
def moveTo (reading : Reading) (cursor : Cursor) : Reading :=
  { reading with cursor }

/-! ## Indentation -/

/-- Leaves indentations that are deeper than a column, and counts them. -/
def leave (column : Int) (indent : Int) : List Int → Nat × Int × List Int
  | [] => (0, indent, [])
  | next :: outer =>
    if column < indent then
      let (count, indent, outer) := leave column next outer
      (count + 1, indent, outer)
    else (0, indent, next :: outer)

/-- Leaving takes the deeper indentations off, the innermost one first, and stops at one that is not
deeper or at the outermost one. -/
theorem leave_spec (column indent : Int) (outer : List Int) :
    let left := leave column indent outer
    left.2.1 :: left.2.2 = (indent :: outer).drop left.1 ∧
      (∀ deeper ∈ (indent :: outer).take left.1, column < deeper) ∧
      (left.2.2 = [] ∨ left.2.1 ≤ column) := by
  induction outer generalizing indent with
  | nil => simp [leave]
  | cons next rest ih =>
    unfold leave
    split
    · next hdeeper =>
      obtain ⟨hsame, hall, hstops⟩ := ih next
      exact ⟨hsame, List.forall_mem_cons.2 ⟨hdeeper, hall⟩, hstops⟩
    · next hkept => exact ⟨rfl, by simp, Or.inr (Int.not_lt.1 hkept)⟩

/-- Stops the block collections that are indented deeper than a column. -/
def unwind (reading : Reading) (column : Int) : Reading :=
  if 0 < reading.flow then reading
  else
    let (count, indent, outer) := leave column reading.indent reading.outer
    { reading with
      indent
      outer
      tokens := reading.tokens ++ Array.replicate count .blockStop }

/-- Starts a block collection at a column, unless one is open there. -/
def indentTo (reading : Reading) (column : Nat) : Option Reading :=
  if reading.indent < column then
    some { reading with indent := column, outer := reading.indent :: reading.outer }
  else none

/-- Starts a block collection with the token `token` at the current column, if a deeper one. -/
def openBlock (reading : Reading) (token : Token) : Reading :=
  match reading.indentTo reading.cursor.column with
  | some deeper => deeper.emit token
  | none => reading

/-! ## Candidates for keys -/

/-- Drops the candidate of the current collection. A required one must not be dropped. -/
def dropCandidate (reading : Reading) : Option Reading :=
  match reading.candidates.lookup reading.flow with
  | some candidate =>
    if candidate.required then none
    else
      some { reading with
        candidates := reading.candidates.filter fun (level, _) => level != reading.flow }
  | none => some reading

/-- Drops the candidates that are too far away. -/
def dropStale (reading : Reading) : Option Reading :=
  let isStale (candidate : Candidate) : Bool :=
    candidate.line != reading.cursor.line || 1024 < reading.cursor.index - candidate.index
  if reading.candidates.any fun (_, candidate) => isStale candidate && candidate.required then none
  else
    some { reading with
      candidates := reading.candidates.filter fun (_, candidate) => !isStale candidate }

/-- Remembers that a key may begin with the next token. -/
def saveCandidate (reading : Reading) : Option Reading :=
  if reading.allowKey then do
    let cleared ← reading.dropCandidate
    let cursor := reading.cursor
    let candidate : Candidate := {
      position := reading.tokens.size
      required := reading.flow == 0 && reading.indent == cursor.column
      index := cursor.index
      line := cursor.line
      column := cursor.column }
    return { cleared with candidates := (reading.flow, candidate) :: cleared.candidates }
  else some reading

/-! ## Tokens -/

/-- Passes blanks, comments and line ends. A key may begin on a new line of a block. -/
def skipBlanks (fuel : Nat) (reading : Reading) : Reading :=
  match fuel with
  | 0 => reading
  | fuel + 1 =>
    let spaced := reading.cursor.skipWhile (· == ' ')
    let stop := if spaced.peek = some '#' then spaced.skipLine else spaced
    match stop.lineBreak? with
    | some (_, next) =>
      skipBlanks fuel
        { reading with cursor := next, allowKey := reading.allowKey || reading.flow == 0 }
    | none => reading.moveTo stop

/-- Reads a mark that starts or stops a document, or another token that leaves all blocks. -/
def leaveBlocks (reading : Reading) : Option Reading := do
  let cleared ← (reading.unwind (-1)).dropCandidate
  return { cleared with allowKey := false }

/-- The characters of directive, anchor and alias names. -/
def isNameChar (char : Char) : Bool :=
  char.isAlphanum || char == '-' || char == '_'

/-- Reads the rest of a directive's line. -/
def endDirective (reading : Reading) (cursor : Cursor) (token : Token) : Option Reading :=
  let spaced := cursor.skipWhile (· == ' ')
  let stop := if spaced.peek = some '#' then spaced.skipLine else spaced
  if endsLine stop.peek then some ((reading.emit token).moveTo stop) else none

/-- Reads a directive. -/
def directive (reading : Reading) : Option Reading := do
  let ready ← reading.leaveBlocks
  let (name, behind) := ready.cursor.advance.takeWhile isNameChar
  if name.isEmpty || !(behind.peek = some ' ' || endsLine behind.peek) then none
  else if name = "YAML".toList then
    let (major, point) := (behind.skipWhile (· == ' ')).takeWhile Char.isDigit
    let (minor, stop) := point.advance.takeWhile Char.isDigit
    if major.isEmpty || point.peek ≠ some '.' || minor.isEmpty then none
    else ready.endDirective stop (.version ((String.ofList major).toNat?.getD 0))
  else if name = "TAG".toList then none
  else ready.endDirective behind.skipLine .otherDirective

/-- Reads a mark that starts or stops a document. -/
def documentMark (reading : Reading) (token : Token) : Option Reading := do
  let ready ← reading.leaveBlocks
  return (ready.emit token).moveTo (ready.cursor.advanceBy 3)

/-- Reads the character that opens a flow collection. -/
def openFlow (reading : Reading) (token : Token) : Option Reading := do
  let saved ← reading.saveCandidate
  return { (saved.emit token).moveTo saved.cursor.advance with
    flow := saved.flow + 1, allowKey := true }

/-- Reads the character that closes a flow collection. -/
def closeFlow (reading : Reading) (token : Token) : Option Reading := do
  let cleared ← reading.dropCandidate
  if cleared.flow = 0 then none
  else
    return { (cleared.emit token).moveTo cleared.cursor.advance with
      flow := cleared.flow - 1, allowKey := false }

/-- Reads the comma between the items of a flow collection. -/
def comma (reading : Reading) : Option Reading := do
  let cleared ← reading.dropCandidate
  return { (cleared.emit .comma).moveTo cleared.cursor.advance with allowKey := true }

/-- Reads the dash in front of an item of a block sequence. -/
def blockEntry (reading : Reading) : Option Reading := do
  if reading.flow = 0 && !reading.allowKey then none
  else
    let opened := if reading.flow = 0 then reading.openBlock .blockSequence else reading
    let cleared ← { opened with allowKey := true }.dropCandidate
    return (cleared.emit .entry).moveTo cleared.cursor.advance

/-- Reads the question mark in front of a key. -/
def explicitKey (reading : Reading) : Option Reading := do
  if reading.flow = 0 && !reading.allowKey then none
  else
    let opened := if reading.flow = 0 then reading.openBlock .blockMapping else reading
    let cleared ← { opened with allowKey := opened.flow == 0 }.dropCandidate
    return (cleared.emit .key).moveTo cleared.cursor.advance

/-- Makes a candidate in front of a colon a key. -/
def keyFromCandidate (reading : Reading) (candidate : Candidate) : Reading :=
  let rest := reading.candidates.filter fun (level, _) => level != reading.flow
  let cleared := { reading with candidates := rest, allowKey := false }
  let opened := if reading.flow = 0 then cleared.indentTo candidate.column else none
  match opened with
  | some deeper => deeper.insertAt candidate.position [.blockMapping, .key]
  | none => cleared.insertAt candidate.position [.key]

/-- Prepares for a colon without a key in front of it. -/
def missingKey (reading : Reading) : Option Reading :=
  if 0 < reading.flow then { reading with allowKey := false }.dropCandidate
  else if reading.allowKey then (reading.openBlock .blockMapping).dropCandidate
  else none

/-- Reads the colon in front of a value. -/
def mappingValue (reading : Reading) : Option Reading := do
  let ready ←
    match reading.candidates.lookup reading.flow with
    | some candidate => some (reading.keyFromCandidate candidate)
    | none => reading.missingKey
  return (ready.emit .value).moveTo ready.cursor.advance

/-- What may stand behind the name of an anchor or alias. -/
def endsName (char : Option Char) : Bool :=
  isGap char || char.any fun char => "?:,]%@`".toList.contains char || char == '}'

/-- Reads the name of an anchor or alias behind its indicator. -/
def anchorName (reading : Reading) (token : String → Token) : Option Reading := do
  let saved ← reading.saveCandidate
  let (name, behind) := saved.cursor.advance.takeWhile isNameChar
  if name.isEmpty || !endsName behind.peek then none
  else
    let named := saved.emit (token (String.ofList name))
    return { named.moveTo behind with allowKey := false }

/-- The characters of tags. -/
def isTagChar (char : Char) : Bool :=
  char.isAlphanum || "-;/?:@&=+$,_.!~*'()[]".toList.contains char

/-- Reads a tag. -/
def tag (reading : Reading) : Option Reading := do
  let saved ← reading.saveCandidate
  let finish (handle : Option String) (suffix : List Char) (stop : Cursor) : Option Reading :=
    if stop.peek = some ' ' || endsLine stop.peek then
      some { (saved.emit (.tag handle (String.ofList suffix))).moveTo stop with allowKey := false }
    else none
  let cursor := saved.cursor
  if cursor.peekAt 1 = some '<' then
    let (suffix, stop) := (cursor.advanceBy 2).takeWhile isTagChar
    if suffix.isEmpty || stop.peek ≠ some '>' then none else finish none suffix stop.advance
  else if isGap (cursor.peekAt 1) then finish none ['!'] cursor.advance
  else
    let word := (cursor.rest.drop 1).takeWhile fun char => char == tab || !isGap (some char)
    if word.contains '!' then
      let name := word.takeWhile isNameChar
      if word[name.length]? ≠ some '!' then none
      else
        let (suffix, stop) := (cursor.advanceBy (name.length + 2)).takeWhile isTagChar
        if suffix.isEmpty then none
        else finish (some (String.ofList ('!' :: name ++ ['!']))) suffix stop
    else
      let (suffix, stop) := cursor.advance.takeWhile isTagChar
      if suffix.isEmpty then none else finish (some "!") suffix stop

/-- Reads a block scalar. -/
def blockScalar (reading : Reading) (folded : Bool) : Option Reading := do
  let cleared ← { reading with allowKey := true }.dropCandidate
  let (text, next) ← readBlock folded cleared.indent cleared.cursor.advance
  return (cleared.emit (.scalar false (String.ofList text))).moveTo next

/-- Reads a quoted scalar. -/
def quotedScalar (reading : Reading) (mark : Char) : Option Reading := do
  let saved ← reading.saveCandidate
  let (text, next) ← readQuoted mark saved.cursor
  return { (saved.emit (.scalar false (String.ofList text))).moveTo next with allowKey := false }

/-- Holds where a plain scalar may begin. -/
def startsPlain (flow : Bool) (cursor : Cursor) : Bool :=
  match cursor.peek with
  | none => false
  | some char =>
    let isIndicator := "-?:,[]#&*!|>'\"%@`".toList.contains char || isFlowIndicator char
    (!isGap (some char) && !isIndicator)
      || (!isGap (cursor.peekAt 1) && (char == '-' || (!flow && (char == '?' || char == ':'))))

/-- Reads a plain scalar. -/
def plainScalar (reading : Reading) : Option Reading := do
  let saved ← reading.saveCandidate
  let (text, next, broken) := readPlain (0 < saved.flow) (saved.indent + 1) saved.cursor
  return { (saved.emit (.scalar true (String.ofList text))).moveTo next with allowKey := broken }

/-- Reads the next token. -/
def token (reading : Reading) (char : Char) : Option Reading :=
  let cursor := reading.cursor
  let flow := 0 < reading.flow
  let gapFollows := isGap (cursor.peekAt 1)
  if char = '%' && cursor.column = 0 then reading.directive
  else if cursor.column = 0 && cursor.isMark '-' then reading.documentMark .documentStart
  else if cursor.column = 0 && cursor.isMark '.' then reading.documentMark .documentStop
  else if char = '[' then reading.openFlow .flowSequence
  else if char = '{' then reading.openFlow .flowMapping
  else if char = ']' then reading.closeFlow .flowSequenceStop
  else if char = '}' then reading.closeFlow .flowMappingStop
  else if char = ',' then reading.comma
  else if char = '-' && gapFollows then reading.blockEntry
  else if char = '?' && (flow || gapFollows) then reading.explicitKey
  else if char = ':' && (flow || gapFollows) then reading.mappingValue
  else if char = '*' then reading.anchorName .alias
  else if char = '&' then reading.anchorName .anchor
  else if char = '!' then reading.tag
  else if char = '|' && !flow then reading.blockScalar false
  else if char = '>' && !flow then reading.blockScalar true
  else if char = singleMark || char = doubleMark then reading.quotedScalar char
  else if startsPlain flow cursor then reading.plainScalar
  else none

/-- Reads the remaining tokens. -/
def finish (fuel : Nat) (reading : Reading) : Option (Array Token) :=
  match fuel with
  | 0 => none
  | fuel + 1 => do
    let skipped := reading.skipBlanks (reading.cursor.rest.length + 1)
    let fresh ← skipped.dropStale
    let ready := fresh.unwind fresh.cursor.column
    match ready.cursor.peek with
    | none =>
      let stopped ← (ready.unwind (-1)).dropCandidate
      return stopped.tokens
    | some char =>
      let next ← ready.token char
      next.finish fuel

end Reading

/-- The tokens of a document, if it has a reading. -/
def tokens (text : List Char) : Option (List Token) :=
  let body := if text.head? = some byteOrderMark then text.drop 1 else text
  ((Reading.start body).finish (body.length + 1)).map (·.toList)

end CommentMarkers.Yaml
