import CommentMarkers.Yaml.Token

/-!
# Nodes of documents

A document is one node: a scalar, a sequence or a mapping. A node may have a tag, and an anchor
under which an alias further down stands for the same node.
-/

namespace CommentMarkers.Yaml

/-- A part of a document with its tag. -/
inductive Node where
  | scalar (tag : Option String) (plain : Bool) (text : String)
  | sequence (tag : Option String) (items : List Node)
  | mapping (tag : Option String) (entries : List (Node × Node))
  deriving Repr, Inhabited

/-- The scalar that stands where nothing is written. -/
def Node.empty : Node := .scalar none true ""

/-! ## Reading nodes -/

/-- The tokens that are left and the nodes that have an anchor. An anchor without a node belongs to
a collection that is still open. -/
structure Composition where
  tokens : List Token
  anchors : List (String × Option Node)

namespace Composition

/-- The next token. -/
def peek (state : Composition) : Option Token :=
  state.tokens.head?

/-- Passes the next token. -/
def advance (state : Composition) : Composition :=
  { state with tokens := state.tokens.drop 1 }

/-- Passes a token that must come next. -/
def expect (state : Composition) (token : Token) : Option Composition :=
  if state.peek = some token then some state.advance else none

/-- Gives an anchor its node. -/
def bindAnchor (state : Composition) (anchor : Option String) (node : Option Node) : Composition :=
  match anchor with
  | some name => { state with anchors := (name, node) :: state.anchors }
  | none => state

end Composition

/-- The anchor and the tag of a node. -/
structure Properties where
  anchor : Option String
  tag : Option String

/-- The tags that begin with two exclamation marks stand for the common types of values. -/
def commonTag (suffix : String) : String :=
  "tag:yaml.org,2002:" ++ suffix

/-- The tag that a handle and a suffix name. -/
def resolveTag (handle : Option String) (suffix : String) : Option String :=
  match handle with
  | none => some suffix
  | some "!" => some ("!" ++ suffix)
  | some "!!" => some (commonTag suffix)
  | some _ => none

/-- Reads the anchor and the tag of a node, which stand in either order. -/
def readProperties (state : Composition) : Option (Properties × Composition) :=
  match state.tokens with
  | .anchor name :: .tag handle suffix :: rest | .tag handle suffix :: .anchor name :: rest =>
    (resolveTag handle suffix).map fun tag => (⟨some name, some tag⟩, { state with tokens := rest })
  | .anchor name :: rest => some (⟨some name, none⟩, { state with tokens := rest })
  | .tag handle suffix :: rest =>
    (resolveTag handle suffix).map fun tag => (⟨none, some tag⟩, { state with tokens := rest })
  | _ => some (⟨none, none⟩, state)

/-- Where a node stands, which decides what it may be. -/
inductive Context where
  | flow
  | block
  /-- A sequence here need not be indented. -/
  | blockValue
  deriving DecidableEq, Repr

/-- Holds if one of the tokens comes next, so that a node in front of it is missing. -/
def endsNode (state : Composition) (tokens : List Token) : Bool :=
  state.peek.any tokens.contains

mutual

/-- Reads a node. -/
def readNode (fuel : Nat) (context : Context) (state : Composition) : Option (Node × Composition) :=
  match fuel with
  | 0 => none
  | fuel + 1 =>
    match state.peek with
    | some (.alias name) => do
      let node ← (state.anchors.lookup name).join
      return (node, state.advance)
    | _ => do
      let (properties, ready) ← readProperties state
      if properties.anchor.any fun name => (ready.anchors.lookup name).isSome then none
      else
        let opened := ready.bindAnchor properties.anchor none
        let (node, next) ← readContent fuel context properties opened
        return (node, next.bindAnchor properties.anchor (some node))

/-- Reads a node behind its anchor and tag. -/
def readContent (fuel : Nat) (context : Context) (properties : Properties) (state : Composition) :
    Option (Node × Composition) :=
  match fuel with
  | 0 => none
  | fuel + 1 =>
    let tag := properties.tag
    let sequence (result : List Node × Composition) : Node × Composition :=
      (.sequence tag result.1, result.2)
    let mapping (result : List (Node × Node) × Composition) : Node × Composition :=
      (.mapping tag result.1, result.2)
    match state.peek, context with
    | some .entry, .blockValue => (readLooseItems fuel [] state).map sequence
    | some (.scalar plain text), _ => some (.scalar tag plain text, state.advance)
    | some .flowSequence, _ => (readFlowItems fuel [] state.advance).map sequence
    | some .flowMapping, _ => (readFlowEntries fuel [] state.advance).map mapping
    | some .blockSequence, .block | some .blockSequence, .blockValue =>
      (readBlockItems fuel [] state.advance).map sequence
    | some .blockMapping, .block | some .blockMapping, .blockValue =>
      (readBlockEntries fuel [] state.advance).map mapping
    | _, _ =>
      if properties.anchor.isSome || tag.isSome then
        some (.scalar tag (tag.all (· == "!")) "", state)
      else none

/-- Reads a node, or an empty one if one of the tokens comes next. -/
def readOptional (fuel : Nat) (context : Context) (stops : List Token) (state : Composition) :
    Option (Node × Composition) :=
  match fuel with
  | 0 => none
  | fuel + 1 =>
    if endsNode state stops then some (.empty, state) else readNode fuel context state

/-- Reads the items of a block sequence. -/
def readBlockItems (fuel : Nat) (items : List Node) (state : Composition) :
    Option (List Node × Composition) :=
  match fuel with
  | 0 => none
  | fuel + 1 =>
    match state.peek with
    | some .entry => do
      let (item, next) ← readOptional fuel .block [.entry, .blockStop] state.advance
      readBlockItems fuel (items ++ [item]) next
    | some .blockStop => some (items, state.advance)
    | _ => none

/-- Reads the items of a sequence that is not indented. -/
def readLooseItems (fuel : Nat) (items : List Node) (state : Composition) :
    Option (List Node × Composition) :=
  match fuel with
  | 0 => none
  | fuel + 1 =>
    match state.peek with
    | some .entry => do
      let stops := [.entry, .key, .value, .blockStop]
      let (item, next) ← readOptional fuel .block stops state.advance
      readLooseItems fuel (items ++ [item]) next
    | _ => some (items, state)

/-- Reads the value of an entry, which may be missing. -/
def readEntryValue (fuel : Nat) (context : Context) (stops : List Token) (state : Composition) :
    Option (Node × Composition) :=
  match fuel with
  | 0 => none
  | fuel + 1 =>
    if state.peek = some .value then readOptional fuel context stops state.advance
    else some (.empty, state)

/-- Reads the entries of a block mapping. -/
def readBlockEntries (fuel : Nat) (entries : List (Node × Node)) (state : Composition) :
    Option (List (Node × Node) × Composition) :=
  match fuel with
  | 0 => none
  | fuel + 1 =>
    let stops := [.key, .value, .blockStop]
    match state.peek with
    | some .key => do
      let (key, behind) ← readOptional fuel .blockValue stops state.advance
      let (value, next) ← readEntryValue fuel .blockValue stops behind
      readBlockEntries fuel (entries ++ [(key, value)]) next
    | some .blockStop => some (entries, state.advance)
    | _ => none

/-- Reads the items of a flow sequence. An item with a key is a mapping with one entry. -/
def readFlowItems (fuel : Nat) (items : List Node) (state : Composition) :
    Option (List Node × Composition) :=
  match fuel with
  | 0 => none
  | fuel + 1 =>
    if state.peek = some .flowSequenceStop then some (items, state.advance)
    else do
      let ready ← if items.isEmpty then some state else state.expect .comma
      match ready.peek with
      | some .key =>
        let stops := [.value, .comma, .flowSequenceStop]
        let (key, behind) ← readOptional fuel .flow stops ready.advance
        let (value, next) ← readEntryValue fuel .flow [.comma, .flowSequenceStop] behind
        readFlowItems fuel (items ++ [.mapping none [(key, value)]]) next
      | some .flowSequenceStop => return (items, ready.advance)
      | _ =>
        let (item, next) ← readNode fuel .flow ready
        readFlowItems fuel (items ++ [item]) next

/-- Reads the entries of a flow mapping. A node without a colon is a key without a value. -/
def readFlowEntries (fuel : Nat) (entries : List (Node × Node)) (state : Composition) :
    Option (List (Node × Node) × Composition) :=
  match fuel with
  | 0 => none
  | fuel + 1 =>
    if state.peek = some .flowMappingStop then some (entries, state.advance)
    else do
      let ready ← if entries.isEmpty then some state else state.expect .comma
      let stops := [.value, .comma, .flowMappingStop]
      match ready.peek with
      | some .key =>
        let (key, behind) ← readOptional fuel .flow stops ready.advance
        let (value, next) ← readEntryValue fuel .flow [.comma, .flowMappingStop] behind
        readFlowEntries fuel (entries ++ [(key, value)]) next
      | some .flowMappingStop => return (entries, ready.advance)
      | _ =>
        let (key, next) ← readNode fuel .flow ready
        readFlowEntries fuel (entries ++ [(key, .empty)]) next

end

/-! ## Reading documents -/

/-- Passes directives. At most one of them names a version, which must be the first one. -/
def skipDirectives (versioned : Bool) : List Token → Option (List Token)
  | .version major :: rest => if versioned || major ≠ 1 then none else skipDirectives true rest
  | .otherDirective :: rest => skipDirectives versioned rest
  | rest => some rest

/-- Holds of what stops a document, so that no node begins there. -/
def stopsDocument : Option Token → Bool
  | none | some (.version _) | some .otherDirective | some .documentStart
  | some .documentStop => true
  | some _ => false

/-- Reads the node of a document that begins here. -/
def readRoot (tokens : List Token) : Option (Node × List Token) :=
  (readNode (8 * tokens.length + 8) .block ⟨tokens, []⟩).map fun (node, state) =>
    (node, state.tokens)

/-- Reads the node of a document and what stands in front of it. After directives the start of the
document must be marked, and behind this mark the document may be empty. -/
def readDocument (tokens : List Token) : Option (Node × List Token) :=
  match tokens with
  | [] => some (.empty, [])
  | .version _ :: _ | .otherDirective :: _ | .documentStart :: _ => do
    match ← skipDirectives false tokens with
    | .documentStart :: rest =>
      if stopsDocument rest.head? then return (.empty, rest) else readRoot rest
    | _ => none
  | _ => readRoot tokens

/-- The node of a document. Nothing but marks of its end may follow. -/
def nodeOfTokens (tokens : List Token) : Option Node := do
  let (node, rest) ← readDocument tokens
  if (rest.dropWhile (· == .documentStop)).isEmpty then return node else none

end CommentMarkers.Yaml
