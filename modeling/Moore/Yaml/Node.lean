import Moore.Yaml.Token

/-
# YAML nodes

The tree that the tokens of a text describe.  A node with an anchor can be referred to by an
alias, also from inside itself, so aliases are kept as references into a table.
-/

namespace Moore.Yaml

/-- The number of an anchored node. -/
abbrev AnchorId := Nat

inductive Node where
  | scalar (tag : Option String) (style : Style) (text : String)
  | sequence (tag : Option String) (items : List Node)
  | mapping (tag : Option String) (entries : List (Node × Node))
  | alias (target : AnchorId)
  deriving Inhabited

/-- An empty plain scalar, which stands where nothing is written. -/
def Node.empty : Node := .scalar none .plain ""

/-- The nodes with an anchor, by their numbers. -/
abbrev Anchors := List (AnchorId × Node)

/-- A text with one document at most. -/
structure Tree where
  /-- The document, unless the text has none. -/
  root : Option Node
  anchors : Anchors := []
  deriving Inhabited

namespace Node

/-- The state of reading nodes from tokens. -/
structure Reading where
  tokens : List Token
  /-- What the tag handles stand for. -/
  handles : List (String × String)
  /-- The anchors so far by name, the last first. -/
  names : List (String × AnchorId) := []
  anchors : Anchors := []

namespace Reading

def drop (r : Reading) : Reading :=
  { r with tokens := r.tokens.drop 1 }

def next? (r : Reading) : Option Token :=
  r.tokens.head?

end Reading

/-- What may stand before a node. -/
structure Properties where
  anchor : Option String := none
  tag : Option String := none

/-- The tag that a handle and a suffix stand for. -/
def resolveTag (r : Reading) (handle suffix : String) : Option String :=
  if handle.isEmpty then some suffix else (r.handles.lookup handle).map (· ++ suffix)

/-- Reads an anchor and a tag, each at most once, in either order. -/
def readProperties (r : Reading) : Option (Properties × Reading) :=
  match r.tokens with
  | .anchor a :: .tag h s :: rest | .tag h s :: .anchor a :: rest => do
    return ({ anchor := some a, tag := some (← resolveTag r h s) }, { r with tokens := rest })
  | .anchor a :: rest => some ({ anchor := some a }, { r with tokens := rest })
  | .tag h s :: rest => do
    return ({ tag := some (← resolveTag r h s) }, { r with tokens := rest })
  | _ => some ({}, r)

/-- The number of the next anchored node. -/
def Reading.nextAnchor (r : Reading) : AnchorId :=
  r.names.length

/-- Gives the node that is about to be read its name. -/
def Reading.declare (r : Reading) : Option String → Reading
  | some name => { r with names := (name, r.nextAnchor) :: r.names }
  | none => r

/-- Puts a finished node into the table under the number it was declared with. -/
def Reading.keep (r : Reading) (anchor : Option String) (id : AnchorId) (node : Node) : Reading :=
  if anchor.isSome then { r with anchors := (id, node) :: r.anchors } else r

/-- Whether a token starts no entry of its own, so that the entry before it is empty. -/
def endsBlockItem : Option Token → Bool
  | some .blockEntry | some .key | some .value | some .blockEnd => true
  | _ => false

/-- Whether an entry between brackets is over. -/
def endsFlowItem (closing : Token) : Option Token → Bool
  | some .flowEntry => true
  | some t => t = closing
  | none => false

mutual

/-- Reads a node.  Block collections are allowed if `inBlock`, and a sequence that is not
indented if `unindented`. -/
def read (inBlock unindented : Bool) : (bound : Nat) → Reading → Option (Node × Reading)
  | 0, _ => none
  | bound + 1, r =>
    match r.tokens with
    | .alias name :: rest => do
      return (.alias (← r.names.lookup name), { r with tokens := rest })
    | _ => do
      let (p, r) ← readProperties r
      let id := r.nextAnchor
      let r := r.declare p.anchor
      let (node, r) ←
        match r.next? with
        | some (.scalar style text) =>
          let tag := if p.tag = some "!" then none else p.tag
          some (Node.scalar tag style text, r.drop)
        | some .flowSequence => do
          let (items, r) ← readFlowItems bound true r.drop
          pure (Node.sequence p.tag items, r)
        | some .flowMapping => do
          let (entries, r) ← readFlowEntries bound true r.drop
          pure (Node.mapping p.tag entries, r)
        | some .blockEntry =>
          if unindented then do
            let (items, r) ← readItems false bound r
            pure (Node.sequence p.tag items, r)
          else readNothing p r
        | some .blockSequence =>
          if inBlock then do
            let (items, r) ← readItems true bound r.drop
            pure (Node.sequence p.tag items, r)
          else readNothing p r
        | some .blockMapping =>
          if inBlock then do
            let (entries, r) ← readEntries bound r.drop
            pure (Node.mapping p.tag entries, r)
          else readNothing p r
        | _ => readNothing p r
      return (node, r.keep p.anchor id node)
where
  /-- A node of which only the properties are written. -/
  readNothing (p : Properties) (r : Reading) : Option (Node × Reading) :=
    if p.anchor.isSome || p.tag.isSome then some (.scalar p.tag .plain "", r) else none

/-- Reads the items of a block sequence; one that is indented ends with a token of its
own. -/
def readItems (indented : Bool) : (bound : Nat) → Reading → Option (List Node × Reading)
  | 0, _ => none
  | bound + 1, r =>
    match r.next? with
    | some .blockEntry => do
      let r := r.drop
      let isEmpty := endsBlockItem r.next? &&
        !(indented && (r.next? = some .key || r.next? = some .value))
      let (item, r) ← if isEmpty then some (Node.empty, r) else read true false bound r
      let (items, r) ← readItems indented bound r
      return (item :: items, r)
    | next =>
      if indented then if next = some .blockEnd then some ([], r.drop) else none
      else some ([], r)

/-- Reads the entries of a block mapping, up to and with the token that ends it. -/
def readEntries : (bound : Nat) → Reading → Option (List (Node × Node) × Reading)
  | 0, _ => none
  | bound + 1, r =>
    match r.next? with
    | some .blockEnd => some ([], r.drop)
    | some .key => do
      let (key, r) ← readPart bound r.drop
      let (value, r) ←
        if r.next? = some .value then readPart bound r.drop else some (Node.empty, r)
      let (entries, r) ← readEntries bound r
      return ((key, value) :: entries, r)
    | _ => none

/-- Reads a key or a value of a block mapping. -/
def readPart : (bound : Nat) → Reading → Option (Node × Reading)
  | 0, _ => none
  | bound + 1, r =>
    match r.next? with
    | some .key | some .value | some .blockEnd => some (.empty, r)
    | _ => read true true bound r

/-- Reads the items between square brackets. -/
def readFlowItems : (bound : Nat) → (first : Bool) → Reading → Option (List Node × Reading)
  | 0, _, _ => none
  | bound + 1, first, r =>
    if r.next? = some .flowSequenceEnd then some ([], r.drop)
    else do
      let r ← if first then some r
        else if r.next? = some .flowEntry then some r.drop else none
      if r.next? = some .flowSequenceEnd then return ([], r.drop)
      let (item, r) ←
        if r.next? = some .key then do
          let (entry, r) ← readPair bound r.drop
          pure (Node.mapping none [entry], r)
        else read false false bound r
      let (items, r) ← readFlowItems bound false r
      return (item :: items, r)

/-- Reads a pair among the items between square brackets, after the token that announces
its key.  An empty key takes the token after it along. -/
def readPair : (bound : Nat) → Reading → Option ((Node × Node) × Reading)
  | 0, _ => none
  | bound + 1, r => do
    let (key, r) ←
      if r.next? = some .value || endsFlowItem .flowSequenceEnd r.next? then
        some (Node.empty, r.drop)
      else read false false bound r
    let (value, r) ← readFlowValue bound .flowSequenceEnd r
    return ((key, value), r)

/-- Reads the value of a pair, if there is one. -/
def readFlowValue : (bound : Nat) → (closing : Token) → Reading → Option (Node × Reading)
  | 0, _, _ => none
  | bound + 1, closing, r =>
    if r.next? = some .value then
      let r := r.drop
      if endsFlowItem closing r.next? then some (.empty, r) else read false false bound r
    else some (.empty, r)

/-- Reads the entries between braces. -/
def readFlowEntries :
    (bound : Nat) → (first : Bool) → Reading → Option (List (Node × Node) × Reading)
  | 0, _, _ => none
  | bound + 1, first, r =>
    if r.next? = some .flowMappingEnd then some ([], r.drop)
    else do
      let r ← if first then some r
        else if r.next? = some .flowEntry then some r.drop else none
      if r.next? = some .flowMappingEnd then return ([], r.drop)
      let (entry, r) ←
        if r.next? = some .key then do
          let r := r.drop
          let (key, r) ←
            if r.next? = some .value || endsFlowItem .flowMappingEnd r.next? then
              some (Node.empty, r)
            else read false false bound r
          let (value, r) ← readFlowValue bound .flowMappingEnd r
          pure ((key, value), r)
        else do
          let (key, r) ← read false false bound r
          pure ((key, Node.empty), r)
      let (entries, r) ← readFlowEntries bound false r
      return (entry :: entries, r)

end

/-! ### Documents -/

/-- What tag handles stand for unless a directive says otherwise. -/
def defaultHandles : List (String × String) :=
  [("!", "!"), ("!!", "tag:yaml.org,2002:")]

/-- Reads directives: a version at most once and of a known kind, a handle at most once. -/
def readDirectives (versioned : Bool) (handles : List (String × String)) :
    List Token → Option (List (String × String) × List Token)
  | .version major minor :: rest =>
    if versioned || major ≠ 1 || !(minor = 1 || minor = 2) then none
    else readDirectives true handles rest
  | .handle h stem :: rest =>
    if (handles.lookup h).isSome then none else readDirectives versioned ((h, stem) :: handles) rest
  | tokens => some (handles, tokens)

/-- Whether a token cannot start the content of a document. -/
def endsContent : Option Token → Bool
  | none | some (.version ..) | some (.handle ..) | some .documentStart | some .documentEnd => true
  | _ => false

end Node

/-- The tree of a text that has one document at most. -/
def Tree.ofTokens? (tokens : List Token) : Option Tree := do
  if tokens.isEmpty then return { root := none }
  let bound := 4 * tokens.length + 4
  let (handles, rest) ← Node.readDirectives false [] tokens
  let directed := rest.length < tokens.length
  let marked := rest.head? = some .documentStart
  if directed && !marked then none
  let rest := if marked then rest.drop 1 else rest
  let r : Node.Reading := { tokens := rest, handles := handles ++ Node.defaultHandles }
  let (root, r) ←
    if marked && Node.endsContent r.next? then some (Node.empty, r)
    else Node.read true false bound r
  if (r.tokens.dropWhile (· = .documentEnd)).isEmpty then
    return { root := some root, anchors := r.anchors }
  else none

/-- The tree of a text. -/
def Tree.ofText? (text : String) : Option Tree :=
  (Token.ofText? text).bind Tree.ofTokens?

end Moore.Yaml
