import Moore.Level
import Moore.NameMap
import Moore.Record
import Moore.Yaml.Node
import Moore.Yaml.Resolve

/-
# Decoding YAML

Where a text is wanted, a scalar gives its own text whatever it would stand for; where any
kind of value may stand, a plain scalar counts as what it stands for.  An empty scalar is an
empty collection too.  Tags that the format defines force a kind; other tags do not matter,
except that a tag of the document's own is refused where any kind of value may stand.
-/

namespace Moore.Yaml

/-- Why a text does not give the wanted value. -/
inductive DecodeError where
  /-- The text is not YAML, or holds several documents. -/
  | malformed
  /-- A value has the wrong shape. -/
  | mismatch
  deriving DecidableEq, Repr

def DecodeError.message : DecodeError → String
  | malformed => "malformed text"
  | mismatch => "value of the wrong shape"

/-- A way to read values of type `α`; nodes may refer to those of the table. -/
abbrev Decoder (α : Type) := Node → Except DecodeError α

namespace Decoder

variable {α : Type} (anchors : Anchors)

/-- The node that an alias stands for.  It is no alias itself. -/
def target : Node → Node
  | .alias id => (anchors.lookup id).getD (.alias id)
  | node => node

def coreTag (name : String) : String :=
  "tag:yaml.org,2002:" ++ name

/-- Any scalar. -/
def string : Decoder String := fun node =>
  match target anchors node with
  | .scalar _ _ text => .ok text
  | _ => .error .mismatch

/-- Whether a scalar can be of a core kind: it is plain, or a literal block with the tag of
the kind. -/
def mayBe (kind : String) (tag : Option String) : Style → Bool
  | .plain => true
  | .literal => tag = some (coreTag kind)
  | _ => false

def bool : Decoder Bool := fun node =>
  match target anchors node with
  | .scalar tag style text =>
    match mayBe "bool" tag style, Meaning.bool? text with
    | true, some b => .ok b
    | _, _ => .error .mismatch
  | _ => .error .mismatch

/-- A number that is not negative, within 64 bits. -/
def natural : Decoder Nat := fun node =>
  match target anchors node with
  | .scalar tag style text =>
    match mayBe "int" tag style, Meaning.int? text.toList with
    | true, some n =>
      if text.toList.head? ≠ some '-' && n < Decimal.pow2 64 then .ok n.toNat else .error .mismatch
    | _, _ => .error .mismatch
  | _ => .error .mismatch

/-- Whether a node counts as missing where a value may be missing. -/
def isNull : Node → Except DecodeError Bool
  | .scalar none .plain text => .ok (text.isEmpty || Meaning.isNull text)
  | .scalar (some tag) .plain text =>
    if tag ≠ coreTag "null" then .ok false
    else if Meaning.isNull text then .ok true
    else .error .mismatch
  | _ => .ok false

/-- A value that may be missing. -/
def nullable (decode : Decoder α) : Decoder (Option α) := fun node => do
  let node := target anchors node
  if ← isNull node then return none
  else return some (← decode node)

/-- The items of a sequence. -/
def list (decode : Decoder α) : Decoder (List α) := fun node =>
  match target anchors node with
  | .sequence _ items => items.mapM decode
  | .scalar _ .plain "" => .ok []
  | _ => .error .mismatch

/-- The entries of a mapping. -/
def entries (node : Node) : Except DecodeError (List (Node × Node)) :=
  match target anchors node with
  | .mapping _ entries => .ok entries
  | .scalar _ .plain "" => .ok []
  | _ => .error .mismatch

/-- The values of a mapping by their names. -/
def named (decode : Decoder α) : Decoder (NameMap α) := fun node => do
  let pairs ← (← entries anchors node).mapM fun (key, value) => do
    return (← string anchors key, ← decode value)
  return NameMap.ofList pairs

/-- Whether a tag is one of the document's own. -/
def isOwnTag (tag : Option String) : Bool :=
  tag.any fun t => t.toList.head? = some '!'

/-- What a scalar stands for where any kind of value may stand. -/
def meaning (tag : Option String) (style : Style) (text : String) :
    Except DecodeError Meaning :=
  match tag with
  | none => .ok (if style = .plain then Meaning.ofPlain text else .text)
  | some t =>
    if isOwnTag tag then .error .mismatch
    else if t = coreTag "bool" then need ((Meaning.bool? text).map .bool)
    else if t = coreTag "int" then need ((Meaning.int? text.toList).map .int)
    else if t = coreTag "float" then need (if Meaning.isFloat text then some .float else none)
    else if t = coreTag "null" then need (if Meaning.isNull text then some .null else none)
    else .ok .text
where
  need (m : Option Meaning) : Except DecodeError Meaning :=
    match m with
    | some m => .ok m
    | none => .error .mismatch

/-- A level, as a number, a digit between quotes or a truth value. -/
def level : Decoder Level := fun node =>
  match target anchors node with
  | .scalar tag style text => do
    let value ←
      match ← meaning tag style text with
      | .bool b => pure (LevelValue.bool b)
      | .int n => pure (LevelValue.int n)
      | .text => pure (LevelValue.text text)
      | .null | .float => throw .mismatch
    value.level.mapError fun _ => .mismatch
  | _ => .error .mismatch

/-- A text or a sequence of texts. -/
def texts : Decoder (List String) := fun node =>
  match target anchors node with
  | .scalar tag style text => do
    if (← meaning tag style text) = .text then return [text] else throw .mismatch
  | .sequence tag items =>
    if isOwnTag tag then .error .mismatch else items.mapM (string anchors)
  | _ => .error .mismatch

/-- One of some words, as a scalar or as a tag on nothing. -/
def choice (words : List (String × α)) : Decoder α := fun node =>
  match target anchors node with
  | .scalar tag style text =>
    match ownWord? tag with
    | none => need (words.lookup text)
    | some word =>
      if style = .plain && (text.isEmpty || Meaning.isNull text) then need (words.lookup word)
      else .error .mismatch
  | _ => .error .mismatch
where
  /-- The word of a tag of the document's own. -/
  ownWord? (tag : Option String) : Option String :=
    match tag.map String.toList with
    | some ['!'] => some "!"
    | some ('!' :: word) => some (String.ofList word)
    | _ => none
  need (found : Option α) : Except DecodeError α :=
    match found with
    | some a => .ok a
    | none => .error .mismatch

/-! ### Records -/

variable {δ : Type}

/-- Reads the entries of a mapping into a draft. -/
def readEntries (r : Record Node DecodeError δ α) (draft : δ) :
    List (Node × Node) → Except DecodeError δ
  | [] => .ok draft
  | (key, value) :: rest => do
    let name ← string anchors key
    match r.field? name with
    | none => readEntries r draft rest
    | some field =>
      if field.isSet draft then throw .mismatch
      readEntries r (← field.read value draft) rest

/-- A record, written as a mapping. -/
def record (r : Record Node DecodeError δ α) : Decoder α := fun node => do
  let draft ← readEntries anchors r r.start (← entries anchors node)
  (r.finish draft).mapError fun _ => .mismatch

end Decoder

/-- Decodes a text; a text without a document counts as an empty scalar. -/
def decodeText {α : Type} (decoder : Anchors → Decoder α) (text : String) :
    Except DecodeError α :=
  match Tree.ofText? text with
  | some tree => decoder tree.anchors (tree.root.getD .empty)
  | none => .error .malformed

end Moore.Yaml
