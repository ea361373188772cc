import Mathlib.Algebra.Ring.Nat
import GuinsooDB.Index.Layout

/-!
The adaptive radix tree. The bytes of a key from the current depth on are called its rest. Where
the code would read past the end of a key, or write past the end of a prefix whose 32-bit length
has overflowed, there is no result.
-/

namespace GuinsooDB

inductive ArtNode where
  | leaf (prefixBytes key : List Byte) (rows : List Int)
  | inner (prefixBytes : List Byte) (layout : NodeLayout ArtNode)

inductive PrefixMatch where
  | matched (rest : List Byte)
  | differs (shared : List Byte) (byte : Byte) (left : List Byte) (other : Byte)
  | overrun
  deriving Repr, DecidableEq

namespace ArtNode

def prefixBytes : ArtNode → List Byte
  | leaf prefixBytes _ _ | inner prefixBytes _ => prefixBytes

def matchPrefix : List Byte → List Byte → PrefixMatch
  | [], rest => .matched rest
  | _ :: _, [] => .overrun
  | byte :: left, other :: rest =>
    if byte = other then
      match matchPrefix left rest with
      | .differs shared first left second => .differs (byte :: shared) first left second
      | result => result
    else .differs [] byte left other

/-- The loop over the keys of a leaf and of an insertion: no difference, or what they share and
the bytes in which they differ. -/
def compareKeys : List Byte → List Byte → Option (Option (List Byte × Byte × Byte))
  | [], [] => some none
  | existing :: others, byte :: rest =>
    if existing = byte then
      (compareKeys others rest).map (Option.map fun found => (byte :: found.1, found.2))
    else some (some ([], existing, byte))
  | _, _ => none

def leafMatches : List Byte → List Byte → Option Bool
  | [], _ => some true
  | _ :: _, [] => none
  | existing :: others, byte :: rest =>
    if existing = byte then leafMatches others rest else some false

def restOf (key rest existing : List Byte) : List Byte := existing.drop (key.length - rest.length)

def pair (shared : List Byte) (byte : Byte) (child : ArtNode) (other : Byte) (added : ArtNode) :
    ArtNode :=
  inner shared (((NodeLayout.node4 []).insertChild byte child).insertChild other added)

def insertToLeaf (unique : Bool) (prefixBytes key : List Byte) (rows : List Int) (row : Int) :
    ArtNode × Bool :=
  if unique && !rows.isEmpty then (leaf prefixBytes key rows, false)
  else (leaf prefixBytes key (rows ++ [row]), true)

def insert (unique : Bool) (key : List Byte) (row : Int) :
    Nat → List Byte → ArtNode → Option (ArtNode × Bool)
  | 0, _, _ => none
  | _ + 1, rest, leaf prefixBytes existing rows =>
    (compareKeys (restOf key rest existing) rest).map fun
      | none => insertToLeaf unique prefixBytes existing rows row
      | some (shared, byte, other) =>
        (pair shared byte (leaf prefixBytes existing rows) other (leaf [] key [row]), true)
  | fuel + 1, rest, inner prefixBytes layout =>
    match matchPrefix prefixBytes rest with
    | .overrun | .matched [] => none
    | .differs shared byte left other =>
      some (pair shared byte (inner left layout) other (leaf [] key [row]), true)
    | .matched (byte :: later) =>
      match layout.find byte with
      | some child =>
        (insert unique key row fuel later child).map fun result =>
          (inner prefixBytes (layout.replace byte result.1), result.2)
      | none => some (inner prefixBytes (layout.insertChild byte (leaf [] key [row])), true)

def concatenate (prefixBytes : List Byte) (byte : Byte) (child : ArtNode) : Option ArtNode :=
  if prefixBytes.length + child.prefixBytes.length + 1 < 2 ^ 32 then
    some (match child with
      | leaf childPrefix key rows => leaf (prefixBytes ++ byte :: childPrefix) key rows
      | inner childPrefix layout => inner (prefixBytes ++ byte :: childPrefix) layout)
  else none

def eraseLeaf (prefixBytes : List Byte) (layout : NodeLayout ArtNode) (byte : Byte) :
    Option ArtNode :=
  match layout.eraseChild byte with
  | .kept left => some (inner prefixBytes left)
  | .oneWay last child => concatenate prefixBytes last child

def isLeafOf (key rest : List Byte) : ArtNode → Option Bool
  | leaf _ existing _ => leafMatches (restOf key rest existing) rest
  | inner _ _ => some false

def remove (row : Int) : ArtNode → Option ArtNode
  | leaf prefixBytes key rows =>
    if rows.erase row = [] then none else some (leaf prefixBytes key (rows.erase row))
  | node => some node

def erase (key : List Byte) (row : Int) : Nat → List Byte → ArtNode → Option (Option ArtNode)
  | 0, _, _ => none
  | _ + 1, rest, leaf prefixBytes existing rows =>
    (isLeafOf key rest (leaf prefixBytes existing rows)).map fun same =>
      if same then remove row (leaf prefixBytes existing rows)
      else some (leaf prefixBytes existing rows)
  | fuel + 1, rest, inner prefixBytes layout =>
    match matchPrefix prefixBytes rest with
    | .overrun | .matched [] => none
    | .differs _ _ _ _ => some (some (inner prefixBytes layout))
    | .matched (byte :: later) =>
      match layout.find byte with
      | none => some (some (inner prefixBytes layout))
      | some child => do
          let same ← isLeafOf key (byte :: later) child
          if same then
            match remove row child with
            | none => (eraseLeaf prefixBytes layout byte).map some
            | some changed => some (some (inner prefixBytes (layout.replace byte changed)))
          else do
            let changed ← erase key row fuel later child
            changed.map fun child => some (inner prefixBytes (layout.replace byte child))

def lookup (key : List Byte) : Nat → List Byte → ArtNode → Option (Option (List Byte × List Int))
  | 0, _, _ => none
  | _ + 1, rest, leaf _ existing rows =>
    (leafMatches (restOf key rest existing) rest).map fun same =>
      if same then some (existing, rows) else none
  | fuel + 1, rest, inner prefixBytes layout =>
    match matchPrefix prefixBytes rest with
    | .overrun | .matched [] => none
    | .differs _ _ _ _ => some none
    | .matched (byte :: later) =>
      match layout.find byte with
      | none => some none
      | some child => lookup key fuel later child

end ArtNode

inductive ArtAction where
  | insert (key : List Byte) (row : Int)
  | erase (key : List Byte) (row : Int)
  deriving Repr, DecidableEq

abbrev Art := Option ArtNode

namespace Art

def insert (unique : Bool) (tree : Art) (key : List Byte) (row : Int) : Option (Art × Bool) :=
  match tree with
  | none => some (some (.leaf [] key [row]), true)
  | some node =>
    (node.insert unique key row (key.length + 1) key).map fun result => (some result.1, result.2)

def erase (tree : Art) (key : List Byte) (row : Int) : Option Art :=
  match tree with
  | none => some none
  | some node => node.erase key row (key.length + 1) key

def lookup (tree : Art) (key : List Byte) : Option (Option (List Byte × List Int)) :=
  match tree with
  | none => some none
  | some node => node.lookup key (key.length + 1) key

def step (unique : Bool) (tree : Art) : ArtAction → Option (Art × Bool)
  | .insert key row => tree.insert unique key row
  | .erase key row => (tree.erase key row).map fun left => (left, true)

end Art

end GuinsooDB
