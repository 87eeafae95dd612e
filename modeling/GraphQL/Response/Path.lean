/-!
# Positions and paths

Where a part of a request is written, by line and column, and where a value stands in the data of a
response, by the response keys and list indices on the way to it from the root. Lines and columns
are counted from one and fit into 32 bits. Paths are ordered segment by segment; a key comes before
an index, keys go by code points and indices by size, and a path comes before those that extend it.
-/

namespace GraphQL

structure Position where
  line : UInt32
  column : UInt32
  deriving DecidableEq

namespace Position

def start : Position := ⟨1, 1⟩

def text (position : Position) : String :=
  toString position.line.toNat ++ ":" ++ toString position.column.toNat

/-- Positions are ordered by line, then by column. -/
instance : Ord Position where
  compare a b := (compare a.line b.line).then (compare a.column b.column)

def sort (positions : List Position) : List Position :=
  positions.mergeSort fun a b => (compare a b).isLE

end Position

/-- One step of a path: into an object by a response key or into a list by an index. -/
inductive PathSegment where
  | key (name : String)
  | index (place : Nat)
  deriving DecidableEq

namespace PathSegment

def text : PathSegment → String
  | key name => name
  | index place => toString place

/-- Keys come before indices. -/
protected def compare : PathSegment → PathSegment → Ordering
  | key a, key b => compare a b
  | key _, index _ => .lt
  | index _, key _ => .gt
  | index a, index b => compare a b

instance : Ord PathSegment := ⟨PathSegment.compare⟩

end PathSegment

/-- The segments on the way to a value, from the root down. The root has the empty path. -/
abbrev Path := List PathSegment

namespace Path

def key (path : Path) (name : String) : Path := path ++ [.key name]

def index (path : Path) (place : Nat) : Path := path ++ [.index place]

/-- The path of the value that holds this one. The root is held by itself. -/
def parent (path : Path) : Path := path.dropLast

def text (path : Path) : String := ".".intercalate (path.map PathSegment.text)

end Path

end GraphQL
