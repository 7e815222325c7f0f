import LayeredCache.Value.Basic
import LayeredCache.Json.Printer
import LayeredCache.Json.Reading

/-!
# Values as JSON text

A value is written as an object of its type's name and its contents, and read from such an object
with the two members in either order, or from an array of the two.

When the contents come before the type, they have to be JSON by themselves; they are read for
their type once it is known.
-/

namespace LayeredCache

/-- What a value's type can be. -/
inductive ValueType where
  | int (k : IntKind)
  | bool
  | str
  | bytes
  | json
  deriving DecidableEq, Repr

namespace IntKind

def name : IntKind → String
  | .int8 => "int8"
  | .int16 => "int16"
  | .int32 => "int32"
  | .int64 => "int64"
  | .uint8 => "uint8"
  | .uint16 => "uint16"
  | .uint32 => "uint32"
  | .uint64 => "uint64"

end IntKind

namespace ValueType

def name : ValueType → String
  | .int k => k.name
  | .bool => "bool"
  | .str => "str"
  | .bytes => "bytes"
  | .json => "json"

/-- Every type. -/
def all : List ValueType :=
  [.int .int8, .int .int16, .int .int32, .int .int64, .int .uint8, .int .uint16, .int .uint32,
    .int .uint64, .bool, .str, .bytes, .json]

/-- The type of this name. -/
def ofName? (s : String) : Option ValueType := all.find? fun t => t.name = s

theorem ofName?_name (t : ValueType) : ofName? t.name = some t := by
  cases t with
  | int k => cases k <;> decide +kernel
  | _ => decide +kernel

end ValueType

namespace Value

/-! ## Writing -/

def type : Value → ValueType
  | .int n => .int n.kind
  | .bool _ => .bool
  | .str _ => .str
  | .bytes _ => .bytes
  | .json _ => .json

theorem bounded_fits (n : BoundedInt) : Fits n.val := by
  obtain ⟨k, v, h⟩ := n
  revert h
  cases k <;> simp only [IntKind.low, IntKind.high, IntKind.isSigned, IntKind.count] <;>
    simp <;> omega

/-- The contents of a value. -/
def content : Value → Json
  | .int n => .num (.whole n.val (bounded_fits n))
  | .bool b => .bool b
  | .str s => .str s
  | .bytes bs => .arr (bs.map fun b => .ofNat b.toNat)
  | .json j => j

/-- The object that stands for a value. -/
def toJson (v : Value) : Json := .obj [("type", .str v.type.name), ("value", v.content)]

/-- The text of a value. -/
def render (v : Value) : String := v.toJson.render

/-! ## Reading -/

open Json Json.Form

/-- The type of a name that was read. -/
def named (s : String) : Except Reject ValueType :=
  match ValueType.ofName? s with
  | some t => .ok t
  | none => .error .mismatch

/-- The name of a type: a string, or the only key of an object that holds null there. Anything else
breaks the text. -/
def readType (depth : Nat) : Form → Except Reject ValueType
  | .str (some s) => named s
  | .obj ((some k, f) :: rest) closed =>
    if depth = 0 then .error .malformed
    else do
      let t ← named k
      readNull f
      finish (closed && rest.isEmpty)
      return t
  | _ => .error .malformed

/-- The contents of a value of type `t`, nested at most `depth` deep. -/
def readContent (depth : Nat) (t : ValueType) (f : Form) : Except Reject Value :=
  match t with
  | .int k => (readInt k.low k.high f).map fun n => .int ⟨k, n.1, n.2⟩
  | .bool => (readBool f).map .bool
  | .str => (readString f).map .str
  | .bytes =>
    (readList depth (readInt 0 255) f).map fun ns => .bytes (ns.map fun n => n.1.toNat.toUInt8)
  | .json => (readJson f depth).map .json

/-- What the members read so far have given. -/
inductive Parts where
  | nothing
  | type (t : ValueType)
  /-- Contents that are JSON by themselves; their type is not known yet. -/
  | content (f : Form)
  | whole (v : Value)

/-- Takes a `type` member. -/
def Parts.addType (depth : Nat) (f : Form) : Parts → Except Reject Parts
  | .nothing => (readType depth f).map .type
  | .content c => do return .whole (← readContent depth (← readType depth f) c)
  | .type _ | .whole _ => .error .mismatch

/-- Takes a `value` member. -/
def Parts.addContent (depth : Nat) (f : Form) : Parts → Except Reject Parts
  | .nothing => (readJson f depth).map fun _ => .content f
  | .type t => (readContent depth t f).map .whole
  | .content _ | .whole _ => .error .mismatch

/-- Takes one member after another; unknown ones are skipped. -/
def readParts (depth : Nat) (closed : Bool) :
    Parts → List (Option String × Form) → Except Reject Value
  | .whole v, [] => (finish closed).map fun _ => v
  | _, [] => .error (missing closed)
  | p, (k, f) :: r =>
    match k with
    | none => .error .malformed
    | some "type" => do readParts depth closed (← p.addType depth f) r
    | some "value" => do readParts depth closed (← p.addContent depth f) r
    | some _ => do skip f; readParts depth closed p r

/-- A value, nested at most `depth` deep. -/
def read (depth : Nat) : Form → Except Reject Value
  | .obj members closed =>
    if depth = 0 then .error .malformed else readParts (depth - 1) closed .nothing members
  | .arr items closed =>
    if depth = 0 then .error .malformed
    else match items with
      | [] => .error (missing closed)
      | [t] => do let _ ← readType (depth - 1) t; throw (missing closed)
      | t :: c :: rest => do
        let v ← readContent (depth - 1) (← readType (depth - 1) t) c
        finish (closed && rest.isEmpty)
        return v
  | f => .error f.reject

/-- The value that a text writes. -/
def parse (s : String) : Except Reject Value := (Document.ofString s).read (read maxDepth)

end Value
end LayeredCache
