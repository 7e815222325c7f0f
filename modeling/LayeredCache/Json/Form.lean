import LayeredCache.Json.Token

/-!
# The form of a JSON text

A text is read into a tree that keeps everything its reader may ask about: number literals as they
were written, members in the order given, repeated keys. Where the text stops being JSON the tree
has a `broken` leaf or an array or object that was never closed, and nothing after it. Readers
walk the tree in the order of the text, so the first problem they meet is the first one in the
text. Where the problem is in the text is not kept.
-/

namespace LayeredCache.Json

inductive Form where
  | null
  | bool (b : Bool)
  | num (l : Literal)
  | str (s : Option String)
  | arr (items : List Form) (closed : Bool)
  | obj (members : List (Option String × Form)) (closed : Bool)
  | broken
  deriving Inhabited

namespace Form

/-! ## Completeness -/

mutual

/-- The form is JSON to its end. -/
def complete : Form → Bool
  | .arr items closed => closed && completeItems items
  | .obj members closed => closed && completeMembers members
  | .broken => false
  | _ => true

/-- Every item is complete. -/
def completeItems : List Form → Bool
  | [] => true
  | f :: r => complete f && completeItems r

/-- The value of every member is complete. -/
def completeMembers : List (Option String × Form) → Bool
  | [] => true
  | (_, f) :: r => complete f && completeMembers r

end

/-! ## Parsing -/

mutual

/-- One value, and the tokens after it; `depth` bounds the recursion. -/
def parse : Nat → List Token → Form × List Token
  | 0, _ => (.broken, [])
  | _ + 1, .null :: r => (.null, r)
  | _ + 1, .bool b :: r => (.bool b, r)
  | _ + 1, .num l :: r => (.num l, r)
  | _ + 1, .str s :: r => (.str s, r)
  | _ + 1, .openArray :: .closeArray :: r => (.arr [] true, r)
  | depth + 1, .openArray :: r =>
    let (items, closed, r') := parseItems depth r
    (.arr items closed, r')
  | _ + 1, .openObject :: .closeObject :: r => (.obj [] true, r)
  | depth + 1, .openObject :: r =>
    let (members, closed, r') := parseMembers depth r
    (.obj members closed, r')
  | _ + 1, _ => (.broken, [])

/-- The items of an array after its opening bracket or a comma, whether it was closed, and the
tokens after it. -/
def parseItems : Nat → List Token → List Form × Bool × List Token
  | 0, _ => ([], false, [])
  | depth + 1, ts =>
    let (f, r) := parse depth ts
    match r with
    | .comma :: r =>
      let (fs, closed, r') := parseItems depth r
      (f :: fs, closed, r')
    | .closeArray :: r => ([f], true, r)
    | _ => ([f], false, [])

/-- The members of an object after its opening brace or a comma, whether it was closed, and the
tokens after it. -/
def parseMembers : Nat → List Token → List (Option String × Form) × Bool × List Token
  | 0, _ => ([], false, [])
  | depth + 1, .str k :: .colon :: ts =>
    let (f, r) := parse depth ts
    match r with
    | .comma :: r =>
      let (ms, closed, r') := parseMembers depth r
      ((k, f) :: ms, closed, r')
    | .closeObject :: r => ([(k, f)], true, r)
    | _ => ([(k, f)], false, [])
  | _ + 1, .str k :: _ => ([(k, .broken)], false, [])
  | _ + 1, _ => ([], false, [])

end

end Form

/-- A text: the form of its value, and whether nothing but white space follows. -/
structure Document where
  form : Form
  ended : Bool

/-- The document that symbols write. Each token costs at most two steps of the recursion. -/
def Document.ofSymbols (ss : List Text.Symbol) : Document :=
  let ts := tokens ss
  let (f, r) := Form.parse (2 * ts.length + 2) ts
  ⟨f, r.isEmpty⟩

/-- The document that a string writes. -/
def Document.ofString (s : String) : Document := ofSymbols (s.toList.map some)

end LayeredCache.Json
