/-!
# Media types

A `content-type` value is a type and a subtype, each a token, and parameters. A plus sign in the
subtype begins its suffix. JSON is `application/json`, or any `application` type with the suffix
`json`, in any case. Parameters have to be well formed; what they say is not looked at.
-/

namespace LayeredCache.Http

/-- A media type without its parameters, in lower case. -/
structure MediaType where
  main : List Char
  sub : List Char
  suffix : Option (List Char)
  deriving DecidableEq, Repr

namespace MediaType

/-- A character of a token. -/
def isTokenChar (c : Char) : Bool :=
  c.isAlphanum || "!#$%&'*+-.^_`|~".toList.contains c

/-- A character of a quoted parameter value. -/
def isQuotedChar (c : Char) : Bool := ' ' ≤ c && c < '\x7f'

/-- Splits a subtype at its last plus sign, unless that comes first. -/
def splitSuffix (cs : List Char) : List Char × Option (List Char) :=
  let suffix := (cs.reverse.takeWhile (· != '+')).reverse
  let before := cs.take (cs.length - suffix.length - 1)
  if suffix.length < cs.length && !before.isEmpty then (before, some suffix) else (cs, none)

/-- What a parameter reader expects next. -/
inductive Expect where
  /-- A parameter's name, or blanks before it. -/
  | start
  | name
  | valueStart
  | value
  | quotedStart
  | quoted
  /-- Blanks or a semicolon after a quoted value. -/
  | next

/-- The parameters after the first semicolon are well formed. -/
def paramsOk : Expect → List Char → Bool
  | .start, [] | .value, [] | .next, [] | .valueStart, [] => true
  | .name, [] | .quotedStart, [] | .quoted, [] => false
  | .start, c :: r =>
    if c = ' ' then paramsOk .start r else isTokenChar c && paramsOk .name r
  | .name, c :: r =>
    if c = '=' then paramsOk .valueStart r else isTokenChar c && paramsOk .name r
  | .valueStart, c :: r =>
    if c = '"' then paramsOk .quotedStart r else isTokenChar c && paramsOk .value r
  | .value, c :: r =>
    if c = ';' then paramsOk .start r else isTokenChar c && paramsOk .value r
  | .quotedStart, c :: r => isQuotedChar c && paramsOk .quoted r
  | .quoted, c :: r =>
    if c = '"' then paramsOk .next r else isQuotedChar c && paramsOk .quoted r
  | .next, c :: r =>
    if c = ';' then paramsOk .start r else c = ' ' && paramsOk .next r

/-- The media type that a header value writes. -/
def parse? (s : String) : Option MediaType :=
  let cs := s.toList.map Char.toLower
  let main := cs.takeWhile isTokenChar
  match main, cs.drop main.length with
  | _ :: _, '/' :: r =>
    let sub := r.takeWhile isTokenChar
    let (before, suffix) := splitSuffix sub
    match sub, r.drop sub.length with
    | _ :: _, [] => some ⟨main, before, suffix⟩
    | _ :: _, ';' :: params => if paramsOk .start params then some ⟨main, before, suffix⟩ else none
    | _, _ => none
  | _, _ => none

/-- The media type is JSON. -/
def isJson (m : MediaType) : Bool :=
  m.main == "application".toList && (m.sub == "json".toList || m.suffix == some "json".toList)

end MediaType
end LayeredCache.Http
