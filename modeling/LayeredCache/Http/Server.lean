import LayeredCache.Cache
import LayeredCache.Http.MediaType
import LayeredCache.Http.Payload
import LayeredCache.Http.Percent
import LayeredCache.Http.Timestamp
import LayeredCache.Text.Utf8

/-!
# The HTTP front

A cache served over HTTP. A request is routed by its path, then by its method; a handler reads the
key from the path or a JSON body and asks the cache.

Every answer may be shared across origins. An `OPTIONS` request is answered for every path without
a handler.

A request is there with its whole body, and an answer is handed back whole; the connection and
whatever may happen to it are left out. Of an answer that the router gives by itself, without a
handler, the status and the headers are kept and the text is not.
-/

namespace LayeredCache.Http

/-! ## Messages -/

/-- A body: text, or bytes that may be no text. -/
inductive Body where
  | text (s : String)
  | bytes (bs : List UInt8)

namespace Body

/-- The number of bytes. -/
def size : Body → Nat
  | .text s => s.utf8ByteSize
  | .bytes bs => bs.length

/-- The symbols that a body writes. -/
def symbols : Body → List Text.Symbol
  | .text s => s.toList.map some
  | .bytes bs => Text.decode bs

end Body

structure Request where
  method : String
  target : String
  contentType : Option String
  body : Body

structure Response where
  status : Nat
  contentType : Option String
  /-- The methods that the path allows, where the answer names them. -/
  allow : Option String
  /-- The answer tells what other origins may ask. -/
  preflight : Bool
  body : String

namespace Response

/-- The headers of an answer, sorted by name. -/
def headers (r : Response) : List (String × String) :=
  (if r.preflight then
    [("access-control-allow-headers", "*"), ("access-control-allow-methods", "*")]
  else []) ++
  [("access-control-allow-origin", "*")] ++
  (r.allow.map fun a => ("allow", a)).toList ++
  (r.contentType.map fun t => ("content-type", t)).toList ++
  [("vary", "origin, access-control-request-method, access-control-request-headers")]

def jsonType : String := "application/json"

/-- The answer holds JSON. -/
def isJson (r : Response) : Bool := r.contentType == some jsonType

/-- An answer of JSON. -/
def json (status : Nat) (j : Json) : Response := ⟨status, some jsonType, none, false, j.render⟩

/-- A request that no handler accepts, with a reason. -/
def rejected (status : Nat) (reason : String) : Response :=
  ⟨status, some "text/plain; charset=utf-8", none, false, reason⟩

/-- An answer without a body. -/
def bare (status : Nat) (allow : Option String) : Response := ⟨status, none, allow, false, ""⟩

/-- What an error comes to. -/
def ofError (e : CacheError) : Response := json (statusOf e) (errorAnswer e)

/-- What an outcome comes to. -/
def ofAnswer {α : Type} (f : α → Json) : Answer α → Response
  | .ok a => json 200 (f a)
  | .error e => ofError e

end Response

/-! ## Routes -/

/-- What a path names; keys are still encoded. -/
inductive Route where
  | set
  | get (key : List UInt8)
  | multiGet
  | delete (key : List UInt8)
  | step (s : Step) (key : List UInt8)
  | exists (key : List UInt8)
  | flush
  | health

/-- Splits bytes at slashes. -/
def segments (bs : List UInt8) : List (List UInt8) := bs.splitOn 0x2F

/-- The path of a request target: what comes before a query or a fragment. -/
def pathOf (target : String) : List UInt8 :=
  target.toUTF8.toList.takeWhile fun b => b != 0x3F && b != 0x23

namespace Route

/-- The bytes of a word. -/
def word (s : String) : List UInt8 := s.toUTF8.toList

/-- The route of a path without a key. -/
def fixed : List (String × Route) :=
  [("set", .set), ("mget", .multiGet), ("flush", .flush), ("health", .health)]

/-- The routes of paths with a key. -/
def keyed (key : List UInt8) : List (String × Route) :=
  [("get", .get key), ("del", .delete key), ("incr", .step .up key), ("decr", .step .down key),
    ("exists", .exists key)]

/-- The route whose word these bytes are. -/
def pick (routes : List (String × Route)) (bs : List UInt8) : Option Route :=
  (routes.find? fun r => word r.1 = bs).map (·.2)

/-- The route that a path names. A key is one segment that is not empty. -/
def ofPath? (path : List UInt8) : Option Route :=
  match segments path with
  | [[], w] => pick fixed w
  | [[], w, key] => if key.isEmpty then none else pick (keyed key) w
  | _ => none

/-- The method of a route. -/
def method : Route → String
  | .set => "PUT"
  | .get _ | .exists _ | .health => "GET"
  | .multiGet | .step _ _ => "POST"
  | .delete _ | .flush => "DELETE"

/-- The methods that a route allows; what can be got can be asked for without its body. -/
def allowed (r : Route) : List String :=
  if r.method = "GET" then ["GET", "HEAD"] else [r.method]

end Route

/-! ## Handlers -/

/-- The most bytes that a body may have. -/
def maxBody : Nat := 2097152

/-- The request says that it carries JSON. -/
def Request.isJson (r : Request) : Bool :=
  ((r.contentType.bind MediaType.parse?).map MediaType.isJson).getD false

/-- What the JSON value that a body begins with holds, or the answer that refuses it. What follows
the value is not looked at. -/
def Request.read {α : Type} (r : Request) (read : Json.Form → Except Json.Reject α) :
    Except Response α :=
  if !r.isJson then .error (.rejected 415 "the content type has to be JSON")
  else if maxBody < r.body.size then .error (.rejected 413 "the body is too long")
  else match read (Json.Document.ofSymbols r.body.symbols).form with
    | .ok a => .ok a
    | .error .malformed => .error (.rejected 400 "the body is no JSON")
    | .error .mismatch => .error (.rejected 422 "the body is JSON of the wrong kind")

/-- The key that a path segment writes, or the answer that refuses it. -/
def keyOf (segment : List UInt8) : Except Response String :=
  match Text.text? (Percent.decode segment) with
  | some k => .ok k
  | none => .error (.rejected 400 "the key is no UTF-8")

variable {σ : Type}

/-- Asks with the key of a path. -/
def withKey (segment : List UInt8) (ask : String → Process σ Response) : Process σ Response :=
  match keyOf segment with
  | .ok key => ask key
  | .error r => return r

/-- Stores the value of a request, for the default time if it names none. -/
def setValue (cache : Cache σ) (defaultTtl : Duration) (r : SetRequest) : Process σ Response :=
  match r.problem? with
  | some p => return .ofError (.invalidRequest p)
  | none => do
    let ttl := (r.ttl.map Duration.ofSecs).getD defaultTtl
    return .ofAnswer (fun _ => keyAnswer r.key "set") (← cache.put r.key r.value ttl)

/-- Reads a batch; a batch with empty slots is an answer all the same. -/
def getValues (cache : Cache σ) (r : MultiGetRequest) : Process σ Response := do
  match ← cache.getMulti r.keys with
  | .ok slots => return .json 200 (batchAnswer slots [])
  | .error (.multiGetFailed slots failures) => return .json 200 (batchAnswer slots failures)
  | .error e => return .ofError e

variable [Clock σ]

/-- Answers a request with the method of its route. -/
def handle (cache : Cache σ) (defaultTtl : Duration) (r : Request) : Route → Process σ Response
  | .set =>
    match r.read SetRequest.read with
    | .ok req => setValue cache defaultTtl req
    | .error e => return e
  | .multiGet =>
    match r.read MultiGetRequest.read with
    | .ok req => getValues cache req
    | .error e => return e
  | .get segment => withKey segment fun key => do
    return .ofAnswer (valueAnswer key) (← cache.get key)
  | .delete segment => withKey segment fun key => do
    return .ofAnswer (fun _ => keyAnswer key "deleted") (← cache.delete key)
  | .step s segment => withKey segment fun key => do
    let action := match s with
      | .up => "incremented"
      | .down => "decremented"
    return .ofAnswer (fun _ => keyAnswer key action) (← cache.step s key)
  | .exists segment => withKey segment fun key => do
    return .ofAnswer (existsAnswer key) (← cache.isExist key)
  | .flush => do return .ofAnswer (fun _ => keyAnswer "*" "flushed") (← cache.clearAll)
  | .health => do
    let now ← Process.ask Clock.now
    return .json 200 (healthAnswer (Timestamp.text (Timestamp.epoch + now)))

/-- Answers a request. -/
def serve (cache : Cache σ) (defaultTtl : Duration) (r : Request) : Process σ Response :=
  let route := Route.ofPath? (pathOf r.target)
  let allow := route.map fun x => ",".intercalate x.allowed
  if r.method = "OPTIONS" then return { Response.bare 200 allow with preflight := true }
  else match route with
    | none => return .bare 404 none
    | some x =>
      if r.method = x.method then handle cache defaultTtl r x
      else if x.allowed.contains r.method then do
        return { ← handle cache defaultTtl r x with body := "" }
      else return .bare 405 allow

end LayeredCache.Http
