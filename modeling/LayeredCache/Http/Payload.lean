import LayeredCache.Error
import LayeredCache.Value.Text

/-!
# Payloads

The JSON bodies that requests carry and answers hold. Requests are read from objects with the
members in any order, or from arrays of their fields; unknown members are skipped and known ones
may occur once. A payload that is refused is so in one of two ways, as text or by its kind; the
words of the refusal are left out.
-/

namespace LayeredCache.Http

open Json Json.Form

/-! ## Requests -/

/-- A request to store a value, with a time to live in seconds. -/
structure SetRequest where
  key : String
  value : Value
  ttl : Option Nat

namespace SetRequest

/-- What is wrong with a request that was read. -/
def problem? (r : SetRequest) : Option String :=
  if r.key = "" then some "Key cannot be empty" else none

/-- Seconds that fit 64 bits, or null. -/
def readTtl (f : Form) : Except Reject (Option Nat) :=
  match f with
  | .null => .ok none
  | f => (readInt 0 0xffff_ffff_ffff_ffff f).map fun n => some n.1.toNat

/-- The members read so far. -/
structure Parts where
  key : Option String
  value : Option Value
  ttl : Option (Option Nat)

/-- Takes one member after another. -/
def readParts (depth : Nat) (closed : Bool) :
    Parts → List (Option String × Form) → Except Reject SetRequest
  | p, [] => do
    finish closed
    match p.key, p.value with
    | some k, some v => return ⟨k, v, p.ttl.join⟩
    | _, _ => throw .mismatch
  | p, (k, f) :: r =>
    match k with
    | none => .error .malformed
    | some "key" =>
      if p.key.isSome then .error .mismatch
      else do readParts depth closed { p with key := some (← readString f) } r
    | some "value" =>
      if p.value.isSome then .error .mismatch
      else do readParts depth closed { p with value := some (← Value.read depth f) } r
    | some "ttl" =>
      if p.ttl.isSome then .error .mismatch
      else do readParts depth closed { p with ttl := some (← readTtl f) } r
    | some _ => do skip f; readParts depth closed p r

/-- The last field of an array, if it is there. -/
def readLast (closed : Bool) : List Form → Except Reject (Option Nat)
  | [] => (finish closed).map fun _ => none
  | f :: rest => do
    let ttl ← readTtl f
    finish (closed && rest.isEmpty)
    return ttl

def read : Form → Except Reject SetRequest
  | .obj members closed => readParts (maxDepth - 1) closed ⟨none, none, none⟩ members
  | .arr items closed =>
    match items with
    | [] => .error (missing closed)
    | [k] => do let _ ← readString k; throw (missing closed)
    | k :: v :: rest => do
      let key ← readString k
      let value ← Value.read (maxDepth - 1) v
      return ⟨key, value, ← readLast closed rest⟩
  | f => .error f.reject

end SetRequest

/-- A request for several keys. -/
structure MultiGetRequest where
  keys : List String

namespace MultiGetRequest

/-- Takes one member after another. -/
def readParts (closed : Bool) :
    Option (List String) → List (Option String × Form) → Except Reject MultiGetRequest
  | keys, [] => do
    finish closed
    match keys with
    | some ks => return ⟨ks⟩
    | none => throw .mismatch
  | keys, (k, f) :: r =>
    match k with
    | none => .error .malformed
    | some "keys" =>
      if keys.isSome then .error .mismatch
      else do readParts closed (some (← readList (maxDepth - 1) readString f)) r
    | some _ => do skip f; readParts closed keys r

def read : Form → Except Reject MultiGetRequest
  | .obj members closed => readParts closed none members
  | .arr [] closed => .error (missing closed)
  | .arr (f :: rest) closed => do
    let ks ← readList (maxDepth - 1) readString f
    finish (closed && rest.isEmpty)
    return ⟨ks⟩
  | f => .error f.reject

end MultiGetRequest

/-! ## Answers -/

/-- The answer about one key that was changed; `action` reads like `set` or `deleted`. -/
def keyAnswer (key action : String) : Json :=
  .obj [("message", .str ("Key '" ++ key ++ "' " ++ action ++ " successfully")), ("key", .str key)]

/-- The answer with the value of a key. -/
def valueAnswer (key : String) (v : Value) : Json := .obj [("key", .str key), ("value", v.toJson)]

/-- A slot of a batch: its value, or null. -/
def slotJson : Option Value → Json
  | some v => v.toJson
  | none => .null

/-- The answer to a batch read. -/
def batchAnswer (slots : List (Option Value)) (errors : List String) : Json :=
  .obj [("values", .arr (slots.map slotJson)), ("errors", .arr (errors.map .str))]

/-- The answer whether a key is there. -/
def existsAnswer (key : String) (present : Bool) : Json :=
  .obj [("key", .str key), ("exists", .bool present)]

/-- The answer that the server is well. -/
def healthAnswer (timestamp : String) : Json :=
  .obj [("status", .str "healthy"), ("timestamp", .str timestamp)]

/-- The answer that an error comes to. -/
def errorAnswer (e : CacheError) : Json :=
  .obj [("code", .ofNat e.code), ("error", .str e.message)]

/-- The HTTP status of an error. -/
def statusOf : CacheError → Nat
  | .keyAbsent _ | .keyExpired _ => 404
  | .notInteger _ | .incrementOverflow _ | .decrementOverflow _ | .invalidRequest _ => 400
  | .multiGetFailed _ _ => 207
  | .loadFailed _ _ | .persistFailed _ _ => 502
  | _ => 500

end LayeredCache.Http
