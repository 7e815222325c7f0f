import LayeredCache.Json.Reading
import LayeredCache.Duration
import LayeredCache.Error

/-!
# Configuration of the memory engine

The engine takes a JSON payload with one member it knows, `interval`: the reclamation period in
seconds. A blank payload stands for the default, and so does a payload without the member. A
number below one turns reclamation off.

What was wrong with a payload is told in the words of its reader; of these only that there are some
is kept.
-/

namespace LayeredCache

/-- The configuration of a memory engine. -/
structure EngineConfig where
  /-- Seconds between reclamation passes; none below one. -/
  interval : Int
  deriving DecidableEq, Repr

namespace EngineConfig

open Json Json.Form

/-- One pass a minute. -/
def standard : EngineConfig := ⟨60⟩

/-- A 64-bit interval. -/
def readInterval (f : Form) : Except Reject Int :=
  (readInt (-0x8000_0000_0000_0000) 0x7fff_ffff_ffff_ffff f).map (·.1)

/-- Takes one member after another; unknown ones are skipped. -/
def readMembers (closed : Bool) :
    Option Int → List (Option String × Form) → Except Reject EngineConfig
  | seen, [] => (finish closed).map fun _ => (seen.map EngineConfig.mk).getD standard
  | seen, (k, f) :: r =>
    match k with
    | none => .error .malformed
    | some "interval" =>
      if seen.isSome then .error .mismatch
      else do readMembers closed (some (← readInterval f)) r
    | some _ => do skip f; readMembers closed seen r

/-- A configuration from an object, or from an array of its one field. -/
def read : Form → Except Reject EngineConfig
  | .obj members closed => readMembers closed none members
  | .arr [] closed => (finish closed).map fun _ => standard
  | .arr (f :: rest) closed => do
    let n ← readInterval f
    finish (closed && rest.isEmpty)
    return ⟨n⟩
  | f => .error f.reject

/-- The configuration that a payload writes. The error does not repeat what was wrong with it. -/
def parse (payload : String) : Answer EngineConfig :=
  if (Text.trim payload.toList).isEmpty then .ok standard
  else match (Document.ofString payload).read read with
    | .ok c => .ok c
    | .error _ => .error (.invalidMemoryConfig "<json>")

/-- The time between passes; zero turns them off. -/
def period (c : EngineConfig) : Duration := Duration.ofSecs c.interval.toNat

end EngineConfig
end LayeredCache
