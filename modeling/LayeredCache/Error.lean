import LayeredCache.Value.Basic
import LayeredCache.Text.Blank
import LayeredCache.Text.Numeral

/-!
# Errors

What can go wrong in a cache, each with a stable numeric code. The text of an error starts with
its code, so that the code survives when the text is all that is left: `ERROR-4002005, key not
exist: k`.

A collaborator (a loader, a store function) fails with a `Cause`: a root and the contexts wrapped
around it. The root is a text, or one of the failures that are told apart by their kind: a timer
that ran out, and input or output that took too long or found nothing.

Results:
* `Cause.isDeadline_wrap`: wrapping a cause in a context does not change whether it is a deadline.
-/

namespace LayeredCache

/-! ## Causes -/

/-- The innermost reason of a collaborator's failure. -/
inductive Cause.Root where
  /-- A reason with no kind of its own. -/
  | plain (text : String)
  /-- Input or output that took too long. -/
  | timedOut (text : String)
  /-- Input or output on something that is not there. -/
  | notFound (text : String)
  /-- A timer ran out. -/
  | elapsed
  deriving DecidableEq

/-- A collaborator's failure: its root, and the contexts around it, innermost first. -/
structure Cause where
  root : Cause.Root
  contexts : List String
  deriving DecidableEq

namespace Cause

def Root.text : Root → String
  | .plain t | .timedOut t | .notFound t => t
  | .elapsed => "deadline has elapsed"

/-- The contexts from the outermost in, then the root. -/
def text (c : Cause) : String := ": ".intercalate (c.contexts.reverse ++ [c.root.text])

/-- The collaborator ran out of time. -/
def isDeadline (c : Cause) : Bool :=
  match c.root with
  | .timedOut _ | .elapsed => true
  | _ => false

/-- Adds a context around a cause. -/
def wrap (context : String) (c : Cause) : Cause := ⟨c.root, c.contexts ++ [context]⟩

/-- A timer ran out. -/
def timer : Cause := ⟨.elapsed, []⟩

/-- A reason with no kind of its own. -/
def ofText (text : String) : Cause := ⟨.plain text, []⟩

theorem isDeadline_wrap (context : String) (c : Cause) :
    (c.wrap context).isDeadline = c.isDeadline := rfl

end Cause

/-! ## Errors -/

inductive CacheError where
  | unknownAdapter (name : String)
  | duplicateAdapter (name : String)
  | invalidMemoryConfig (reason : String)
  | alreadyStarted
  | keyAbsent (key : String)
  | keyExpired (key : String)
  | notInteger (key : String)
  | incrementOverflow (key : String)
  | decrementOverflow (key : String)
  /-- A batch read with failures: a slot for each key asked for, and a text for each empty slot. -/
  | multiGetFailed (slots : List (Option Value)) (failures : List String)
  | loadFailed (key : String) (cause : Cause)
  | persistFailed (key : String) (cause : Cause)
  | invalidFilterConfig (reason : String)
  | invalidPreloadConfig (reason : String)
  | invalidRequest (reason : String)

/-- The answer of a cache operation. -/
abbrev Answer (α : Type) := Except CacheError α

namespace CacheError

/-- The stable number of an error. -/
def code : CacheError → Nat
  | .unknownAdapter _ => 4002001
  | .duplicateAdapter _ => 4002002
  | .invalidMemoryConfig _ => 4002003
  | .alreadyStarted => 4002004
  | .keyAbsent _ => 4002005
  | .keyExpired _ => 4002006
  | .notInteger _ => 4002007
  | .incrementOverflow _ => 4002008
  | .decrementOverflow _ => 4002009
  | .multiGetFailed _ _ => 4002010
  | .loadFailed _ _ => 4002011
  | .persistFailed _ _ => 4002012
  | .invalidFilterConfig _ => 4002013
  | .invalidPreloadConfig _ => 4002014
  | .invalidRequest _ => 4002015

/-- Every code, in order. -/
def codes : List Nat := (List.range 15).map (4002001 + ·)

/-- The text of an error. It begins with the code. -/
def message : CacheError → String
  | .unknownAdapter n => "ERROR-4002001, unknown adapter name: " ++ n
  | .duplicateAdapter n => "ERROR-4002002, adapter already registered: " ++ n
  | .invalidMemoryConfig r => "ERROR-4002003, invalid memory cache config: " ++ r
  | .alreadyStarted => "ERROR-4002004, reclamation loop already started"
  | .keyAbsent k => "ERROR-4002005, key not exist: " ++ k
  | .keyExpired k => "ERROR-4002006, key expired: " ++ k
  | .notInteger k => "ERROR-4002007, value of key " ++ k ++ " is not an integer type"
  | .incrementOverflow k => "ERROR-4002008, increment of key " ++ k ++ " overflows"
  | .decrementOverflow k => "ERROR-4002009, decrement of key " ++ k ++ " overflows"
  | .multiGetFailed _ fs => "ERROR-4002010, multi get failed: " ++ "; ".intercalate fs
  | .loadFailed k c => "ERROR-4002011, load func failed for key " ++ k ++ ": " ++ c.text
  | .persistFailed k c => "ERROR-4002012, persist cache failed for key " ++ k ++ ": " ++ c.text
  | .invalidFilterConfig r => "ERROR-4002013, invalid bloom filter cache config: " ++ r
  | .invalidPreloadConfig r => "ERROR-4002014, invalid preload cache config: " ++ r
  | .invalidRequest r => "ERROR-4002015, invalid request: " ++ r

/-- The key is absent or expired. -/
def isAbsent : CacheError → Bool
  | .keyAbsent _ | .keyExpired _ => true
  | _ => false

/-- The collaborator's failure behind an error. -/
def cause? : CacheError → Option Cause
  | .loadFailed _ c | .persistFailed _ c => some c
  | _ => none

/-- The text after a leading word. -/
def afterWord : List Char → List Char → Option (List Char)
  | [], cs => some cs
  | w :: ws, c :: cs => if w = c then afterWord ws cs else none
  | _ :: _, [] => none

/-- The code that an error's text starts with: after leading blanks, `ERROR-` and what stands
before the first comma, trimmed, read as a number below 2^32. -/
def parseCode? (text : String) : Option Nat := do
  let rest ← afterWord "ERROR-".toList (Text.trimStart text.toList)
  if ',' ∈ rest then Text.unsigned? 0x1_0000_0000 (Text.trim (rest.takeWhile (· ≠ ','))) else none

end CacheError
end LayeredCache
