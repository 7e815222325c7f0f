import LayeredCache.Duration
import LayeredCache.Engine.Basic
import LayeredCache.Json.Printer
import LayeredCache.Registry
import LayeredCache.Text.Utf8

/-!
# Configuration from the environment

The settings of a server, each from one variable. A variable that is unset, is no UTF-8 or does
not write a number in range leaves its setting at the default, whatever the others hold. Variables
are bytes, and a number is written in ASCII digits with nothing around it.
-/

namespace LayeredCache

/-- The values of the variables that are set, as bytes. -/
structure Environment where
  adapter : Option (List UInt8)
  gcInterval : Option (List UInt8)
  defaultTtl : Option (List UInt8)
  serverPort : Option (List UInt8)

/-- The settings of a server. -/
structure Settings where
  /-- The name of the adapter to serve. -/
  adapter : String
  /-- Seconds between reclamation passes; none below one. -/
  gcInterval : Int
  /-- Seconds that a value lives when its writer does not say; zero means forever. -/
  defaultTtl : Nat
  serverPort : Nat
  deriving DecidableEq, Repr

namespace Settings

/-- The settings where nothing is set. -/
def standard : Settings := ⟨Registry.memoryName, EngineConfig.standard.interval, 0, 3000⟩

/-- The characters of a variable, if it is set and is a text. -/
def textOf (v : Option (List UInt8)) : Option (List Char) := (v.bind Text.text?).map String.toList

/-- The settings that an environment gives. -/
def ofEnvironment (e : Environment) : Settings where
  adapter := ((textOf e.adapter).map String.ofList).getD standard.adapter
  gcInterval :=
    ((textOf e.gcInterval).bind (Text.signed? 0x8000_0000_0000_0000)).getD standard.gcInterval
  defaultTtl :=
    ((textOf e.defaultTtl).bind (Text.unsigned? 0x1_0000_0000_0000_0000)).getD standard.defaultTtl
  serverPort := ((textOf e.serverPort).bind (Text.unsigned? 0x1_0000)).getD standard.serverPort

/-- The payload that the adapter is started with. -/
def payload (s : Settings) : String := (Json.obj [("interval", .ofInt s.gcInterval)]).render

/-- The time that a value lives when its writer does not say. -/
def ttl (s : Settings) : Duration := .ofSecs s.defaultTtl

end Settings
end LayeredCache
