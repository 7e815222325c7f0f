import LayeredCache.Layer.CacheAside
import LayeredCache.Layer.ReadThrough
import LayeredCache.Layer.Singleflight
import LayeredCache.Layer.WriteBack
import LayeredCache.Layer.WriteDelete
import LayeredCache.Layer.WriteThrough
import LayeredCache.Registry
import LayeredCache.Session.State

/-!
# Stacks of layers

A stack is a list of layers from the bottom up. Each layer is told by its settings; it is built
into the state once, and its cache is put together from the one below.

Results:
* `cacheOf_cons`: the cache of a stack is its top layer over the cache of the rest.
-/

namespace LayeredCache.Session

/-- A layer and its settings. -/
inductive Layer where
  /-- A memory engine, with or without a receiver for evicted entries. -/
  | memory (watched : Bool)
  /-- An engine built by name from the standard registry. -/
  | registry (name payload : String)
  | cacheAside (ttl : Duration)
  | readThrough (ttl : Duration)
  | writeThrough
  | writeDelete (limit : Option Duration)
  | writeDoubleDelete (interval timeout : Duration) (limit : Option Duration)
  | writeBack
  | singleflight (ttl : Duration)
  /-- With an offset of its own, or the standard ones. -/
  | randomExpire (offset : Option Duration)
  /-- With a filter sized for a number of items at a rate, or an exact one. -/
  | guard (policy : Guard.Policy) (size : Option (Nat × Float)) (keys : List String)
      (missing : List Guard.Part)
  | preload (config : Preload.Config)
  | faulty (faults : Faulty.Faults)

namespace Layer

open State

/-- A part of a guard, unless it is missing. -/
def given {α : Type} (missing : List Guard.Part) (p : Guard.Part) (a : α) : Option α :=
  if missing.contains p then none else some a

/-- The guard of layer `i` from the parts that are given. -/
def guardOf (i : Nat) (inner : Cache State) (policy : Guard.Policy) (missing : List Guard.Part) :
    Answer (Cache State) :=
  Guard.assemble (given missing .inner inner) (given missing .loader loader)
    (given missing .filter (membership i)) policy

/-- Number `i` of a stack: the layer over the cache below it. -/
def onto (i : Nat) (inner : Cache State) : Layer → Cache State
  | .memory _ | .registry _ _ => (State.memory i).cache
  | .cacheAside ttl => CacheAside.cache inner loader store ttl
  | .readThrough ttl => ReadThrough.cache inner loader ttl
  | .writeThrough => WriteThrough.cache inner store
  | .writeDelete limit => WriteDelete.cache inner store limit
  | .writeDoubleDelete _ _ limit =>
    WriteDelete.doubleCache inner store limit fun key => launch (.secondDelete i key)
  | .writeBack => inner
  | .singleflight ttl => Singleflight.cache inner loader ttl (flightsSlot i)
  | .randomExpire offset =>
    RandomExpire.cache inner fun s =>
      match offset with
      | some d => (d, s)
      | none => drawOffset s
  | .guard policy _ _ missing => ((guardOf i inner policy missing).toOption).getD inner
  | .preload config =>
    match config.sentinelTtl with
    | .ok ttl => Preload.cache inner (sentinel i) config.realTtl ttl
    | .error _ => inner
  | .faulty faults => Faulty.cache inner faults (callsSlot i)

end Layer

/-- The cache of a stack given from the top down; without layers it is a memory engine. -/
def cacheOf : List Layer → Cache State
  | [] => (State.memory 0).cache
  | l :: below => l.onto below.length (cacheOf below)

theorem cacheOf_cons (l : Layer) (below : List Layer) :
    cacheOf (l :: below) = l.onto below.length (cacheOf below) := rfl

/-- Layers from the bottom up. -/
structure Stack where
  layers : List Layer

namespace Stack

open State

/-- The cache of the lowest `n` layers. -/
def cacheBelow (stack : Stack) (n : Nat) : Cache State := cacheOf (stack.layers.take n).reverse

/-- The cache of layer `i`. -/
def cacheAt (stack : Stack) (i : Nat) : Cache State := stack.cacheBelow (i + 1)

/-- The cache at the top. -/
def top (stack : Stack) : Cache State := cacheOf stack.layers.reverse

/-- The number of the top layer. -/
def topIndex (stack : Stack) : Nat := stack.layers.length - 1

/-- What a job does. -/
def jobBody (stack : Stack) : Job → Process State Unit
  | .secondDelete i key =>
    match stack.layers[i]? with
    | some (.writeDoubleDelete interval timeout _) =>
      WriteDelete.secondDelete (stack.cacheBelow i) interval timeout key
    | _ => pure ()
  | .refresh i key =>
    match stack.layers[i]? with
    | some (.preload config) =>
      match config.sentinelTtl with
      | .ok ttl =>
        Preload.refresh (stack.cacheBelow i) loader (sentinel i) (grip i) config.realTtl ttl
          config.retries key
      | .error _ => pure ()
    | _ => pure ()

/-! ## Building -/

/-- Changes an engine if that succeeds. -/
def changeEngine (slot : Slot State Engine) (f : Engine → Answer Engine) (s : State) :
    Answer State :=
  (f (slot.get s)).map fun e => slot.set e s

/-- Builds one layer into the state. -/
def install (i : Nat) (below : Cache State) (l : Layer) (s : State) : Answer State :=
  match l with
  | .memory true => changeEngine (engineSlot i) Engine.watch s
  | .registry name payload =>
    match Registry.standard.newCache true (Clock.instant s) name payload [] with
    | (.ok n, engines) => .ok ((engineSlot i).set ((engines[n]?).getD .empty) s)
    | (.error e, _) => .error e
  | .writeBack => changeEngine (engineSlot (i - 1)) Engine.watch s
  | .guard policy size keys missing => do
    let filter := match size with
      | some (items, rate) => Membership.bits (.empty (.ofRate items rate))
      | none => .exact []
    let s := keys.foldl (fun s k => addFilter i k s) ((filterSlot i).set filter s)
    let _ ← Layer.guardOf i below policy missing
    return s
  | .preload config =>
    changeEngine (sentinelSlot i) (fun e => do
      return (← Preload.prepare config (Clock.instant s) e).2) s
  | _ => .ok s

/-- Builds the layers from number `i` on; answers the number of the first that fails. -/
def build (stack : Stack) (i : Nat) : List Layer → State → Except (Nat × CacheError) State
  | [], s => .ok s
  | l :: ls, s =>
    match install i (stack.cacheBelow i) l s with
    | .ok s => build stack (i + 1) ls s
    | .error e => .error (i, e)

end Stack
end LayeredCache.Session
