import LayeredCache.Error

/-!
# Flights

A flight is one shared load of a key. Callers join the flight listed for their key, or start one.
The members of a flight line up for the load, and the first in line of an unsettled flight runs it;
when it is given up, the next in line takes over. Once the load ends the flight is settled and
every member takes its outcome.

A member leaves in two steps. With the list to itself it looks at its flight (`part`): if the
flight is settled, or nobody else refers to it besides the list and the member, it is taken off the
list, so that the next caller starts a new one. Then, no longer with the list to itself, the member
lets go of the flight (`release`), so until then others still count it. A flight off the list still
serves its members, and a flight is gone when nobody refers to it.

The place in line is given up with the look. Where a caller that is given up yields the load a
moment before it looks at its flight, the one that takes over does so here a moment later; nothing
that is counted depends on it.
-/

namespace LayeredCache

/-- One shared load. -/
structure Flight where
  /-- The number of the caller that started the flight. -/
  number : Nat
  key : String
  /-- New callers of the key join this flight. -/
  listed : Bool
  /-- The callers sharing the load, in the order they joined. -/
  members : List Nat
  /-- The members in line for the load, the one that runs it first. -/
  line : List Nat
  /-- What the load came to, once it has ended. -/
  outcome : Option (Answer Value)
  /-- The callers that have given up their places and not yet let go. -/
  leaving : List Nat

namespace Flight

/-- A flight of a key that nobody has joined. -/
def new (number : Nat) (key : String) : Flight := ⟨number, key, true, [], [], none, []⟩

/-- The caller shares this flight. -/
def has (caller : Nat) (f : Flight) : Bool := f.members.contains caller

/-- The caller has given up its place in this flight and not yet let go. -/
def leftBy (caller : Nat) (f : Flight) : Bool := f.leaving.contains caller

/-- New callers of the key join this flight. -/
def isFor (key : String) (f : Flight) : Bool := f.listed && f.key == key

/-- How many refer to the flight: the list, its members, and those that have not yet let go. -/
def references (f : Flight) : Nat :=
  (if f.listed then 1 else 0) + f.members.length + f.leaving.length

/-- The flight with one more member. -/
def board (caller : Nat) (f : Flight) : Flight := { f with members := f.members ++ [caller] }

/-- The flight after a member has given up its place. The list and the member itself, which has not
let go yet, are two of those who refer to it. -/
def part (caller : Nat) (f : Flight) : Flight :=
  { f with
    members := f.members.erase caller
    line := f.line.erase caller
    listed := f.listed && f.outcome.isNone && decide (2 < f.references)
    leaving := f.leaving ++ [caller] }

/-- The flight after a caller has let go. -/
def release (caller : Nat) (f : Flight) : Flight := { f with leaving := f.leaving.erase caller }

end Flight

/-- The flights of a cache, and the number of the next caller. -/
structure Flights where
  flights : List Flight
  next : Nat
  deriving Inhabited

namespace Flights

def empty : Flights := ⟨[], 0⟩

/-- Changes the flights that satisfy `p`. -/
def change (p : Flight → Bool) (g : Flight → Flight) (fs : Flights) : Flights :=
  { fs with flights := fs.flights.map fun f => if p f then g f else f }

/-- Lists a new flight for a key that has none. -/
def enlist (number : Nat) (key : String) (fs : Flights) : Flights :=
  if fs.flights.any (Flight.isFor key) then fs
  else { fs with flights := fs.flights ++ [.new number key] }

/-- A new caller joins the listed flight of its key, or starts one; answers the caller's number. -/
def join (key : String) (fs : Flights) : Nat × Flights :=
  let me := fs.next
  (me, (enlist me key { fs with next := me + 1 }).change (Flight.isFor key) (Flight.board me))

/-- A caller lines up for the load of its flight. -/
def lineUp (caller : Nat) (fs : Flights) : Flights :=
  fs.change (Flight.has caller) fun f => { f with line := f.line ++ [caller] }

/-- The flight that a caller shares. -/
def find? (fs : Flights) (caller : Nat) : Option Flight :=
  fs.flights.find? (Flight.has caller)

/-- What the caller's load came to. -/
def outcome? (caller : Nat) (fs : Flights) : Option (Answer Value) :=
  (fs.find? caller).bind (·.outcome)

/-- It is this caller's turn to run the load. -/
def leads (caller : Nat) (fs : Flights) : Bool :=
  (fs.find? caller).any fun f => f.outcome.isNone && f.line.head? == some caller

/-- The caller has an outcome or has to run the load. -/
def ready (caller : Nat) (fs : Flights) : Bool := (fs.outcome? caller).isSome || fs.leads caller

/-- Settles the caller's flight. -/
def settle (caller : Nat) (o : Answer Value) (fs : Flights) : Flights :=
  fs.change (Flight.has caller) fun f => { f with outcome := some o }

/-- A caller gives up its place, and takes its flight off the list if that is to be done. -/
def part (caller : Nat) (fs : Flights) : Flights :=
  fs.change (Flight.has caller) (Flight.part caller)

/-- A caller that has given up its place lets go of its flight. -/
def release (caller : Nat) (fs : Flights) : Flights :=
  let fs := fs.change (Flight.leftBy caller) (Flight.release caller)
  { fs with flights := fs.flights.filter fun f => decide (0 < f.references) }

/-- A caller leaves its flight, and nobody does anything meanwhile. -/
def leave (caller : Nat) (fs : Flights) : Flights := release caller (part caller fs)

/-- The number of flights that new callers can join. -/
def inFlight (fs : Flights) : Nat := fs.flights.countP (·.listed)

end Flights
end LayeredCache
