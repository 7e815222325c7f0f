import LayeredCache.Layer.Singleflight
import LayeredCache.Proofs.Flights
import LayeredCache.Proofs.Process

/-!
# Callers of shared loads

Callers of a cache that shares loads, watched from outside. The inner cache and the loader are any
processes over a part of the state of their own; whatever a caller asks of them is marked in a log,
and so is every flight that a caller joins and every flight that is taken off the list.

A caller goes through stages: the look into the inner cache, its place in a flight, and, if the
load is its to run, the load and the offer of its value. The last thing that a caller does, and all
that one does that is given up, is to give up its place; that it lets go of its flight later is
nothing that it does here, but happens to it.

Results:
* `flies_of_next?`: one step of a caller takes it from one stage to the next.
* `givenUp_of_wait`: what giving a waiting caller up does to the state.
* `stage_of_done`: the stages at which a call has ended.
-/

namespace LayeredCache

/-- What is seen of callers. -/
inductive Mark (ι : Type) where
  /-- A caller joined the flight of a number. -/
  | joined (i : ι) (flight : Nat)
  /-- A flight was taken off the list. -/
  | retired (flight : Nat) (key : String)
  /-- A caller's load begins. -/
  | began (i : ι)
  /-- A caller's load has ended. -/
  | ended (i : ι) (r : Except Cause Value)
  /-- A caller offers a value to the inner cache. -/
  | offered (i : ι) (key : String) (v : Value) (ttl : Duration)
  /-- A caller asks anything else of the inner cache than a value. -/
  | touched (i : ι)

/-- The caller that a mark is about. -/
def Mark.by? {ι : Type} : Mark ι → Option ι
  | .retired _ _ => none
  | .joined i _ | .began i | .ended i _ | .offered i _ _ _ | .touched i => some i

/-- The flights, the log, newest first, and the rest of the state. -/
structure Sky (ι ρ : Type) where
  flights : Flights
  log : List (Mark ι)
  rest : ρ

namespace Sky

variable {ι ρ : Type} [Clock ρ] [Journal ρ]

instance : Clock (Sky ι ρ) := ⟨fun s => Clock.instant s.rest⟩

instance : Journal (Sky ι ρ) := ⟨fun v t s => { s with rest := Journal.note v t s.rest }⟩

/-- Where the inner cache and the loader are at work. -/
def rested : Slot (Sky ι ρ) ρ := ⟨Sky.rest, fun r s => { s with rest := r }, fun _ _ => rfl⟩

/-- Marks something in the log. -/
def mark (m : Mark ι) (s : Sky ι ρ) : Sky ι ρ := { s with log := m :: s.log }

/-- The flights that are off the list now. -/
def retirements (old new : Flights) : List (Mark ι) :=
  (old.flights.filter fun f => f.listed &&
    !(new.flights.any fun g => g.listed && g.number == f.number)).map fun f =>
      .retired f.number f.key

/-- What is to be marked when a caller changes the flights. -/
def news (i : ι) (old new : Flights) : List (Mark ι) :=
  (if old.next < new.next then (new.find? old.next).toList.map fun f => .joined i f.number
    else []) ++ retirements old new

/-- The flights as a caller changes them. -/
def flown (i : ι) : Slot (Sky ι ρ) Flights where
  get := Sky.flights
  set fs s := { s with flights := fs, log := news i s.flights fs ++ s.log }
  get_set _ _ := rfl

/-! ## What the callers use -/

section Parts

variable (inner : Cache ρ) (load : Loader ρ) (i : ι)

/-- The loader, watched. -/
def seen : Loader (Sky ι ρ) := fun key => do
  Process.change (mark (.began i))
  let r ← (load key).embed rested
  Process.change (mark (.ended i r))
  return r

/-- An operation of the inner cache that a caller has no use for. -/
def touch {α : Type} (p : Process ρ α) : Process (Sky ι ρ) α := do
  Process.change (mark (.touched i))
  p.embed rested

/-- The inner cache, watched. -/
def watched : Cache (Sky ι ρ) where
  get key := (inner.get key).embed rested
  put key v ttl := do
    Process.change (mark (.offered i key v ttl))
    (inner.put key v ttl).embed rested
  getMulti keys := touch i (inner.getMulti keys)
  delete key := touch i (inner.delete key)
  step d key := touch i (inner.step d key)
  isExist key := touch i (inner.isExist key)
  clearAll := touch i inner.clearAll
  start payload := touch i (inner.start payload)

end Parts

/-! ## Stages -/

/-- How far a caller has come. -/
inductive Stage (ρ : Type) where
  /-- In the inner cache. -/
  | looking (q : Process ρ (Answer Value))
  | lineUp (me : Nat)
  | await (me : Nat)
  | ask (me : Nat)
  /-- About to begin its load. -/
  | start (me : Nat)
  | loading (me : Nat) (q : Process ρ (Except Cause Value))
  | offer (me : Nat) (v : Value)
  | putting (me : Nat) (v : Value) (q : Process ρ (Answer Unit))
  | settle (me : Nat) (o : Answer Value)
  | leave (me : Nat) (o : Answer Value)
  | ended (o : Answer Value)

variable (inner : Cache ρ) (load : Loader ρ) (ttl : Duration) (i : ι) (key : String)

/-- A call. -/
def call : Process (Sky ι ρ) (Answer Value) :=
  Singleflight.get Flights.part (watched inner i) (seen load i) ttl (flown i) key

namespace Stage

/-- A stage in a flight is guarded: whoever is given up gives up its place. -/
def aboard (me : Nat) (p : Process (Sky ι ρ) (Answer Value)) : Process (Sky ι ρ) (Answer Value) :=
  p.guarded ((flown i).modify (Flights.part me))

/-- What remains of a call. -/
def process : Stage ρ → Process (Sky ι ρ) (Answer Value)
  | .looking q => (q.embed rested).bind fun
    | .ok v => .done (.ok v)
    | .error _ => Singleflight.share Flights.part (watched inner i) (seen load i) ttl (flown i) key
  | .lineUp me => aboard i me do
    Process.change ((flown i).modify (Flights.lineUp me))
    Process.await fun s => s.flights.ready me
    Singleflight.ride (watched inner i) (seen load i) ttl (flown i) key me
  | .await me => aboard i me do
    Process.await fun s => s.flights.ready me
    Singleflight.ride (watched inner i) (seen load i) ttl (flown i) key me
  | .ask me => aboard i me
    (Singleflight.ride (watched inner i) (seen load i) ttl (flown i) key me)
  | .start me => aboard i me
    (((seen load i).fetch (watched inner i) ttl "Singleflight could not cache key" key).bind
      (Singleflight.finish (flown i) me))
  | .loading me q => aboard i me
    ((((q.embed rested).bind fun r => do
      Process.change (mark (.ended i r))
      return r).bind
        (Loader.keep (watched inner i) ttl "Singleflight could not cache key" key)).bind
          (Singleflight.finish (flown i) me))
  | .offer me v => aboard i me
    ((((watched inner i).put key v ttl).bind
      (Loader.kept "Singleflight could not cache key" key v)).bind
        (Singleflight.finish (flown i) me))
  | .putting me v q => aboard i me
    (((q.embed rested).bind (Loader.kept "Singleflight could not cache key" key v)).bind
      (Singleflight.finish (flown i) me))
  | .settle me o => aboard i me (Singleflight.finish (flown i) me o)
  | .leave me o => aboard i me (.done o)
  | .ended o => .done o

end Stage

omit [Clock ρ] in
theorem call_eq : call inner load ttl i key =
    (Stage.looking (inner.get key)).process inner load ttl i key := rfl

/-- The inner cache or the loader is at work. -/
def Elsewhere (s s' : Sky ι ρ) : Prop := ∃ r, s' = { s with rest := r }

/-- One step of a call. -/
inductive Flies (s : Sky ι ρ) : Stage ρ → Stage ρ → Sky ι ρ → Prop
  | look {q q' : Process ρ (Answer Value)} {s' : Sky ι ρ} (h : Elsewhere s s') :
      Flies s (.looking q) (.looking q') s'
  | join (e : CacheError) :
      Flies s (.looking (.done (.error e))) (.lineUp s.flights.next)
        ((flown i).set (s.flights.join key).2 s)
  | lineUp (me : Nat) :
      Flies s (.lineUp me) (.await me) ((flown i).set (s.flights.lineUp me) s)
  | await {me : Nat} (h : s.flights.ready me = true) : Flies s (.await me) (.ask me) s
  | take {me : Nat} {o : Answer Value} (h : s.flights.outcome? me = some o) :
      Flies s (.ask me) (.leave me o) s
  | lead {me : Nat} (h : s.flights.outcome? me = none) : Flies s (.ask me) (.start me) s
  | start (me : Nat) : Flies s (.start me) (.loading me (load key)) (mark (.began i) s)
  | load {me : Nat} {q q' : Process ρ (Except Cause Value)} {s' : Sky ι ρ}
      (h : Elsewhere s s') : Flies s (.loading me q) (.loading me q') s'
  | failed (me : Nat) (c : Cause) :
      Flies s (.loading me (.done (.error c))) (.settle me (.error (.loadFailed key c)))
        (mark (.ended i (.error c)) s)
  | loaded (me : Nat) (v : Value) :
      Flies s (.loading me (.done (.ok v))) (.offer me v) (mark (.ended i (.ok v)) s)
  | offer (me : Nat) (v : Value) :
      Flies s (.offer me v) (.putting me v (inner.put key v ttl))
        (mark (.offered i key v ttl) s)
  | put {me : Nat} {v : Value} {q q' : Process ρ (Answer Unit)} {s' : Sky ι ρ}
      (h : Elsewhere s s') : Flies s (.putting me v q) (.putting me v q') s'
  | refused {me : Nat} {v : Value} {e : CacheError} {s' : Sky ι ρ} (h : Elsewhere s s') :
      Flies s (.putting me v (.done (.error e))) (.settle me (.ok v)) s'
  | kept (me : Nat) (v : Value) :
      Flies s (.putting me v (.done (.ok ()))) (.leave me (.ok v))
        ((flown i).set (s.flights.settle me (.ok v)) s)
  | settle (me : Nat) (o : Answer Value) :
      Flies s (.settle me o) (.leave me o) ((flown i).set (s.flights.settle me o) s)
  | leave (me : Nat) (o : Answer Value) :
      Flies s (.leave me o) (.ended o) ((flown i).set (s.flights.part me) s)

omit [Clock ρ] [Journal ρ] in
theorem elsewhere_of_embed {s s' : Sky ι ρ} (h : s' = s ∨ ∃ r, s' = rested.set r s) :
    Elsewhere s s' := by
  rcases h with rfl | ⟨r, rfl⟩
  · exact ⟨s'.rest, rfl⟩
  · exact ⟨r, rfl⟩

variable {inner load ttl i key}

/-- **A call goes through its stages.** -/
theorem flies_of_next? {x : Stage ρ} {s s' : Sky ι ρ} {q : Process (Sky ι ρ) (Answer Value)}
    (h : (x.process inner load ttl i key).next? s = some (q, s')) :
    ∃ x' : Stage ρ, q = x'.process inner load ttl i key ∧ Flies inner load ttl i key s x x' s' := by
  cases x with
  | looking p =>
    rcases Process.next?_bind_cases h with ⟨q', hq, rfl⟩ | ⟨r, hr, hn⟩
    · obtain ⟨p', rfl, hs⟩ := Process.next?_embed hq
      exact ⟨.looking p', rfl, .look (elsewhere_of_embed hs)⟩
    · obtain rfl := Process.embed_eq_done hr
      cases r with
      | ok v => simp [Process.next?] at hn
      | error e =>
        obtain ⟨rfl, rfl⟩ := Process.next?_act hn
        exact ⟨.lineUp s.flights.next, rfl, .join e⟩
  | lineUp me =>
    obtain ⟨rfl, rfl⟩ := Process.next?_act h
    exact ⟨.await me, rfl, .lineUp me⟩
  | await me =>
    obtain ⟨hr, rfl, rfl⟩ := Process.next?_wait h
    exact ⟨.ask me, rfl, .await hr⟩
  | ask me =>
    obtain ⟨rfl, rfl⟩ := Process.next?_act h
    cases ho : s.flights.outcome? me with
    | some o =>
      refine ⟨.leave me o, ?_, .take ho⟩
      change Stage.aboard i me (Process.bind (.done (s.flights.outcome? me)) _) = _
      rw [ho]
      rfl
    | none =>
      refine ⟨.start me, ?_, .lead ho⟩
      change Stage.aboard i me (Process.bind (.done (s.flights.outcome? me)) _) = _
      rw [ho]
      rfl
  | start me =>
    obtain ⟨rfl, rfl⟩ := Process.next?_act h
    exact ⟨.loading me (load key), rfl, .start me⟩
  | loading me p =>
    cases p with
    | done r =>
      obtain ⟨rfl, rfl⟩ := Process.next?_act h
      cases r with
      | error c => exact ⟨.settle me (.error (.loadFailed key c)), rfl, .failed me c⟩
      | ok v => exact ⟨.offer me v, rfl, .loaded me v⟩
    | act g k =>
      obtain ⟨rfl, rfl⟩ := Process.next?_act h
      exact ⟨.loading me (k s.rest), rfl, .load ⟨g s.rest, rfl⟩⟩
    | wait w c k =>
      obtain ⟨-, rfl, rfl⟩ := Process.next?_wait h
      exact ⟨.loading me (k _), rfl, .load ⟨_, rfl⟩⟩
  | offer me v =>
    obtain ⟨rfl, rfl⟩ := Process.next?_act h
    exact ⟨.putting me v (inner.put key v ttl), rfl, .offer me v⟩
  | putting me v p =>
    cases p with
    | done r =>
      cases r with
      | error e =>
        obtain ⟨rfl, rfl⟩ := Process.next?_act h
        exact ⟨.settle me (.ok v), rfl, .refused ⟨_, rfl⟩⟩
      | ok u =>
        obtain ⟨rfl, rfl⟩ := Process.next?_act h
        exact ⟨.leave me (.ok v), rfl, .kept me v⟩
    | act g k =>
      obtain ⟨rfl, rfl⟩ := Process.next?_act h
      exact ⟨.putting me v (k s.rest), rfl, .put ⟨g s.rest, rfl⟩⟩
    | wait w c k =>
      obtain ⟨-, rfl, rfl⟩ := Process.next?_wait h
      exact ⟨.putting me v (k _), rfl, .put ⟨_, rfl⟩⟩
  | settle me o =>
    obtain ⟨rfl, rfl⟩ := Process.next?_act h
    exact ⟨.leave me o, rfl, .settle me o⟩
  | leave me o =>
    obtain ⟨rfl, rfl⟩ := Process.next?_act h
    exact ⟨.ended o, rfl, .leave me o⟩
  | ended o => simp [Stage.process, Process.next?] at h

/-- The number of a caller that is in a flight. -/
def Stage.number? : Stage ρ → Option Nat
  | .looking _ | .ended _ => none
  | .lineUp me | .await me | .ask me | .start me | .loading me _ | .offer me _ | .putting me _ _
  | .settle me _ | .leave me _ => some me

/-- What giving a caller up does to the state: it gives up its place in its flight, if it is in
one. -/
inductive GivenUp (i : ι) (s : Sky ι ρ) : Option Nat → Sky ι ρ → Prop
  | outside {s' : Sky ι ρ} (h : Elsewhere s s') : GivenUp i s none s'
  | aboard {me : Nat} {s' : Sky ι ρ} (h : Elsewhere s s') :
      GivenUp i s (some me) ((flown i).set (s'.flights.part me) s')

omit [Clock ρ] in
theorem givenUp_of_wait {x : Stage ρ} {w : Wait (Sky ι ρ)} {c : Sky ι ρ → Sky ι ρ}
    {k : Sky ι ρ → Process (Sky ι ρ) (Answer Value)}
    (h : x.process inner load ttl i key = .wait w c k) (s : Sky ι ρ) :
    GivenUp i s x.number? (c s) := by
  cases x with
  | looking p =>
    cases p with
    | done r => cases r <;> cases h
    | act g k => cases h
    | wait w' c' k' =>
      obtain ⟨-, rfl, -⟩ := Process.wait.inj h
      exact .outside ⟨_, rfl⟩
  | await me =>
    obtain ⟨-, rfl, -⟩ := Process.wait.inj h
    exact .aboard ⟨s.rest, rfl⟩
  | loading me p =>
    cases p with
    | wait w' c' k' =>
      obtain ⟨-, rfl, -⟩ := Process.wait.inj h
      exact .aboard ⟨_, rfl⟩
    | _ => cases h
  | putting me v p =>
    cases p with
    | wait w' c' k' =>
      obtain ⟨-, rfl, -⟩ := Process.wait.inj h
      exact .aboard ⟨_, rfl⟩
    | done r => cases r <;> cases h
    | act g k => cases h
  | _ => cases h

omit [Clock ρ] in
/-- The stages at which a call has ended. -/
theorem stage_of_done {x : Stage ρ} {r : Answer Value}
    (h : x.process inner load ttl i key = .done r) :
    x = .ended r ∨ ∃ v, r = .ok v ∧ x = .looking (.done r) := by
  cases x with
  | looking p =>
    cases p with
    | done r' =>
      cases r' with
      | ok v =>
        obtain rfl := Process.done.inj h
        exact .inr ⟨v, rfl, rfl⟩
      | error e => cases h
    | _ => cases h
  | loading me p => cases p <;> cases h
  | putting me v p =>
    cases p with
    | done r' => cases r' <;> cases h
    | _ => cases h
  | ended o =>
    obtain rfl := Process.done.inj h
    exact .inl rfl
  | _ => cases h

end Sky
end LayeredCache
