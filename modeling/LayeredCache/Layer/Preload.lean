import LayeredCache.Layer.Memory

/-!
# Preload

Hot keys are refreshed before they expire. Every write also arms a sentinel, an entry in a private
engine that expires `ahead` before the real one. When the sentinel is evicted the value is loaded
again, with retries, and both entries are written anew.

A refresh runs by itself. After its load it looks for the sentinel engine, and stops if that is
gone. How it looks, and how it holds on to the engine while it writes, is a parameter (`Grip`).

Refreshes of one key are not kept apart: nothing prevents that a second one is called for while the
first is at work, and they may write in any order.

Results:
* `sentinelTtl_eq_ok_iff`: the settings that are accepted, and the life of a sentinel under them.
-/

namespace LayeredCache.Preload

/-- The settings of a preloading cache. -/
structure Config where
  /-- The time to live of the real entry. -/
  realTtl : Duration
  /-- How long before expiry the refresh begins. -/
  ahead : Duration
  /-- Further attempts after the first failed load. -/
  retries : Nat
  /-- The time between looks for expired sentinels. -/
  checkInterval : Duration

namespace Config

/-- Three retries, and a look every second or every `ahead`, whichever is shorter. -/
def standard (realTtl ahead : Duration) : Config :=
  ⟨realTtl, ahead, 3, ahead.shorter (.ofSecs 1)⟩

/-- The life of a sentinel, if the settings make sense. -/
def sentinelTtl (c : Config) : Answer Duration :=
  if c.ahead.isZero then
    .error (.invalidPreloadConfig "ahead window must be greater than zero")
  else if c.checkInterval.isZero || c.ahead < c.checkInterval then
    .error (.invalidPreloadConfig ("check interval " ++ c.checkInterval.text ++
      " must be non-zero and within ahead window " ++ c.ahead.text))
  else if c.ahead < c.realTtl then .ok (c.realTtl.sub c.ahead)
  else .error (.invalidPreloadConfig ("real ttl " ++ c.realTtl.text ++
    " must exceed ahead window " ++ c.ahead.text))

theorem sentinelTtl_eq_ok_iff {c : Config} {d : Duration} :
    c.sentinelTtl = .ok d ↔
      (0 < c.checkInterval.toNanos ∧ c.checkInterval.toNanos ≤ c.ahead.toNanos ∧
        c.ahead.toNanos < c.realTtl.toNanos) ∧ d = c.realTtl.sub c.ahead := by
  unfold sentinelTtl
  by_cases h₁ : c.ahead.isZero = true
  · rw [if_pos h₁]
    rw [Duration.isZero_iff] at h₁
    simp only [reduceCtorEq, false_iff]
    omega
  by_cases h₂ : (c.checkInterval.isZero || decide (c.ahead < c.checkInterval)) = true
  · rw [if_neg h₁, if_pos h₂]
    rw [Bool.or_eq_true, Duration.isZero_iff, decide_eq_true_eq, Duration.lt_iff] at h₂
    simp only [reduceCtorEq, false_iff]
    omega
  rw [if_neg h₁, if_neg h₂]
  rw [Bool.or_eq_true, Duration.isZero_iff, decide_eq_true_eq, Duration.lt_iff] at h₂
  by_cases h₃ : c.ahead < c.realTtl
  · rw [if_pos h₃]
    rw [Duration.lt_iff] at h₃
    simp only [Except.ok.injEq]
    exact ⟨fun h => ⟨⟨by omega, by omega, h₃⟩, h.symm⟩, fun h => h.2.symm⟩
  · rw [if_neg h₃]
    rw [Duration.lt_iff] at h₃
    simp only [reduceCtorEq, false_iff]
    omega

end Config

/-- Makes an engine ready for sentinels if the settings make sense: what it evicts has a receiver,
and its loop runs. Answers the life of a sentinel, too. -/
def prepare (c : Config) (now : Nat) (e : Engine) : Answer (Duration × Engine) := do
  let ttl ← c.sentinelTtl
  return (ttl, ← (← e.watch).start true now c.checkInterval)

variable {σ : Type} [Clock σ]

/-- The marker that arms a sentinel. -/
def marker : Value := .bool true

/-- Puts or renews the sentinel of a key. -/
def arm (sentinel : Memory σ) (ttl : Duration) (key : String) : Process σ (Answer Unit) :=
  sentinel.cache.put key marker ttl

/-- Writes the value with the real time to live whatever the caller asks for, then arms the
sentinel. -/
def put (inner : Cache σ) (sentinel : Memory σ) (realTtl sentinelTtl : Duration) (key : String)
    (v : Value) : Process σ (Answer Unit) := do
  match ← inner.put key v realTtl with
  | .error e => return .error e
  | .ok () => arm sentinel sentinelTtl key

/-- Disarms the sentinel, then removes the key. -/
def delete (inner : Cache σ) (sentinel : Memory σ) (key : String) : Process σ (Answer Unit) := do
  match ← sentinel.cache.delete key with
  | .error e => return .error e
  | .ok () => inner.delete key

/-- Disarms every sentinel, then removes every key. -/
def clearAll (inner : Cache σ) (sentinel : Memory σ) : Process σ (Answer Unit) := do
  match ← sentinel.cache.clearAll with
  | .error e => return .error e
  | .ok () => inner.clearAll

/-- Keeps the inner cache warm. -/
def cache (inner : Cache σ) (sentinel : Memory σ) (realTtl sentinelTtl : Duration) : Cache σ :=
  { inner with
    put := fun key v _ => put inner sentinel realTtl sentinelTtl key v
    delete := delete inner sentinel
    clearAll := clearAll inner sentinel }

/-! ## Refreshing -/

/-- How a refresh holds on to the sentinel engine: `hold` succeeds while the engine is there, and
keeps it there until `release`. -/
structure Grip (σ : Type) where
  hold : σ → Bool × σ
  release : σ → σ

variable [Journal σ]

omit [Clock σ] in
/-- Loads a key with `left` more attempts after a failure, out of `retries`. -/
def attempts (load : Loader σ) (retries : Nat) (key : String) : Nat → Process σ (Option Value)
  | 0 => do
    match ← load key with
    | .ok v => return some v
    | .error c =>
      Process.note .error ("Preload of key " ++ key ++ " gave up after " ++
        toString (retries + 1) ++ " attempts: " ++ c.text)
      return none
  | left + 1 => do
    match ← load key with
    | .ok v => return some v
    | .error c =>
      Process.note .warning ("Preload of key " ++ key ++ " failed (attempt " ++
        toString (retries - left) ++ "): " ++ c.text)
      attempts load retries key left

omit [Clock σ] in
/-- A write that fails during a refresh is only noted. -/
def noted (failure key : String) : Answer Unit → Process σ Unit
  | .ok () => return ()
  | .error e => Process.note .error (failure ++ key ++ ": " ++ e.message)

/-- Renews the sentinel of a key, then its entry. -/
def renew (inner : Cache σ) (sentinel : Memory σ) (realTtl sentinelTtl : Duration) (key : String)
    (v : Value) : Process σ Unit := do
  noted "Preload could not re-arm sentinel for key " key (← arm sentinel sentinelTtl key)
  noted "Preload could not write key " key (← inner.put key v realTtl)

/-- What a refresh does with what it has loaded, if it has loaded anything. -/
def keep (inner : Cache σ) (sentinel : Memory σ) (grip : Grip σ) (realTtl sentinelTtl : Duration)
    (key : String) : Option Value → Process σ Unit
  | none => return ()
  | some v => do
    if ← Process.step grip.hold then
      (renew inner sentinel realTtl sentinelTtl key v).guarded grip.release
    else return ()

/-- Loads a key again, then renews the sentinel and the entry. -/
def refresh (inner : Cache σ) (load : Loader σ) (sentinel : Memory σ) (grip : Grip σ)
    (realTtl sentinelTtl : Duration) (retries : Nat) (key : String) : Process σ Unit := do
  keep inner sentinel grip realTtl sentinelTtl key (← attempts load retries key retries)

end LayeredCache.Preload
