import LayeredCache.Engine.Basic
import LayeredCache.Proofs.Records

/-!
# Starting an engine

An engine is used up by its first attempt to start that can succeed. Which one that is can be read
off the attempts alone: it is decodable, and it has a scheduler or asks for no loop. Whatever comes
before it fails and leaves the engine to be started, and whatever comes after it fails and leaves
the loop that it began.

Results:
* `EngineConfig.period_of_parse`: the period that a decodable payload asks for.
* `Attempt.run_cases`: what an attempt does to an engine.
* `startedBy_after`: what is known of an engine after one more thing was done to it.
* `started_once`: the answers of any attempts in any order, and the engine that they leave.
-/

namespace LayeredCache

/-! ## What payloads ask for -/

namespace EngineConfig

theorem interval_le_of_readInterval {f : Json.Form} {n : Int} (h : readInterval f = .ok n) :
    n ≤ 0x7fff_ffff_ffff_ffff := by
  obtain ⟨⟨m, hm⟩, -, rfl⟩ := Json.map_eq_ok h
  exact hm.2

/-- A configured interval is a 64-bit number. -/
theorem interval_le_of_configForm {f : Json.Form} {c : EngineConfig} (h : ConfigForm f c) :
    c.interval ≤ 0x7fff_ffff_ffff_ffff := by
  cases h with
  | object hi _ =>
    rcases hi with ⟨-, rfl⟩ | ⟨g, -, hg⟩
    · decide
    · exact interval_le_of_readInterval hg
  | empty => decide
  | single hn => exact interval_le_of_readInterval hn

theorem interval_le_of_parse {payload : String} {c : EngineConfig} (h : parse payload = .ok c) :
    c.interval ≤ 0x7fff_ffff_ffff_ffff := by
  unfold parse at h
  split at h
  · obtain rfl := Except.ok.inj h
    decide
  · split at h
    · rename_i c' hc
      obtain rfl := Except.ok.inj h
      obtain ⟨c₁, hr, hc₁⟩ := Json.bind_eq_ok hc
      split at hc₁
      · obtain rfl := Except.ok.inj hc₁
        exact interval_le_of_configForm (read_eq_ok_iff.mp hr)
      · cases hc₁
    · cases h

/-- **A payload asks for as many seconds as it says**, and for no loop if that is less than one. -/
theorem period_of_parse {payload : String} {c : EngineConfig} (h : parse payload = .ok c) :
    c.period.toNanos = c.interval.toNat * 1_000_000_000 := by
  have hle := interval_le_of_parse h
  simp only [period, Duration.ofSecs, Duration.toNanos_ofNanos, Duration.maxNanos]
  omega

/-- The error of a payload that is no configuration. -/
theorem eq_of_parse_eq_error {payload : String} {x : CacheError} (h : parse payload = .error x) :
    x = .invalidMemoryConfig "<json>" := by
  unfold parse at h
  split at h
  · cases h
  · split at h
    · cases h
    · exact (Except.error.inj h).symm

end EngineConfig

namespace Engine

/-! ## Attempts -/

/-- What an attempt to start asks for. -/
inductive Demand where
  | interval (period : Duration)
  | payload (text : String)

/-- An attempt to start, inside or outside a scheduler. -/
structure Attempt where
  scheduled : Bool
  now : Nat
  demand : Demand

namespace Attempt

/-- The period that the attempt asks for, if it can be decoded. -/
def period? (a : Attempt) : Option Duration :=
  match a.demand with
  | .interval d => some d
  | .payload text => (EngineConfig.parse text).toOption.map EngineConfig.period

/-- The attempt is made. -/
def run (a : Attempt) (e : Engine) : Answer Engine :=
  match a.demand with
  | .interval d => e.start a.scheduled a.now d
  | .payload text => e.startWith a.scheduled a.now text

/-- The period with which the attempt starts an engine that was not started. -/
def takes? (a : Attempt) : Option Duration :=
  a.period?.filter fun d => d.toNanos = 0 || a.scheduled

/-- The loop that an attempt begins. -/
def loop? (a : Attempt) (d : Duration) : Option Loop :=
  if h : 0 < d.toNanos then some (.start a.now d h) else none

/-- What an attempt does. -/
inductive Does (a : Attempt) (e : Engine) : Answer Engine → Prop
  | undecodable (h : a.period? = none) : Does a e (.error (.invalidMemoryConfig "<json>"))
  | late {d : Duration} (h : a.period? = some d) (hs : e.started = true) :
      Does a e (.error .alreadyStarted)
  | unscheduled {d : Duration} (h : a.period? = some d) (hs : e.started = false)
      (hd : 0 < d.toNanos) (ha : a.scheduled = false) :
      Does a e (.error (.invalidMemoryConfig "reclamation loop needs a running tokio runtime"))
  | started {d : Duration} (h : a.takes? = some d) (hs : e.started = false) :
      Does a e (.ok { e with started := true, loop := (a.loop? d).or e.loop })

variable {a : Attempt} {e : Engine} {d : Duration}

theorem takes?_eq_some_iff : a.takes? = some d ↔
    a.period? = some d ∧ (d.toNanos = 0 ∨ a.scheduled = true) := by
  rw [takes?, Option.filter_eq_some_iff, Bool.or_eq_true, decide_eq_true_eq]

theorem does_start (h : a.period? = some d) : Does a e (e.start a.scheduled a.now d) := by
  unfold Engine.start
  split
  · rename_i hs
    exact .late h hs
  · rename_i hs
    have hs : e.started = false := by simpa using hs
    split
    · rename_i hd
      split
      · rename_i ha
        have hloop : a.loop? d = some (.start a.now d hd) := dif_pos hd
        have := Does.started (e := e) (takes?_eq_some_iff.mpr ⟨h, .inr ha⟩) hs
        rw [hloop] at this
        exact this
      · rename_i ha
        exact .unscheduled h hs hd (by simpa using ha)
    · rename_i hd
      have hloop : a.loop? d = none := dif_neg hd
      have := Does.started (e := e) (takes?_eq_some_iff.mpr ⟨h, .inl (by omega)⟩) hs
      rw [hloop] at this
      exact this

/-- **What an attempt does to an engine.** -/
theorem does_run (a : Attempt) (e : Engine) : Does a e (a.run e) := by
  unfold run
  cases hd : a.demand with
  | interval d => exact does_start (by simp [period?, hd])
  | payload text =>
    simp only [startWith]
    cases hp : EngineConfig.parse text with
    | ok c => exact does_start (by simp [period?, hd, hp, Except.toOption])
    | error x =>
      obtain rfl := EngineConfig.eq_of_parse_eq_error hp
      exact .undecodable (by simp [period?, hd, hp, Except.toOption])

/-- What an attempt does is determined by what it asks for and where. -/
theorem does_unique {r r' : Answer Engine} (h : Does a e r) (h' : Does a e r') : r = r' := by
  cases h with
  | undecodable hp =>
    cases h' with
    | undecodable => rfl
    | late hp' => cases hp.symm.trans hp'
    | unscheduled hp' => cases hp.symm.trans hp'
    | started ht' => cases hp.symm.trans (takes?_eq_some_iff.mp ht').1
  | late hp hs =>
    cases h' with
    | undecodable hp' => cases hp.symm.trans hp'
    | late => rfl
    | unscheduled _ hs' => cases hs.symm.trans hs'
    | started _ hs' => cases hs.symm.trans hs'
  | unscheduled hp hs hd ha =>
    cases h' with
    | undecodable hp' => cases hp.symm.trans hp'
    | late _ hs' => cases hs.symm.trans hs'
    | unscheduled => rfl
    | started ht' =>
      obtain ⟨hp', hz⟩ := takes?_eq_some_iff.mp ht'
      obtain rfl := Option.some.inj (hp.symm.trans hp')
      rcases hz with hz | hz
      · exact absurd hz (Nat.ne_of_gt hd)
      · cases ha.symm.trans hz
  | started ht hs =>
    obtain ⟨hp, hz⟩ := takes?_eq_some_iff.mp ht
    cases h' with
    | undecodable hp' => cases hp.symm.trans hp'
    | late _ hs' => cases hs.symm.trans hs'
    | unscheduled hp' _ hd ha =>
      obtain rfl := Option.some.inj (hp.symm.trans hp')
      rcases hz with hz | hz
      · exact absurd hz (Nat.ne_of_gt hd)
      · cases ha.symm.trans hz
    | started ht' =>
      obtain rfl := Option.some.inj (ht.symm.trans ht')
      rfl

theorem run_eq_of_does {r : Answer Engine} (h : Does a e r) : a.run e = r :=
  does_unique (a.does_run e) h

end Attempt

/-! ## Attempts among other things -/

/-- What may be done to an engine. -/
inductive Deed where
  | attempt (a : Attempt)
  /-- Entries come and go. -/
  | change (f : Table → Table)
  /-- A receiver is registered, if there is room for one. -/
  | watch
  /-- The loop sets its next tick. -/
  | rearm (now : Nat)

namespace Deed

/-- The engine then; what fails leaves it as it was. -/
def after : Deed → Engine → Engine
  | .attempt a, e => (a.run e).toOption.getD e
  | .change f, e => { e with table := f e.table }
  | .watch, e => e.watch.toOption.getD e
  | .rearm now, e => e.rearm now

/-- The answer, if it is an attempt to start. -/
def answer? : Deed → Engine → Option (Answer Unit)
  | .attempt a, e => some ((a.run e).map fun _ => ())
  | _, _ => none

/-- The period with which it starts an engine that was not started. -/
def takes? : Deed → Option Duration
  | .attempt a => a.takes?
  | _ => none

end Deed

/-- The engine after one deed after the other. -/
def through (deeds : List Deed) (e : Engine) : Engine := deeds.foldl (fun e d => d.after e) e

/-- The answers of the attempts among them. -/
def answers : List Deed → Engine → List (Answer Unit)
  | [], _ => []
  | d :: deeds, e => (d.answer? e).toList ++ answers deeds (d.after e)

/-- The engine was started with this period, or it was not started. -/
structure StartedBy (o : Option Duration) (e : Engine) : Prop where
  started : e.started = o.isSome
  loop : e.loop.map Loop.period = o.filter fun d => 0 < d.toNanos

variable {o : Option Duration} {e e' : Engine}

theorem startedBy_same (h : StartedBy o e) (hs : e'.started = e.started)
    (hl : e'.loop.map Loop.period = e.loop.map Loop.period) : StartedBy o e' :=
  ⟨hs.trans h.started, hl.trans h.loop⟩

theorem period_rearm (e : Engine) (now : Nat) :
    (e.rearm now).loop.map Loop.period = e.loop.map Loop.period := by
  rw [show (e.rearm now).loop = e.loop.map (·.advance now) from rfl]
  cases e.loop with
  | none => rfl
  | some l => rw [Option.map_some, Option.map_some, Option.map_some, Loop.period_advance]

/-- An attempt counts if nothing has started the engine before it. -/
theorem startedBy_attempt (h : StartedBy o e) (a : Attempt) :
    StartedBy (o.or a.takes?) ((a.run e).toOption.getD e) ∧
      (a.run e).isOk = (o.isNone && a.takes?.isSome) := by
  have hs := h.started
  generalize hr : a.run e = r
  cases hr ▸ a.does_run e with
  | undecodable hn =>
    have ht : a.takes? = none := by rw [Attempt.takes?, hn]; rfl
    rw [ht, Option.or_none]
    exact ⟨h, by simp [Except.isOk, Except.toBool]⟩
  | late _ hs' =>
    obtain ⟨d, rfl⟩ := Option.isSome_iff_exists.mp (hs.symm.trans hs')
    exact ⟨h, rfl⟩
  | unscheduled hp _ hd ha =>
    have ht : a.takes? = none := by
      rw [Attempt.takes?, hp, Option.filter_some, ha]
      simp [Nat.ne_of_gt hd]
    rw [ht, Option.or_none]
    exact ⟨h, by simp [Except.isOk, Except.toBool]⟩
  | @started d ht hs' =>
    obtain rfl : o = none := by
      rw [hs'] at hs
      exact Option.isNone_iff_eq_none.mp (Option.isSome_eq_false_iff.mp hs.symm)
    have hno : e.loop = none := by simpa using h.loop
    rw [ht]
    refine ⟨⟨rfl, ?_⟩, rfl⟩
    change ((a.loop? d).or e.loop).map Loop.period = _
    rw [hno, Option.or_none, Attempt.loop?, Option.none_or, Option.filter_some]
    by_cases hd : 0 < d.toNanos
    · simp [hd, Loop.start]
    · simp [hd]

theorem startedBy_after (h : StartedBy o e) (d : Deed) :
    StartedBy (o.or d.takes?) (d.after e) := by
  cases d with
  | attempt a => exact (startedBy_attempt h a).1
  | change f =>
    rw [show (Deed.change f).takes? = none from rfl, Option.or_none]
    exact startedBy_same h rfl rfl
  | watch =>
    rw [show Deed.watch.takes? = none from rfl, Option.or_none]
    change StartedBy o (e.watch.toOption.getD e)
    unfold Engine.watch
    split
    · exact h
    · exact startedBy_same h rfl rfl
  | rearm now =>
    rw [show (Deed.rearm now).takes? = none from rfl, Option.or_none]
    refine startedBy_same h rfl ?_
    exact period_rearm e now

/-- An attempt succeeds if it is the first one that can. -/
theorem isOk_answer? (h : StartedBy o e) (d : Deed) :
    ((d.answer? e).toList.countP fun r => r.isOk) + o.toList.length =
      (o.or d.takes?).toList.length := by
  cases d with
  | attempt a =>
    have hok := (startedBy_attempt h a).2
    change [(a.run e).map fun _ => ()].countP _ + _ = (o.or a.takes?).toList.length
    have hmap : ((a.run e).map fun _ => ()).isOk = (a.run e).isOk := by cases a.run e <;> rfl
    rw [List.countP_singleton, hmap, hok]
    cases o <;> cases a.takes? <;> rfl
  | _ => simp [Deed.answer?, Deed.takes?]

/-- **What is known of an engine after any deeds**, and how many attempts have succeeded. -/
theorem startedBy_through (deeds : List Deed) {o : Option Duration} {e : Engine}
    (h : StartedBy o e) :
    StartedBy (o.or (deeds.findSome? Deed.takes?)) (through deeds e) ∧
      (answers deeds e).countP (fun r => r.isOk) + o.toList.length =
        (o.or (deeds.findSome? Deed.takes?)).toList.length := by
  induction deeds generalizing o e with
  | nil =>
    rw [List.findSome?_nil, Option.or_none]
    exact ⟨h, by simp [answers]⟩
  | cons d deeds ih =>
    obtain ⟨hs, hc⟩ := ih (startedBy_after h d)
    have hd := isOk_answer? h d
    have hor : o.or ((d :: deeds).findSome? Deed.takes?) =
        (o.or d.takes?).or (deeds.findSome? Deed.takes?) := by
      rw [List.findSome?_cons, Option.or_assoc]
      cases d.takes? <;> rfl
    rw [hor]
    refine ⟨hs, ?_⟩
    rw [answers, List.countP_append]
    omega

/-- **An engine is started once**, by the first attempt that can. That one is decodable, and it has
a scheduler or asks for no loop; the loop has its period. Attempts before it fail for what they are
and leave the engine to be started; attempts after it fail, those that can be decoded because the
engine was started, and leave the engine as it is. -/
theorem started_once (deeds : List Deed) {e₀ : Engine} (hs : e₀.started = false)
    (hl : e₀.loop = none) :
    let o := deeds.findSome? Deed.takes?
    let e := through deeds e₀
    (e.started = o.isSome ∧ e.loop.map Loop.period = o.filter fun d => 0 < d.toNanos) ∧
    (answers deeds e₀).countP (fun r => r.isOk) = o.toList.length ∧
    (∀ (a : Attempt) (d : Duration), a.period? = some d →
      (o ≠ none → a.run e = .error .alreadyStarted) ∧
      (o = none → 0 < d.toNanos → a.scheduled = false → a.run e =
        .error (.invalidMemoryConfig "reclamation loop needs a running tokio runtime")) ∧
      (o = none → d.toNanos = 0 → a.run e = .ok { e with started := true }) ∧
      (o = none → ∀ hd : 0 < d.toNanos, a.scheduled = true → a.run e =
        .ok { e with started := true, loop := some (.start a.now d hd) })) ∧
    (∀ a : Attempt, a.period? = none →
      ∀ e', a.run e' = .error (.invalidMemoryConfig "<json>")) ∧
    (∀ (a : Attempt) (e' : Engine), (a.run e').isOk = false → (Deed.attempt a).after e' = e') ∧
    ∀ (payload : String) (c : EngineConfig), EngineConfig.parse payload = .ok c →
      c.period.toNanos = c.interval.toNat * 1_000_000_000 := by
  intro o e
  obtain ⟨h, hc⟩ := startedBy_through (o := none) deeds (e := e₀) ⟨hs, by rw [hl]; rfl⟩
  rw [Option.none_or] at h hc
  refine ⟨⟨h.started, h.loop⟩, by simpa using hc, fun a d hd => ?_, fun a ha e' => ?_,
    fun a e' ha => ?_, fun payload c hp => EngineConfig.period_of_parse hp⟩
  · have started (ho : o ≠ none) : e.started = true := by
      rw [h.started]
      exact Option.isSome_iff_ne_none.mpr ho
    have unstarted (ho : o = none) : e.started = false := by
      rw [h.started]
      exact Option.isSome_eq_false_iff.mpr (Option.isNone_iff_eq_none.mpr ho)
    have takes (hz : d.toNanos = 0 ∨ a.scheduled = true) : a.takes? = some d :=
      Attempt.takes?_eq_some_iff.mpr ⟨hd, hz⟩
    refine ⟨fun ho => ?_, fun ho hp ha => ?_, fun ho hz => ?_, fun ho hp ha => ?_⟩
    · exact Attempt.run_eq_of_does (.late hd (started ho))
    · exact Attempt.run_eq_of_does (.unscheduled hd (unstarted ho) hp ha)
    · have hloop : a.loop? d = none := dif_neg (by omega)
      rw [Attempt.run_eq_of_does (.started (takes (.inl hz)) (unstarted ho)), hloop]
      rfl
    · have hloop : a.loop? d = some (.start a.now d hp) := dif_pos hp
      rw [Attempt.run_eq_of_does (.started (takes (.inr ha)) (unstarted ho)), hloop]
      rfl
  · exact Attempt.run_eq_of_does (.undecodable ha)
  · change (a.run e').toOption.getD e' = e'
    cases hr : a.run e' with
    | ok e'' => rw [hr] at ha; cases ha
    | error x => rfl

/-- An attempt outside the scheduler, one with an empty payload inside it, and a late one. -/
theorem started_once_late :
    let outside : Attempt := ⟨false, 3, .interval (.ofSecs 5)⟩
    let inside : Attempt := ⟨true, 7, .payload ""⟩
    let late : Attempt := ⟨true, 9, .interval .zero⟩
    let e := through [.attempt outside, .rearm 4, .attempt inside] .empty
    Engine.empty.started = false ∧ Engine.empty.loop = none ∧
      e.loop.map Loop.period = some (.ofSecs 60) ∧ late.run e = .error .alreadyStarted := by
  intro outside inside late e
  obtain ⟨⟨-, hperiod⟩, -, hruns, -⟩ :=
    @started_once [.attempt outside, .rearm 4, .attempt inside] .empty rfl rfl
  refine ⟨rfl, rfl, hperiod.trans (by decide), (hruns late .zero rfl).1 (by decide)⟩

end Engine
end LayeredCache
