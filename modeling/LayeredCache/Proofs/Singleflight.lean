import LayeredCache.Proofs.Log
import LayeredCache.Proofs.Pool

/-!
# One load for many callers

Any number of callers of a cache that shares loads, in any order of steps, each of them given up at
any of its waits. A caller that has given up its place lets go of its flight any time later, so that
others may look at theirs meanwhile. What holds of the flights and of the log at each stage of a
caller is kept by every step of every caller.

Results:
* `at_effect`: what one caller does leaves every other caller at its stage.
* `inv_flies`, `inv_givenUp`: the invariant of one step, and of giving a caller up.
* `run_orderly`: one load of a key at a time, one outcome for a flight, and a new load for whoever
  comes after it.
-/

namespace LayeredCache.Sky

variable {ι ρ : Type}

/-! ## What holds at each stage -/

/-- The caller has joined a flight and is a member of it. -/
structure Rides (fs : Flights) (log : List (Mark ι)) (key : String) (i : ι) (me : Nat)
    (f : Flight) : Prop where
  mem : f ∈ fs.flights
  member : me ∈ f.members
  key : f.key = key
  joined : .joined i f.number ∈ log

/-- The load of its flight is the caller's to run. -/
structure Leads (fs : Flights) (log : List (Mark ι)) (key : String) (i : ι) (me : Nat)
    (f : Flight) : Prop extends Rides fs log key i me f where
  unsettled : f.outcome = none
  head : f.line.head? = some me

/-- Whatever else is marked. -/
theorem Leads.mark {fs : Flights} {log : List (Mark ι)} {key : String} {i : ι} {me : Nat}
    {f : Flight} (h : Leads fs log key i me f) (e : Mark ι) : Leads fs (e :: log) key i me f :=
  { h with joined := List.mem_cons_of_mem _ h.joined }

/-- The caller has left no mark. -/
def Unmarked (log : List (Mark ι)) (i : ι) : Prop := ∀ e ∈ log, e.by? ≠ some i

/-- The caller has joined a flight, and nothing more. -/
def Idle (log : List (Mark ι)) (i : ι) : Prop :=
  ∀ e ∈ log, e.by? = some i → ∃ f, e = .joined i f

/-- The caller's load is over, if it ever began. -/
def Over (log : List (Mark ι)) (i : ι) : Prop := .began i ∈ log → ∃ r, .ended i r ∈ log

variable (keys : ι → String) (ttl : Duration)

/-- What holds of the state while a caller is at a stage. -/
def At (s : Sky ι ρ) (i : ι) : Stage ρ → Prop
  | .looking _ => Unmarked s.log i
  | .lineUp me | .await me => ∃ f, Rides s.flights s.log (keys i) i me f ∧ Idle s.log i
  | .ask me => ∃ f, Rides s.flights s.log (keys i) i me f ∧ Idle s.log i ∧
      (f.outcome ≠ none ∨ f.line.head? = some me)
  | .start me => ∃ f, Leads s.flights s.log (keys i) i me f ∧ Idle s.log i
  | .loading me _ => ∃ f, Leads s.flights s.log (keys i) i me f ∧ LastLoad s.log f.number i ∧
      (∀ r, .ended i r ∉ s.log) ∧ ∀ k v d, .offered i k v d ∉ s.log
  | .offer me v => ∃ f, Leads s.flights s.log (keys i) i me f ∧ LastLoad s.log f.number i ∧
      .ended i (.ok v) ∈ s.log
  | .putting me v _ => ∃ f, Leads s.flights s.log (keys i) i me f ∧ LastLoad s.log f.number i ∧
      .ended i (.ok v) ∈ s.log ∧ .offered i (keys i) v ttl ∈ s.log
  | .settle me o => ∃ f r, Leads s.flights s.log (keys i) i me f ∧ LastLoad s.log f.number i ∧
      .ended i r ∈ s.log ∧ o = loaded (keys i) r ∧ Kept s.log ttl i (keys i) r
  | .leave me o => ∃ f, Rides s.flights s.log (keys i) i me f ∧ f.outcome = some o ∧ Over s.log i
  | .ended o => Over s.log i ∧ ∀ f, .joined i f ∈ s.log → Verdict keys ttl s.log f o ∧
      ∀ g ∈ s.flights.flights, g.number = f → g.outcome = some o

/-- Nobody but the caller of this number can have the load of the flight to run. -/
def Clear (fs : Flights) (n : Option Nat) (flight : Nat) : Prop :=
  ∀ g ∈ fs.flights, g.number = flight → g.outcome = none →
    ∃ m, n = some m ∧ g.line.head? = some m

/-- What a step of a caller with number `me` is for the others. -/
structure Effect (i : ι) (me left : Option Nat) (out : Flight → Option (Answer Value))
    (added : List (Mark ι)) (s s' : Sky ι ρ) : Prop where
  log : s'.log = added ++ s.log
  moves : Flights.Moves left out s.flights s'.flights
  left : ∀ m, left = some m → me = some m
  by_self : ∀ e ∈ added, ∀ j, e.by? = some j → j = i
  calm : ∀ n f, (∀ m, n = some m → me ≠ some m) → Clear s.flights n f → Calm added s.log f
  settled : ∀ f ∈ s.flights.flights, ∀ o, f.outcome = some o → out f = some o
  spared : ∀ f ∈ s.flights.flights, ∀ m, me ≠ some m → f.line.head? = some m →
    f.outcome = none → out f = none

section Effect

variable {keys ttl} {s s' : Sky ι ρ} {i j : ι} {me left : Option Nat}
  {out : Flight → Option (Answer Value)} {added : List (Mark ι)}

theorem clear_of_leads (hs : s.flights.Sound) {key : String} {m : Nat} {f : Flight}
    (h : Leads s.flights s.log key j m f) : Clear s.flights (some m) f.number := by
  intro g hg hn _
  obtain rfl := hs.numbered g hg f h.mem hn
  exact ⟨m, rfl, h.head⟩

theorem mem_log (h : Effect i me left out added s s') {e : Mark ι} (he : e ∈ s.log) :
    e ∈ s'.log := by
  rw [h.log]
  exact List.mem_append_right _ he

/-- What is added is about the one caller. -/
theorem unmarked_of_ne (h : Effect i me left out added s s') (hj : j ≠ i) : Unmarked added j :=
  fun e he hb => hj (h.by_self e he j hb)

/-- The marks of others are what they were. -/
theorem mem_log_of_by (h : Effect i me left out added s s') (hj : Unmarked added j) {e : Mark ι}
    (he : e ∈ s'.log) (hb : e.by? = some j) : e ∈ s.log := by
  rw [h.log] at he
  rcases List.mem_append.mp he with he | he
  · exact absurd hb (hj e he)
  · exact he

theorem rides_effect (h : Effect i me left out added s s') {key : String} {m : Nat} {f : Flight}
    (hl : left ≠ some m) (hr : Rides s.flights s.log key j m f) :
    ∃ f', Rides s'.flights s'.log key j m f' ∧ f'.number = f.number ∧ f'.outcome = out f ∧
      (f.line.head? = some m → f'.line.head? = some m) := by
  obtain ⟨f', hf', hm', hn, hk, ho, hh⟩ := h.moves.forth f hr.mem m hr.member hl
  refine ⟨f', ⟨hf', hm', hk.trans hr.key, ?_⟩, hn, ho, hh⟩
  rw [hn]
  exact mem_log h hr.joined

theorem leads_effect (h : Effect i me left out added s s') {key : String} {m : Nat} {f : Flight}
    (hm : me ≠ some m) (hl : Leads s.flights s.log key j m f) :
    ∃ f', Leads s'.flights s'.log key j m f' ∧ f'.number = f.number := by
  obtain ⟨f', hr, hn, ho, hh⟩ := rides_effect h (fun hl => hm (h.left m hl)) hl.toRides
  refine ⟨f', ⟨hr, ?_, hh hl.head⟩, hn⟩
  rw [ho]
  exact h.spared f hl.mem m hm hl.head hl.unsettled

theorem idle_effect (h : Effect i me left out added s s') (hj : Unmarked added j)
    (hi : Idle s.log j) : Idle s'.log j := fun e he hb => hi e (mem_log_of_by h hj he hb) hb

theorem over_effect (h : Effect i me left out added s s') (hj : Unmarked added j)
    (hi : Over s.log j) : Over s'.log j := by
  intro hb
  obtain ⟨r, hr⟩ := hi (mem_log_of_by h hj hb rfl)
  exact ⟨r, mem_log h hr⟩

theorem lastLoad_effect (h : Effect i me left out added s s') (hs : s.flights.Sound)
    {key : String} {m : Nat} {f : Flight} (hm : me ≠ some m) (hl : Leads s.flights s.log key j m f)
    (hL : LastLoad s.log f.number j) : LastLoad s'.log f.number j := by
  rw [h.log]
  exact lastLoad_append (h.calm (some m) _ (fun n hn => hn ▸ hm) (clear_of_leads hs hl)) hL

theorem verdict_effect (h : Effect i me left out added s s') (he : EndedOnce s.log) {f : Nat}
    {o : Answer Value} (hc : Clear s.flights none f) (hv : Verdict keys ttl s.log f o) :
    Verdict keys ttl s'.log f o := by
  rw [h.log]
  exact verdict_append (h.calm none f (fun m hm => absurd hm (by simp)) hc) he hv

/-- A settled flight is nobody's to run. -/
theorem clear_of_settled {f : Nat} {o : Answer Value}
    (h : ∀ g ∈ s.flights.flights, g.number = f → g.outcome = some o) :
    Clear s.flights none f := by
  intro g hg hn ho
  rw [h g hg hn] at ho
  exact absurd ho (by simp)

/-- **What one caller does leaves every other caller at its stage.** -/
theorem at_effect (h : Effect i me left out added s s') (hs : s.flights.Sound)
    (he : EndedOnce s.log) (ha : ∀ f, .joined j f ∈ s.log → f < s.flights.next)
    (hj : Unmarked added j) {x : Stage ρ} (hn : ∀ m, x.number? = some m → me ≠ some m)
    (hx : At keys ttl s j x) : At keys ttl s' j x := by
  have stays {m : Nat} (hm : x.number? = some m) : left ≠ some m := fun hl => hn m hm (h.left m hl)
  cases x with
  | looking q => exact fun e he hb => hx e (mem_log_of_by h hj he hb) hb
  | lineUp m =>
    obtain ⟨f, hr, hi⟩ := hx
    obtain ⟨f', hr', -⟩ := rides_effect h (stays rfl) hr
    exact ⟨f', hr', idle_effect h hj hi⟩
  | await m =>
    obtain ⟨f, hr, hi⟩ := hx
    obtain ⟨f', hr', -⟩ := rides_effect h (stays rfl) hr
    exact ⟨f', hr', idle_effect h hj hi⟩
  | ask m =>
    obtain ⟨f, hr, hi, ho⟩ := hx
    obtain ⟨f', hr', -, ho', hh⟩ := rides_effect h (stays rfl) hr
    refine ⟨f', hr', idle_effect h hj hi, ho.imp (fun ho => ?_) hh⟩
    obtain ⟨o, ho⟩ := Option.ne_none_iff_exists'.mp ho
    rw [ho', h.settled f hr.mem o ho]
    simp
  | start m =>
    obtain ⟨f, hl, hi⟩ := hx
    obtain ⟨f', hl', -⟩ := leads_effect h (hn m rfl) hl
    exact ⟨f', hl', idle_effect h hj hi⟩
  | loading m q =>
    obtain ⟨f, hl, hL, hr, ho⟩ := hx
    obtain ⟨f', hl', hf⟩ := leads_effect h (hn m rfl) hl
    refine ⟨f', hl', hf ▸ lastLoad_effect h hs (hn m rfl) hl hL, fun r hr' => ?_,
      fun k v d ho' => ?_⟩
    · exact hr r (mem_log_of_by h hj hr' rfl)
    · exact ho k v d (mem_log_of_by h hj ho' rfl)
  | offer m v =>
    obtain ⟨f, hl, hL, hr⟩ := hx
    obtain ⟨f', hl', hf⟩ := leads_effect h (hn m rfl) hl
    exact ⟨f', hl', hf ▸ lastLoad_effect h hs (hn m rfl) hl hL, mem_log h hr⟩
  | putting m v q =>
    obtain ⟨f, hl, hL, hr, ho⟩ := hx
    obtain ⟨f', hl', hf⟩ := leads_effect h (hn m rfl) hl
    exact ⟨f', hl', hf ▸ lastLoad_effect h hs (hn m rfl) hl hL, mem_log h hr, mem_log h ho⟩
  | settle m o =>
    obtain ⟨f, r, hl, hL, hr, ho, hk⟩ := hx
    obtain ⟨f', hl', hf⟩ := leads_effect h (hn m rfl) hl
    refine ⟨f', r, hl', hf ▸ lastLoad_effect h hs (hn m rfl) hl hL, mem_log h hr, ho, ?_⟩
    rw [h.log]
    have hc := h.calm (some m) _ (fun n hn' => hn' ▸ hn m rfl) (clear_of_leads hs hl)
    exact kept_append hc he hr hk
  | leave m o =>
    obtain ⟨f, hr, ho, hv⟩ := hx
    obtain ⟨f', hr', -, ho', -⟩ := rides_effect h (stays rfl) hr
    exact ⟨f', hr', ho'.trans (h.settled f hr.mem o ho), over_effect h hj hv⟩
  | ended o =>
    obtain ⟨hv, hx⟩ := hx
    refine ⟨over_effect h hj hv, fun f hf => ?_⟩
    have hf := mem_log_of_by h hj hf rfl
    obtain ⟨hV, hg⟩ := hx f hf
    refine ⟨verdict_effect h he (clear_of_settled hg) hV, fun g' hg' hn' => ?_⟩
    rcases h.moves.back g' hg' with ⟨g, hgm, hgn, -, hgo, -⟩ | ⟨hgn, -, -⟩
    · rw [hgo]
      exact h.settled g hgm o (hg g hgm (hgn.symm.trans hn'))
    · exact absurd (ha f hf) (by omega)

end Effect

/-! ## What holds of the log -/

/-- A flight has none of its members before another flight of the key was taken off the list. -/
def After (key : String) (flight : Nat) : List (Mark ι) → Prop :=
  Throughout fun e past => ∀ f, e = .retired f key →
    f ≠ flight ∧ ∀ m, .joined m flight ∉ past

/-- The log fits the flights. -/
structure Tidy (fs : Flights) (log : List (Mark ι)) : Prop where
  aboard : ∀ i f, .joined i f ∈ log → f < fs.next
  gone : ∀ f k, .retired f k ∈ log → f < fs.next
  one : ∀ i f f', .joined i f ∈ log → .joined i f' ∈ log → f' = f
  keyed : ∀ i, ∀ g ∈ fs.flights, .joined i g.number ∈ log → g.key = keys i
  same : ∀ i j f, .joined i f ∈ log → .joined j f ∈ log → keys j = keys i
  endedOnce : EndedOnce log
  untouched : ∀ i, .touched i ∉ log
  begun : Throughout (fun e past => ∀ i, e = .began i →
    .began i ∉ past ∧ ∃ f, .joined i f ∈ past) log
  offered : Throughout (fun e past => ∀ i k v d, e = .offered i k v d →
    k = keys i ∧ d = ttl ∧ .ended i (.ok v) ∈ past) log
  renewed : Throughout (fun e past => ∀ i f, e = .joined i f → After (keys i) f past) log
  listed : ∀ g ∈ fs.flights, g.listed = true → After g.key g.number log

section Tidy

variable {keys ttl} {fs fs' : Flights} {log added : List (Mark ι)}

theorem tidy_empty : Tidy keys ttl Flights.empty ([] : List (Mark ι)) where
  aboard _ _ h := absurd h List.not_mem_nil
  gone _ _ h := absurd h List.not_mem_nil
  one _ _ _ h := absurd h List.not_mem_nil
  keyed _ _ hg := absurd hg List.not_mem_nil
  same _ _ _ h := absurd h List.not_mem_nil
  endedOnce _ _ _ h := absurd h List.not_mem_nil
  untouched _ h := absurd h List.not_mem_nil
  begun := trivial
  offered := trivial
  renewed := trivial
  listed _ hg := absurd hg List.not_mem_nil

/-- Flights come and go, and what went is marked. -/
theorem tidy_moves {left : Option Nat} {out : Flight → Option (Answer Value)}
    (h : Tidy keys ttl fs log) (hs : fs.Sound) (hm : Flights.Moves left out fs fs')
    (hn : fs'.next = fs.next)
    (ha : ∀ e ∈ added, ∃ f ∈ fs.flights, f.listed = true ∧ e = .retired f.number f.key ∧
      ∀ g ∈ fs'.flights, g.listed = true → g.number ≠ f.number) :
    Tidy keys ttl fs' (added ++ log) := by
  have old {e : Mark ι} (he : e ∈ added ++ log) (hb : ∀ f k, e ≠ .retired f k) : e ∈ log := by
    rcases List.mem_append.mp he with he | he
    · obtain ⟨f, -, -, rfl, -⟩ := ha e he
      exact absurd rfl (hb _ _)
    · exact he
  have back {g : Flight} (hg : g ∈ fs'.flights) : ∃ f ∈ fs.flights, g.number = f.number ∧
      g.key = f.key ∧ (g.listed = true → f.listed = true) := by
    rcases hm.back g hg with ⟨f, hf, hn, hk, -, hl⟩ | ⟨-, -, hlt⟩
    · exact ⟨f, hf, hn, hk, hl⟩
    · omega
  constructor
  case aboard =>
    intro i f hi
    rw [hn]
    exact h.aboard i f (old hi (by simp))
  case gone =>
    intro f k hf
    rw [hn]
    rcases List.mem_append.mp hf with hf | hf
    · obtain ⟨f', hf', -, he, -⟩ := ha _ hf
      obtain ⟨rfl, -⟩ := Mark.retired.inj he
      exact hs.number_lt f' hf'
    · exact h.gone f k hf
  case one => exact fun i f f' hi hi' => h.one i f f' (old hi (by simp)) (old hi' (by simp))
  case keyed =>
    intro i g hg hi
    obtain ⟨f, hf, hn, hk, -⟩ := back hg
    rw [hk]
    exact h.keyed i f hf (hn ▸ old hi (by simp))
  case same => exact fun i j f hi hj => h.same i j f (old hi (by simp)) (old hj (by simp))
  case endedOnce =>
    exact fun i r r' hr hr' => h.endedOnce i r r' (old hr (by simp)) (old hr' (by simp))
  case untouched => exact fun i hi => h.untouched i (old hi (by simp))
  case begun =>
    refine throughout_append (fun e he past i hi => ?_) h.begun
    obtain ⟨f, -, -, rfl, -⟩ := ha e he
    exact absurd hi (by simp)
  case offered =>
    refine throughout_append (fun e he past i k v d hi => ?_) h.offered
    obtain ⟨f, -, -, rfl, -⟩ := ha e he
    exact absurd hi (by simp)
  case renewed =>
    refine throughout_append (fun e he past i f hi => ?_) h.renewed
    obtain ⟨f', -, -, rfl, -⟩ := ha e he
    exact absurd hi (by simp)
  case listed =>
    intro g hg hl
    obtain ⟨f, hf, hgn, hgk, hgl⟩ := back hg
    refine throughout_append (fun e he past f' hf' => ?_) (hgk ▸ hgn ▸ h.listed f hf (hgl hl))
    -- Two listed flights of one key are one, and that one is off the list.
    obtain ⟨f₀, hf₀, hl₀, rfl, hno⟩ := ha e he
    obtain ⟨-, hk₀⟩ := Mark.retired.inj hf'
    have hff := hs.keyed f hf f₀ hf₀ (hgl hl) hl₀ (hgk.symm.trans hk₀.symm)
    exact absurd (hgn.trans (congrArg Flight.number hff)) (hno g hg hl)

/-- A mark that is about a load. -/
theorem tidy_mark {e : Mark ι} (h : Tidy keys ttl fs log) (hj : ∀ i f, e ≠ .joined i f)
    (hr : ∀ f k, e ≠ .retired f k) (ht : ∀ i, e ≠ .touched i)
    (he : ∀ i r, e = .ended i r → ∀ r', .ended i r' ∉ log)
    (hb : ∀ i, e = .began i → .began i ∉ log ∧ ∃ f, .joined i f ∈ log)
    (ho : ∀ i k v d, e = .offered i k v d → k = keys i ∧ d = ttl ∧ .ended i (.ok v) ∈ log) :
    Tidy keys ttl fs (e :: log) := by
  have joined {i : ι} {f : Nat} (hi : .joined i f ∈ e :: log) : .joined i f ∈ log := by
    rcases List.mem_cons.mp hi with hi | hi
    · exact absurd hi.symm (hj i f)
    · exact hi
  constructor
  case aboard => exact fun i f hi => h.aboard i f (joined hi)
  case gone =>
    intro f k hf
    rcases List.mem_cons.mp hf with hf | hf
    · exact absurd hf.symm (hr f k)
    · exact h.gone f k hf
  case one => exact fun i f f' hi hi' => h.one i f f' (joined hi) (joined hi')
  case keyed => exact fun i g hg hi => h.keyed i g hg (joined hi)
  case same => exact fun i j f hi hj => h.same i j f (joined hi) (joined hj)
  case endedOnce =>
    intro i r r' hr hr'
    rcases List.mem_cons.mp hr with hr | hr <;> rcases List.mem_cons.mp hr' with hr' | hr'
    · obtain ⟨-, rfl⟩ := Mark.ended.inj (hr.trans hr'.symm)
      rfl
    · exact absurd hr' (he i r hr.symm r')
    · exact absurd hr (he i r' hr'.symm r)
    · exact h.endedOnce i r r' hr hr'
  case untouched =>
    intro i hi
    rcases List.mem_cons.mp hi with hi | hi
    · exact ht i hi.symm
    · exact h.untouched i hi
  case begun => exact ⟨hb, h.begun⟩
  case offered => exact ⟨ho, h.offered⟩
  case renewed => exact ⟨fun i f hi => absurd hi (hj i f), h.renewed⟩
  case listed => exact fun g hg hl => ⟨fun f hf => absurd hf (hr f _), h.listed g hg hl⟩

/-- Nobody is in a flight that there is not yet. -/
theorem after_of_lt {key : String} {n : Nat} (hj : ∀ i f, .joined i f ∈ log → f < n)
    (hr : ∀ f k, .retired f k ∈ log → f < n) : After key n log := by
  induction log with
  | nil => trivial
  | cons e past ih =>
    refine ⟨fun f hf => ⟨?_, fun i hi => ?_⟩, ih ?_ ?_⟩
    · subst hf
      exact Nat.ne_of_lt (hr f key List.mem_cons_self)
    · exact Nat.lt_irrefl n (hj i n (List.mem_cons_of_mem _ hi))
    · exact fun i f hi => hj i f (List.mem_cons_of_mem _ hi)
    · exact fun f k hf => hr f k (List.mem_cons_of_mem _ hf)

theorem tidy_join (h : Tidy keys ttl fs log) (hs : fs.Sound) {i : ι} (hi : Unmarked log i)
    {f : Flight} (hf : f ∈ (fs.join (keys i)).2.flights) (hk : f.key = keys i)
    (hn : f.number = fs.next ∨
      ∃ g ∈ fs.flights, g.listed = true ∧ g.key = keys i ∧ g.number = f.number) :
    Tidy keys ttl (fs.join (keys i)).2 (.joined i f.number :: log) := by
  have hs' := Flights.sound_join hs (keys i)
  have hm := Flights.moves_join fs (keys i)
  have hnext (key : String) : After key fs.next log := after_of_lt h.aboard h.gone
  have old {e : Mark ι} (he : e ∈ .joined i f.number :: log) (hb : ∀ i f, e ≠ .joined i f) :
      e ∈ log := by
    rcases List.mem_cons.mp he with rfl | he
    · exact absurd rfl (hb _ _)
    · exact he
  constructor
  case aboard =>
    intro j g hj
    rcases List.mem_cons.mp hj with hj | hj
    · obtain ⟨rfl, rfl⟩ := Mark.joined.inj hj
      exact hs'.number_lt f hf
    · exact Nat.lt_of_lt_of_le (h.aboard j g hj) hm.next_le
  case gone => exact fun g k hg => Nat.lt_of_lt_of_le (h.gone g k (old hg (by simp))) hm.next_le
  case one =>
    intro j g g' hm hm'
    rcases List.mem_cons.mp hm with hj | hj <;> rcases List.mem_cons.mp hm' with hj' | hj'
    · obtain ⟨-, rfl⟩ := Mark.joined.inj (hj.trans hj'.symm)
      rfl
    · obtain ⟨rfl, -⟩ := Mark.joined.inj hj
      exact absurd rfl (hi (.joined j g') hj')
    · obtain ⟨rfl, -⟩ := Mark.joined.inj hj'
      exact absurd rfl (hi (.joined j g) hj)
    · exact h.one j g g' hj hj'
  case keyed =>
    intro j g hg hj
    rcases List.mem_cons.mp hj with hj | hj
    · obtain ⟨rfl, hgf⟩ := Mark.joined.inj hj
      rw [hs'.numbered g hg f hf hgf, hk]
    · rcases hm.back g hg with ⟨g', hg', hgn, hgk, -, -⟩ | ⟨hgn, -, -⟩
      · rw [hgk]
        exact h.keyed j g' hg' (hgn ▸ hj)
      · exact absurd (h.aboard j _ hj) (by omega)
  case same =>
    -- Whoever is in the flight already is in one that was listed for the key.
    have new {j : ι} (hj : .joined j f.number ∈ log) : keys j = keys i := by
      rcases hn with hn | ⟨g, hg, -, hgk, hgn⟩
      · exact absurd (h.aboard j _ hj) (by omega)
      · rw [← h.keyed j g hg (hgn ▸ hj), hgk]
    intro j j' g hm hm'
    rcases List.mem_cons.mp hm with hj | hj <;> rcases List.mem_cons.mp hm' with hj' | hj'
    · obtain ⟨rfl, -⟩ := Mark.joined.inj (hj.trans hj'.symm)
      rfl
    · obtain ⟨rfl, rfl⟩ := Mark.joined.inj hj
      exact new hj'
    · obtain ⟨rfl, rfl⟩ := Mark.joined.inj hj'
      exact (new hj).symm
    · exact h.same j j' g hj hj'
  case endedOnce =>
    exact fun j r r' hr hr' => h.endedOnce j r r' (old hr (by simp)) (old hr' (by simp))
  case untouched => exact fun j hj => h.untouched j (old hj (by simp))
  case begun => exact ⟨fun j hj => absurd hj (by simp), h.begun⟩
  case offered => exact ⟨fun j k v d hj => absurd hj (by simp), h.offered⟩
  case renewed =>
    refine ⟨fun j g hj => ?_, h.renewed⟩
    obtain ⟨rfl, rfl⟩ := Mark.joined.inj hj
    rcases hn with hn | ⟨g, hg, hgl, hgk, hgn⟩
    · rw [hn]
      exact hnext _
    · rw [← hgk, ← hgn]
      exact h.listed g hg hgl
  case listed =>
    intro g hg hl
    refine ⟨fun f' hf' => absurd hf' (by simp), ?_⟩
    rcases hm.back g hg with ⟨g', hg', hgn, hgk, -, hgl⟩ | ⟨hgn, -, -⟩
    · rw [hgn, hgk]
      exact h.listed g' hg' (hgl hl)
    · rw [hgn]
      exact hnext _

end Tidy

/-! ## The invariant -/

/-- **What every turn keeps**, `at_stage` giving the stage of each caller that is not given up. -/
structure Inv (s : Sky ι ρ) (stages : ι → Option (Stage ρ)) : Prop where
  sound : s.flights.Sound
  tidy : Tidy keys ttl s.flights s.log
  at_stage : ∀ i x, stages i = some x → At keys ttl s i x
  apart : ∀ i j x y m, stages i = some x → stages j = some y → x.number? = some m →
    y.number? = some m → i = j
  settled : ∀ f ∈ s.flights.flights, ∀ o, f.outcome = some o → Verdict keys ttl s.log f.number o
  takeover : Throughout (fun e past => ∀ i j f, e = .began i → .began j ∈ past →
    .joined i f ∈ past → .joined j f ∈ past → stages j = none) s.log

variable {keys ttl} {s s' : Sky ι ρ} {stages : ι → Option (Stage ρ)}

theorem not_began_of_idle {log : List (Mark ι)} {i : ι} (h : Idle log i) : .began i ∉ log := by
  intro hb
  obtain ⟨f, hf⟩ := h _ hb rfl
  exact absurd hf (by simp)

/-- A caller with a number is a member of a flight. -/
theorem rides_of_at {i : ι} {x : Stage ρ} {m : Nat} (h : At keys ttl s i x)
    (hm : x.number? = some m) : ∃ f, Rides s.flights s.log (keys i) i m f := by
  cases x with
  | looking q => simp [Stage.number?] at hm
  | ended o => simp [Stage.number?] at hm
  | lineUp me | await me | ask me | leave me o =>
    obtain rfl := Option.some.inj hm
    obtain ⟨f, hr, -⟩ := h
    exact ⟨f, hr⟩
  | start me | loading me q | offer me v | putting me v q =>
    obtain rfl := Option.some.inj hm
    obtain ⟨f, hl, -⟩ := h
    exact ⟨f, hl.toRides⟩
  | settle me o =>
    obtain rfl := Option.some.inj hm
    obtain ⟨f, r, hl, -⟩ := h
    exact ⟨f, hl.toRides⟩

theorem member_lt_of_at {i : ι} {x : Stage ρ} (hs : s.flights.Sound) (h : At keys ttl s i x)
    {m : Nat} (hm : x.number? = some m) : m < s.flights.next := by
  obtain ⟨f, hr⟩ := rides_of_at h hm
  exact hs.member_lt f hr.mem m hr.member

/-- Whoever began a load still leads its flight, or the load is over and the flight settled. -/
theorem leads_or_over_of_began {i : ι} {x : Stage ρ} (hs : s.flights.Sound)
    (ht : Tidy keys ttl s.flights s.log) (h : At keys ttl s i x) (hb : .began i ∈ s.log) :
    (∃ m f, x.number? = some m ∧ Leads s.flights s.log (keys i) i m f) ∨
      (Over s.log i ∧ ∃ o, ∀ f ∈ s.flights.flights, .joined i f.number ∈ s.log →
        f.outcome = some o) := by
  cases x with
  | looking q => exact absurd rfl (h _ hb)
  | lineUp me | await me | start me =>
    obtain ⟨f, -, hi⟩ := h
    exact absurd hb (not_began_of_idle hi)
  | ask me =>
    obtain ⟨f, -, hi, -⟩ := h
    exact absurd hb (not_began_of_idle hi)
  | loading me q | offer me v | putting me v q =>
    obtain ⟨f, hl, -⟩ := h
    exact .inl ⟨me, f, rfl, hl⟩
  | settle me o =>
    obtain ⟨f, r, hl, -⟩ := h
    exact .inl ⟨me, f, rfl, hl⟩
  | leave me o =>
    obtain ⟨f, hr, ho, hover⟩ := h
    refine .inr ⟨hover, o, fun g hg hj => ?_⟩
    rw [hs.numbered g hg f hr.mem (ht.one i _ _ hr.joined hj)]
    exact ho
  | ended o => exact .inr ⟨h.1, o, fun g hg hj => (h.2 g.number hj).2 g hg rfl⟩

/-- Whoever began a load in a flight that is open heads its line. -/
theorem heads_of_began {i : ι} {x : Stage ρ} (hs : s.flights.Sound)
    (ht : Tidy keys ttl s.flights s.log) (h : At keys ttl s i x) (hb : .began i ∈ s.log)
    {f : Flight} (hf : f ∈ s.flights.flights) (hj : .joined i f.number ∈ s.log)
    (ho : f.outcome = none) : ∃ m, x.number? = some m ∧ f.line.head? = some m := by
  rcases leads_or_over_of_began hs ht h hb with ⟨m, g, hm, hl⟩ | ⟨-, o, hset⟩
  · obtain rfl := hs.numbered f hf g hl.mem (ht.one i _ _ hl.joined hj)
    exact ⟨m, hm, hl.head⟩
  · exact absurd (ho.symm.trans (hset f hf hj)) (by simp)

/-- One step of a caller, or its end, keeps the invariant if what it does to itself does. -/
theorem inv_effect [DecidableEq ι] {i : ι} {me left : Option Nat}
    {out : Flight → Option (Answer Value)} {added : List (Mark ι)} {x : Stage ρ}
    {y : Option (Stage ρ)} (h : Inv keys ttl s stages) (hi : stages i = some x)
    (he : Effect i me left out added s s') (hs : s'.flights.Sound)
    (ht : Tidy keys ttl s'.flights s'.log) (hme : ∀ m, me = some m → x.number? = some m)
    (hy : ∀ z, y = some z → At keys ttl s' i z)
    (hn : ∀ z m, y = some z → z.number? = some m → x.number? = some m ∨ m = s.flights.next)
    (ho : ∀ f ∈ s.flights.flights, f.outcome = none → ∀ o, out f = some o →
      Verdict keys ttl s'.log f.number o)
    (hb : (∀ e ∈ added, ∀ k, e ≠ .began k) ∨ added = [.began i] ∧ ∀ j f, .began j ∈ s.log →
      .joined i f ∈ s.log → .joined j f ∈ s.log → stages j = none) :
    Inv keys ttl s' (Function.update stages i y) := by
  have other {j : ι} {z : Stage ρ} (hj : j ≠ i) (hz : stages j = some z) {m : Nat}
      (hm : z.number? = some m) : x.number? ≠ some m := fun hx => hj (h.apart j i z x m hz hi hm hx)
  constructor
  case sound => exact hs
  case tidy => exact ht
  case at_stage =>
    intro j z hz
    rcases Pool.update_eq_some hz with ⟨rfl, hz'⟩ | ⟨hj, hz'⟩
    · exact hy z hz'
    · refine at_effect he h.sound h.tidy.endedOnce (h.tidy.aboard j) (unmarked_of_ne he hj) ?_
        (h.at_stage j z hz')
      exact fun m hm hme' => other hj hz' hm (hme m hme')
  case apart =>
    have self {j : ι} {z w : Stage ρ} {m : Nat} (hj : j ≠ i) (hz : y = some z)
        (hw : stages j = some w) (hzm : z.number? = some m) (hwm : w.number? = some m) : False := by
      rcases hn z m hz hzm with hx | rfl
      · exact other hj hw hwm hx
      · exact Nat.lt_irrefl _ (member_lt_of_at h.sound (h.at_stage j w hw) hwm)
    intro j k z w m hz hw hzm hwm
    rcases Pool.update_eq_some hz with ⟨rfl, hz'⟩ | ⟨hj, hz'⟩ <;>
      rcases Pool.update_eq_some hw with ⟨rfl, hw'⟩ | ⟨hk, hw'⟩
    · rfl
    · exact (self hk hz' hw' hzm hwm).elim
    · exact (self hj hw' hz' hwm hzm).elim
    · exact h.apart j k z w m hz' hw' hzm hwm
  case settled =>
    intro f' hf' o ho'
    rcases he.moves.back f' hf' with ⟨f, hf, hfn, -, hfo, -⟩ | ⟨-, hno, -⟩
    · rw [hfn]
      rw [hfo] at ho'
      cases hfo' : f.outcome with
      | none => exact ho f hf hfo' o ho'
      | some o' =>
        rw [he.settled f hf o' hfo'] at ho'
        obtain rfl := Option.some.inj ho'
        have hc : Clear s.flights none f.number := by
          refine clear_of_settled (o := o') fun g hg hgn => ?_
          rw [h.sound.numbered g hg f hf hgn, hfo']
        exact verdict_effect he h.tidy.endedOnce hc (h.settled f hf o' hfo')
    · rw [hno] at ho'
      exact absurd ho' (by simp)
  case takeover =>
    have gone {j : ι} (hnone : stages j = none) : Function.update stages i y j = none := by
      have hji : j ≠ i := by
        rintro rfl
        rw [hi] at hnone
        exact absurd hnone (by simp)
      rw [Function.update_of_ne hji]
      exact hnone
    have old := throughout_mono (fun e past hp k j f hk hj hkf hjf =>
      gone (hp k j f hk hj hkf hjf)) h.takeover
    rw [he.log]
    rcases hb with hb | ⟨rfl, hb⟩
    · exact throughout_append (fun e hm past k j f hk => absurd hk (hb e hm k)) old
    · refine ⟨fun k j f hk hj hkf hjf => ?_, old⟩
      obtain rfl := Mark.began.inj hk
      exact gone (hb j f hj hkf hjf)

/-! ## One step of a caller -/

section Step

variable {i : ι}

/-- A change by which nobody comes or goes, and that marks nothing. -/
theorem effect_quiet (i : ι) (me : Option Nat) (hlog : s'.log = s.log)
    (hm : Flights.Moves none Flight.outcome s.flights s'.flights) :
    Effect i me none Flight.outcome [] s s' := by
  constructor
  case log => exact hlog
  case moves => exact hm
  case left => exact fun m hm => absurd hm (by simp)
  case by_self => exact fun e he => absurd he List.not_mem_nil
  case calm => exact fun n f _ _ e he => absurd he List.not_mem_nil
  case settled => exact fun f _ o ho => ho
  case spared => exact fun f _ m _ _ ho => ho

/-- A step that marks something, and changes no flight. -/
theorem effect_mark (i : ι) (me : Option Nat) {e : Mark ι} (hb : ∀ j, e.by? = some j → j = i)
    (hc : ∀ n f, (∀ m, n = some m → me ≠ some m) → Clear s.flights n f → Calm [e] s.log f) :
    Effect i me none Flight.outcome [e] s (mark e s) := by
  constructor
  case log => exact rfl
  case moves => exact Flights.moves_refl _
  case left => exact fun m hm => absurd hm (by simp)
  case by_self =>
    intro e' he' j hj
    obtain rfl := List.mem_singleton.mp he'
    exact hb j hj
  case calm => exact hc
  case settled => exact fun f _ o ho => ho
  case spared => exact fun f _ m _ _ ho => ho

variable [DecidableEq ι] {x z : Stage ρ} {me : Nat}

theorem not_open_some {f : Flight} (ho : f.outcome = none) (o : Answer Value)
    (h : f.outcome = some o) {P : Prop} : P := absurd (ho.symm.trans h) (by simp)

/-- A step elsewhere, from one stage to the next or out of the call. -/
theorem inv_elsewhere (h : Inv keys ttl s stages) (hi : stages i = some x) (hs : Elsewhere s s')
    (y : Option (Stage ρ)) (hy : ∀ z, y = some z → z.number? = x.number? ∧ At keys ttl s i z) :
    Inv keys ttl s' (Function.update stages i y) := by
  obtain ⟨r, rfl⟩ := hs
  have he : Effect i x.number? none Flight.outcome [] s { s with rest := r } :=
    effect_quiet i x.number? rfl (Flights.moves_refl _)
  refine inv_effect h hi he h.sound h.tidy (fun m hm => hm) (fun z hz => (hy z hz).2) ?_ ?_ ?_
  · exact fun z m hz hm => .inl ((hy z hz).1 ▸ hm)
  · exact fun f _ ho o ho' => not_open_some ho o ho'
  · exact .inl fun e he => absurd he List.not_mem_nil

/-- A step that marks something in the log. -/
theorem inv_mark (h : Inv keys ttl s stages) (hi : stages i = some x) {e : Mark ι}
    (hb : ∀ j, e.by? = some j → j = i)
    (hc : ∀ n f, (∀ m, n = some m → x.number? ≠ some m) → Clear s.flights n f →
      Calm [e] s.log f)
    (ht : Tidy keys ttl s.flights (e :: s.log)) (hz : z.number? = x.number?)
    (hat : At keys ttl (mark e s) i z)
    (hbegan : (∀ k, e ≠ .began k) ∨ e = .began i ∧ ∀ j f, .began j ∈ s.log →
      .joined i f ∈ s.log → .joined j f ∈ s.log → stages j = none) :
    Inv keys ttl (mark e s) (Function.update stages i (some z)) := by
  refine inv_effect h hi (effect_mark i x.number? hb hc) h.sound ht (fun m hm => hm) ?_ ?_ ?_ ?_
  · rintro w hw
    obtain rfl := Option.some.inj hw
    exact hat
  · rintro w m hw hm
    obtain rfl := Option.some.inj hw
    exact .inl (hz ▸ hm)
  · exact fun f _ ho o ho' => not_open_some ho o ho'
  · refine hbegan.imp (fun hb e' he' => ?_) (fun hb => ⟨by rw [hb.1], hb.2⟩)
    obtain rfl := List.mem_singleton.mp he'
    exact hb

/-- A step by which nobody joins a flight. -/
theorem inv_moves (h : Inv keys ttl s stages) (hi : stages i = some x) {left : Option Nat}
    {out : Flight → Option (Answer Value)} {fs : Flights}
    (hm : Flights.Moves left out s.flights fs) (hs : fs.Sound) (hn : fs.next = s.flights.next)
    (hr : ∀ e ∈ news i s.flights fs, ∃ f ∈ s.flights.flights, f.listed = true ∧
      e = .retired f.number f.key ∧ ∀ g ∈ fs.flights, g.listed = true → g.number ≠ f.number)
    (hl : ∀ m, left = some m → x.number? = some m)
    (hout : ∀ f ∈ s.flights.flights, ∀ o, f.outcome = some o → out f = some o)
    (hspared : ∀ f ∈ s.flights.flights, ∀ m, x.number? ≠ some m → f.line.head? = some m →
      f.outcome = none → out f = none)
    (y : Option (Stage ρ)) (hy : ∀ z, y = some z →
      Effect i x.number? left out (news i s.flights fs) s ((flown i).set fs s) →
      At keys ttl ((flown i).set fs s) i z)
    (hz : ∀ z m, y = some z → z.number? = some m → x.number? = some m)
    (ho : ∀ f ∈ s.flights.flights, f.outcome = none → ∀ o, out f = some o →
      Verdict keys ttl (news i s.flights fs ++ s.log) f.number o) :
    Inv keys ttl ((flown i).set fs s) (Function.update stages i y) := by
  have he : Effect i x.number? left out (news i s.flights fs) s ((flown i).set fs s) := by
    refine ⟨rfl, hm, hl, fun e he j hj => ?_, fun n f _ _ e he => ?_, hout, hspared⟩
    · obtain ⟨g, -, -, rfl, -⟩ := hr e he
      exact absurd hj (by simp [Mark.by?])
    · obtain ⟨g, -, -, rfl, -⟩ := hr e he
      trivial
  refine inv_effect h hi he hs (tidy_moves h.tidy h.sound hm hn hr) (fun m hm => hm)
    (fun z hz => hy z hz he) (fun z m hz' hm => .inl (hz z m hz' hm)) ho (.inl fun e he k hk => ?_)
  obtain ⟨g, -, -, rfl, -⟩ := hr e he
  exact absurd hk (by simp)

theorem inv_join {q : Process ρ (Answer Value)} (h : Inv keys ttl s stages)
    (hi : stages i = some (.looking q)) :
    Inv keys ttl ((flown i).set (s.flights.join (keys i)).2 s)
      (Function.update stages i (some (.lineUp s.flights.next))) := by
  have hu : Unmarked s.log i := h.at_stage i _ hi
  obtain ⟨f, hf, hm, hk, -, hn⟩ := Flights.exists_joined s.flights (keys i)
  have hnews := news_join (i := i) h.sound hf hm
  have hs := Flights.sound_join h.sound (keys i)
  have ht := tidy_join h.tidy h.sound hu hf hk hn
  have he : Effect i none none Flight.outcome [.joined i f.number] s
      ((flown i).set (s.flights.join (keys i)).2 s) := by
    constructor
    case log =>
      rw [← hnews]
      rfl
    case moves => exact Flights.moves_join s.flights (keys i)
    case left => exact fun m hm => absurd hm (by simp)
    case by_self =>
      intro e he j hj
      obtain rfl := List.mem_singleton.mp he
      exact (Option.some.inj hj).symm
    case calm =>
      intro n g _ _ e he
      obtain rfl := List.mem_singleton.mp he
      exact fun hb => hu _ hb rfl
    case settled => exact fun f _ o ho => ho
    case spared => exact fun f _ m _ _ ho => ho
  have hlog := he.log
  refine inv_effect h hi he hs (hlog ▸ ht) (fun m hm => absurd hm (by simp)) ?_ ?_ ?_ ?_
  · rintro z hz
    obtain rfl := Option.some.inj hz
    refine ⟨f, ⟨hf, hm, hk, ?_⟩, fun e he' hb => ?_⟩
    · rw [hlog]
      exact List.mem_cons_self
    · rw [hlog] at he'
      rcases List.mem_cons.mp he' with rfl | he'
      · exact ⟨_, rfl⟩
      · exact absurd hb (hu e he')
  · rintro z m hz hm
    obtain rfl := Option.some.inj hz
    exact .inr (Option.some.inj hm).symm
  · exact fun f _ ho o ho' => not_open_some ho o ho'
  · refine .inl fun e he k hk => ?_
    obtain rfl := List.mem_singleton.mp he
    exact absurd hk (by simp)

theorem inv_lineUp (h : Inv keys ttl s stages) (hi : stages i = some (.lineUp me)) :
    Inv keys ttl ((flown i).set (s.flights.lineUp me) s)
      (Function.update stages i (some (.await me))) := by
  have hm := Flights.moves_lineUp s.flights me
  have hnews : news i s.flights (s.flights.lineUp me) = [] := news_eq_nil hm rfl
  obtain ⟨f, hr, hidle⟩ := h.at_stage i _ hi
  refine inv_moves h hi hm (Flights.sound_lineUp h.sound me) rfl ?_ ?_ (fun f _ o ho => ho)
    (fun f _ m _ _ ho => ho) _ ?_ ?_ (fun f _ ho o ho' => not_open_some ho o ho')
  · rw [hnews]
    exact fun e he => absurd he List.not_mem_nil
  · exact fun m hm => absurd hm (by simp)
  · rintro z hz he
    obtain rfl := Option.some.inj hz
    obtain ⟨f', hr', -⟩ := rides_effect he (by simp) hr
    refine ⟨f', hr', fun e he' hb => hidle e ?_ hb⟩
    rw [he.log, hnews] at he'
    exact he'
  · rintro z m hz hm
    obtain rfl := Option.some.inj hz
    exact hm

/-- The caller whose load is over gives everyone in its flight the outcome. -/
theorem inv_settle (h : Inv keys ttl s stages) (hi : stages i = some x)
    (hx : x.number? = some me) {f : Flight} {r : Except Cause Value}
    (hl : Leads s.flights s.log (keys i) i me f) (hL : LastLoad s.log f.number i)
    (hr : .ended i r ∈ s.log) (hk : Kept s.log ttl i (keys i) r) :
    Inv keys ttl ((flown i).set (s.flights.settle me (loaded (keys i) r)) s)
      (Function.update stages i (some (.leave me (loaded (keys i) r)))) := by
  have hm := Flights.moves_settle s.flights me (loaded (keys i) r)
  have hnews : news i s.flights (s.flights.settle me (loaded (keys i) r)) = [] :=
    news_eq_nil hm rfl
  have mine {g : Flight} (hg : g ∈ s.flights.flights) (hg' : g.has me = true) : g = f :=
    h.sound.apart g hg f hl.mem me (Flights.has_iff.mp hg') hl.member
  refine inv_moves h hi hm (Flights.sound_settle h.sound me _) rfl ?_ ?_ ?_ ?_ _ ?_ ?_ ?_
  · rw [hnews]
    exact fun e he => absurd he List.not_mem_nil
  · exact fun m hm => absurd hm (by simp)
  · intro g hg o ho
    rw [if_neg ?_]
    · exact ho
    · intro hme
      rw [mine hg hme, hl.unsettled] at ho
      exact absurd ho (by simp)
  · intro g hg m hne hh ho
    rw [if_neg ?_]
    · exact ho
    · intro hme
      rw [mine hg hme, hl.head, ← hx] at hh
      exact hne hh
  · rintro z hz he
    obtain rfl := Option.some.inj hz
    obtain ⟨f', hr', -, ho', -⟩ := rides_effect he (by simp) hl.toRides
    refine ⟨f', hr', ?_, fun _ => ⟨r, mem_log he hr⟩⟩
    rw [ho', if_pos (Flights.has_iff.mpr hl.member)]
  · rintro z m hz hm
    obtain rfl := Option.some.inj hz
    exact hx.trans hm
  · intro g hg hno o ho
    by_cases hme : g.has me = true
    · rw [if_pos hme] at ho
      obtain rfl := Option.some.inj ho
      rw [hnews, mine hg hme]
      exact ⟨i, r, hL, hr, rfl, hk⟩
    · rw [if_neg hme] at ho
      exact not_open_some hno o ho

/-- A caller that leaves, with the outcome or without. -/
theorem inv_leave (h : Inv keys ttl s stages) (hi : stages i = some x)
    (hx : x.number? = some me) (y : Option (Stage ρ)) (hz : ∀ z, y = some z → z.number? = none)
    (hy : ∀ z, y = some z →
      Effect i x.number? (some me) Flight.outcome (news i s.flights (s.flights.part me)) s
        ((flown i).set (s.flights.part me) s) →
      At keys ttl ((flown i).set (s.flights.part me) s) i z) :
    Inv keys ttl ((flown i).set (s.flights.part me) s) (Function.update stages i y) := by
  refine inv_moves h hi (Flights.moves_part s.flights me) (Flights.sound_part h.sound me) rfl
    (fun e he => mem_news_part he) ?_ (fun f _ o ho => ho) (fun f _ m _ _ ho => ho) y hy ?_
    (fun f _ ho o ho' => not_open_some ho o ho')
  · rintro m hm
    obtain rfl := Option.some.inj hm
    exact hx
  · intro z m hz' hm
    rw [hz z hz'] at hm
    exact absurd hm (by simp)

/-- A caller that leaves with the outcome of its flight has ended. -/
theorem inv_ended {o : Answer Value} (h : Inv keys ttl s stages)
    (hi : stages i = some (.leave me o)) :
    Inv keys ttl ((flown i).set (s.flights.part me) s)
      (Function.update stages i (some (.ended o))) := by
  obtain ⟨f, hr, hfo, hover⟩ := h.at_stage i _ hi
  refine inv_leave h hi rfl _ ?_ ?_
  · rintro z hz
    obtain rfl := Option.some.inj hz
    rfl
  · rintro z hz he
    obtain rfl := Option.some.inj hz
    have marks {e : Mark ι} (he' : e ∈ ((flown i).set (s.flights.part me) s).log)
        (hb : ∀ f k, e ≠ .retired f k) : e ∈ s.log := by
      rw [he.log] at he'
      rcases List.mem_append.mp he' with he' | he'
      · obtain ⟨g, -, -, rfl, -⟩ := mem_news_part he'
        exact absurd rfl (hb _ _)
      · exact he'
    refine ⟨fun hb => ?_, fun n hn => ?_⟩
    · obtain ⟨r, hr'⟩ := hover (marks hb (by simp))
      exact ⟨r, mem_log he hr'⟩
    · obtain rfl := h.tidy.one i _ _ hr.joined (marks hn (by simp))
      have hc : Clear s.flights none f.number := by
        refine clear_of_settled (o := o) fun g hg hgn => ?_
        rw [h.sound.numbered g hg f hr.mem hgn, hfo]
      refine ⟨verdict_effect he h.tidy.endedOnce hc (h.settled f hr.mem o hfo),
        fun g' hg' hn' => ?_⟩
      rcases he.moves.back g' hg' with ⟨g, hg, hgn, -, hgo, -⟩ | ⟨hgn, -, -⟩
      · rw [hgo, h.sound.numbered g hg f hr.mem (hgn.symm.trans hn'), hfo]
      · exact absurd (h.sound.number_lt f hr.mem) (by omega)

/-- A caller begins its load only when nobody else's is at work for its flight. -/
theorem inv_start {q : Process ρ (Except Cause Value)} (h : Inv keys ttl s stages)
    (hi : stages i = some (.start me)) :
    Inv keys ttl (mark (.began i) s) (Function.update stages i (some (.loading me q))) := by
  obtain ⟨f, hl, hidle⟩ := h.at_stage i _ hi
  have fresh {e : Mark ι} (hb : e.by? = some i) (hj : ∀ f, e ≠ .joined i f) : e ∉ s.log := by
    intro he
    obtain ⟨g, hg⟩ := hidle e he hb
    exact hj g hg
  refine inv_mark h hi ?_ ?_ ?_ rfl ?_ (.inr ⟨rfl, ?_⟩)
  · exact fun j hj => (Option.some.inj hj).symm
  · intro n g hn hc e he
    obtain rfl := List.mem_singleton.mp he
    intro hj
    rcases List.mem_cons.mp hj with hj | hj
    · exact absurd hj (by simp)
    · obtain rfl := h.tidy.one i _ _ hl.joined hj
      obtain ⟨m, rfl, hm⟩ := hc f hl.mem rfl hl.unsettled
      rw [hl.head] at hm
      exact hn m rfl hm
  · refine tidy_mark h.tidy (by simp) (by simp) (by simp) (by simp) ?_ (by simp)
    intro j hj
    obtain rfl := Mark.began.inj hj
    exact ⟨fresh rfl (by simp), f.number, hl.joined⟩
  · refine ⟨f, hl.mark _, lastLoad_began hl.joined, fun r hr => ?_, fun k v d ho => ?_⟩
    · rcases List.mem_cons.mp hr with hr | hr
      · exact absurd hr (by simp)
      · exact fresh rfl (by simp) hr
    · rcases List.mem_cons.mp ho with ho | ho
      · exact absurd ho (by simp)
      · exact fresh rfl (by simp) ho
  · -- Whoever began a load of the flight before and is still there would head the line as well.
    intro j n hb hjn hjn'
    by_contra hne
    obtain ⟨y, hy⟩ := Option.ne_none_iff_exists'.mp hne
    obtain rfl := h.tidy.one i _ _ hl.joined hjn
    obtain ⟨m, hm, hh⟩ :=
      heads_of_began h.sound h.tidy (h.at_stage j y hy) hb hl.mem hjn' hl.unsettled
    rw [hl.head] at hh
    obtain rfl := h.apart i j _ y me hi hy rfl (hm.trans hh.symm)
    exact fresh rfl (by simp) hb

/-- The load of a caller ends. -/
theorem inv_loaded {q : Process ρ (Except Cause Value)} {r : Except Cause Value}
    (h : Inv keys ttl s stages) (hi : stages i = some (.loading me q))
    (hz : z.number? = some me)
    (hat : ∀ f, Leads s.flights (.ended i r :: s.log) (keys i) i me f →
      LastLoad (.ended i r :: s.log) f.number i →
      (∀ k v d, .offered i k v d ∉ .ended i r :: s.log) → At keys ttl (mark (.ended i r) s) i z) :
    Inv keys ttl (mark (.ended i r) s) (Function.update stages i (some z)) := by
  obtain ⟨f, hl, hL, hne, hno⟩ := h.at_stage i _ hi
  have hc (n : Nat) : Calm [.ended i r] s.log n := by
    intro e he
    obtain rfl := List.mem_singleton.mp he
    trivial
  refine inv_mark h hi ?_ (fun _ n _ _ => hc n) ?_ hz ?_ (.inl (by simp))
  · exact fun j hj => (Option.some.inj hj).symm
  · refine tidy_mark h.tidy (by simp) (by simp) (by simp) ?_ (by simp) (by simp)
    intro j r' hj r''
    obtain ⟨rfl, rfl⟩ := Mark.ended.inj hj
    exact hne r''
  · refine hat f (hl.mark _) (lastLoad_append (hc _) hL) fun k v d ho => ?_
    rcases List.mem_cons.mp ho with ho | ho
    · exact absurd ho (by simp)
    · exact hno k v d ho

/-- A caller offers the value that it has loaded. -/
theorem inv_offer {v : Value} {q : Process ρ (Answer Unit)} (h : Inv keys ttl s stages)
    (hi : stages i = some (.offer me v)) :
    Inv keys ttl (mark (.offered i (keys i) v ttl) s)
      (Function.update stages i (some (.putting me v q))) := by
  obtain ⟨f, hl, hL, hr⟩ := h.at_stage i _ hi
  have hc (n : Nat) : Calm [.offered i (keys i) v ttl] s.log n := by
    intro e he
    obtain rfl := List.mem_singleton.mp he
    exact ⟨v, hr⟩
  refine inv_mark h hi ?_ (fun _ n _ _ => hc n) ?_ rfl ?_ (.inl (by simp))
  · exact fun j hj => (Option.some.inj hj).symm
  · refine tidy_mark h.tidy (by simp) (by simp) (by simp) (by simp) (by simp) ?_
    intro j k w d hj
    obtain ⟨rfl, rfl, rfl, rfl⟩ := Mark.offered.inj hj
    exact ⟨rfl, rfl, hr⟩
  · exact ⟨f, hl.mark _, lastLoad_append (hc _) hL, List.mem_cons_of_mem _ hr, List.mem_cons_self⟩

/-- **One step of a caller.** -/
theorem inv_flies {inner : Cache ρ} {load : Loader ρ} (h : Inv keys ttl s stages)
    (hi : stages i = some x) (hf : Flies inner load ttl i (keys i) s x z s') :
    Inv keys ttl s' (Function.update stages i (some z)) := by
  have elsewhere (hs : Elsewhere s s') (hn : z.number? = x.number?) (hz : At keys ttl s i z) :
      Inv keys ttl s' (Function.update stages i (some z)) := by
    refine inv_elsewhere h hi hs _ fun w hw => ?_
    obtain rfl := Option.some.inj hw
    exact ⟨hn, hz⟩
  have hat := h.at_stage i x hi
  cases hf with
  | look hs => exact elsewhere hs rfl hat
  | join e => exact inv_join h hi
  | lineUp me => exact inv_lineUp h hi
  | await hready =>
    obtain ⟨f, hr, hidle⟩ := hat
    exact elsewhere ⟨s.rest, rfl⟩ rfl
      ⟨f, hr, hidle, (Flights.ready_iff h.sound hr.mem hr.member).mp hready⟩
  | take ho =>
    obtain ⟨f, hr, hidle, -⟩ := hat
    rw [Flights.outcome?_eq h.sound hr.mem hr.member] at ho
    have hover : Over s.log i := fun hb => absurd hb (not_began_of_idle hidle)
    exact elsewhere ⟨s.rest, rfl⟩ rfl ⟨f, hr, ho, hover⟩
  | lead ho =>
    obtain ⟨f, hr, hidle, hh⟩ := hat
    rw [Flights.outcome?_eq h.sound hr.mem hr.member] at ho
    have hhead : f.line.head? = some _ := hh.resolve_left fun hne => hne ho
    exact elsewhere ⟨s.rest, rfl⟩ rfl ⟨f, ⟨hr, ho, hhead⟩, hidle⟩
  | start me => exact inv_start h hi
  | load hs => exact elsewhere hs rfl hat
  | failed me c =>
    exact inv_loaded h hi rfl fun f hl hL hno =>
      ⟨f, .error c, hl, hL, List.mem_cons_self, rfl, hno⟩
  | loaded me v =>
    exact inv_loaded h hi rfl fun f hl hL _ => ⟨f, hl, hL, List.mem_cons_self⟩
  | offer me v => exact inv_offer h hi
  | put hs => exact elsewhere hs rfl hat
  | refused hs =>
    obtain ⟨f, hl, hL, hr, ho⟩ := hat
    exact elsewhere hs rfl ⟨f, _, hl, hL, hr, rfl, ho⟩
  | kept me v =>
    obtain ⟨f, hl, hL, hr, ho⟩ := hat
    exact inv_settle h hi rfl hl hL hr ho
  | settle me o =>
    obtain ⟨f, r, hl, hL, hr, rfl, hk⟩ := hat
    exact inv_settle h hi rfl hl hL hr hk
  | leave me o => exact inv_ended h hi

omit [DecidableEq ι] in
theorem at_elsewhere (h : Elsewhere s s') (hx : At keys ttl s i x) : At keys ttl s' i x := by
  obtain ⟨r, rfl⟩ := h
  cases x <;> exact hx

/-- **A caller is given up.** -/
theorem inv_givenUp (h : Inv keys ttl s stages) (hi : stages i = some x)
    (hg : GivenUp i s x.number? s') : Inv keys ttl s' (Function.update stages i none) := by
  generalize hn : x.number? = n at hg
  cases hg with
  | outside hs => exact inv_elsewhere h hi hs none fun w hw => absurd hw (by simp)
  | aboard hs =>
    have nobody {P : Stage ρ → Prop} (w : Stage ρ) (hw : none = some w) : P w :=
      absurd hw (by simp)
    have h' := inv_elsewhere h hi hs (some x) fun w hw => by
      obtain rfl := Option.some.inj hw
      exact ⟨rfl, h.at_stage i _ hi⟩
    rw [← hi, Function.update_eq_self] at h'
    exact inv_leave h' hi hn none nobody nobody

omit [DecidableEq ι] in
/-- The rest of the state changes from outside. -/
theorem inv_outside (h : Inv keys ttl s stages) (hs : Elsewhere s s') :
    Inv keys ttl s' stages := by
  have hat : ∀ i x, stages i = some x → At keys ttl s' i x := fun i x hi =>
    at_elsewhere hs (h.at_stage i x hi)
  obtain ⟨r, rfl⟩ := hs
  exact ⟨h.sound, h.tidy, hat, h.apart, h.settled, h.takeover⟩

omit [DecidableEq ι] in
/-- A caller that has given up its place lets go of its flight. -/
theorem inv_release (h : Inv keys ttl s stages) (me : Nat) :
    Inv keys ttl { s with flights := s.flights.release me } stages := by
  have hm := Flights.moves_release s.flights me
  have he (j : ι) :
      Effect j none none Flight.outcome [] s { s with flights := s.flights.release me } :=
    effect_quiet j none rfl hm
  refine ⟨Flights.sound_release h.sound me, ?_, fun j x hj => ?_, h.apart, fun f' hf' o ho => ?_,
    h.takeover⟩
  · change Tidy keys ttl _ ([] ++ s.log)
    exact tidy_moves h.tidy h.sound hm rfl fun e he => absurd he List.not_mem_nil
  · exact at_effect (he j) h.sound h.tidy.endedOnce (h.tidy.aboard j)
      (fun e he => absurd he List.not_mem_nil) (fun m _ hm => absurd hm (by simp))
      (h.at_stage j x hj)
  · rcases hm.back f' hf' with ⟨f, hf, hn, -, hfo, -⟩ | ⟨-, hno, -⟩
    · rw [hn]
      exact h.settled f hf o (hfo.symm.trans ho)
    · exact absurd (hno.symm.trans ho) (by simp)

end Step

/-! ## All callers -/

section Callers

variable [Clock ρ] [Journal ρ] {ε : Type} (inner : Cache ρ) (load : Loader ρ) (ttl : Duration)
  (keys : ι → String) (effect : ε → ρ → ρ)

/-- Callers side by side, none of whom has taken a step. -/
def callers (r : ρ) : Pool ι (Sky ι ρ) (Answer Value) where
  state := ⟨Flights.empty, [], r⟩
  threads i := some (call inner load ttl i (keys i))

/-- What happens around the callers. -/
inductive Around (ε : Type) where
  /-- Something happens to the rest of the state. -/
  | rest (e : ε)
  /-- The caller of a number lets go of its flight, if it has given up its place. -/
  | release (me : Nat)

/-- What happens outside happens to the rest of the state, but for callers that let go. -/
def afar : Around ε → Sky ι ρ → Sky ι ρ
  | .rest e, s => { s with rest := effect e s.rest }
  | .release me, s => { s with flights := s.flights.release me }

/-- The load of a caller has begun, has not ended, and has not been given up. -/
def Running (p : Pool ι (Sky ι ρ) (Answer Value)) (i : ι) : Prop :=
  .began i ∈ p.state.log ∧ (∀ r, .ended i r ∉ p.state.log) ∧ p.threads i ≠ none

/-- What is promised of callers. -/
structure Orderly (p : Pool ι (Sky ι ρ) (Answer Value)) : Prop where
  /-- No two loads of a key run at once. -/
  exclusive : ∀ i j, Running p i → Running p j → keys i = keys j → i = j
  /-- Every caller joins one flight at most, and all in a flight ask for one key. -/
  one : ∀ i f f', .joined i f ∈ p.state.log → .joined i f' ∈ p.state.log → f' = f
  same : ∀ i j f, .joined i f ∈ p.state.log → .joined j f ∈ p.state.log → keys j = keys i
  /-- A caller begins one load at most, for the flight that it has joined. -/
  begun : Throughout (fun e past => ∀ i, e = .began i →
    .began i ∉ past ∧ ∃ f, .joined i f ∈ past) p.state.log
  /-- A caller in a flight has got what the last load of the flight came to, and if that was a
  value, it has been offered to the inner cache. -/
  agreed : ∀ i f r, .joined i f ∈ p.state.log → p.threads i = some (.done r) →
    Verdict keys ttl p.state.log f r
  equal : ∀ i j f r r', .joined i f ∈ p.state.log → .joined j f ∈ p.state.log →
    p.threads i = some (.done r) → p.threads j = some (.done r') → r' = r
  /-- Whoever began a load in a flight where another load began later had been given up. -/
  takeover : Throughout (fun e past => ∀ i j f, e = .began i → .began j ∈ past →
    .joined i f ∈ past → .joined j f ∈ past → p.threads j = none) p.state.log
  /-- Nothing is written to the inner cache but the values of loads that succeeded. -/
  offered : Throughout (fun e past => ∀ i k v d, e = .offered i k v d →
    k = keys i ∧ d = ttl ∧ .ended i (.ok v) ∈ past) p.state.log
  untouched : ∀ i, .touched i ∉ p.state.log
  /-- Whoever joins after a flight of its key was taken off the list gets the outcome of a load
  that began later, in another flight. -/
  renewed : ∀ newer between older i f f',
    p.state.log = newer ++ .joined i f' :: (between ++ .retired f (keys i) :: older) →
    f' ≠ f ∧ (∀ j, .joined j f' ∉ older) ∧ ∀ r, p.threads i = some (.done r) →
      ∃ j r', .began j ∉ older ∧ .joined j f' ∈ p.state.log ∧ .ended j r' ∈ p.state.log ∧
        r = loaded (keys j) r'

variable {inner load ttl keys effect} {p : Pool ι (Sky ι ρ) (Answer Value)}
  {stages : ι → Option (Stage ρ)}

/-- The caller is at that stage. -/
def Staged (inner : Cache ρ) (load : Loader ρ) (ttl : Duration) (keys : ι → String)
    (p : Pool ι (Sky ι ρ) (Answer Value)) (stages : ι → Option (Stage ρ)) : Prop :=
  ∀ i, p.threads i = (stages i).map (Stage.process inner load ttl i (keys i))

omit [Clock ρ] in
theorem inv_callers (r : ρ) : Inv keys ttl (callers inner load ttl keys r).state
    (fun i => some (.looking (inner.get (keys i)))) := by
  refine ⟨Flights.sound_empty, tidy_empty, ?_, ?_, fun f hf => absurd hf List.not_mem_nil, trivial⟩
  · rintro i x hx
    obtain rfl := Option.some.inj hx
    exact fun e he => absurd he List.not_mem_nil
  · rintro i j x y m hx - hm
    obtain rfl := Option.some.inj hx
    exact absurd hm (by simp [Stage.number?])

/-- **What every turn keeps.** -/
theorem inv_moved [DecidableEq ι] {t : Turn ι (Around ε)}
    {x : Option (Pool.Event ι (Sky ι ρ) (Answer Value))} {p' : Pool ι (Sky ι ρ) (Answer Value)}
    (h : ∃ stages, Inv keys ttl p.state stages ∧ Staged inner load ttl keys p stages)
    (hm : Pool.Moved (afar effect) p t x p') :
    ∃ stages, Inv keys ttl p'.state stages ∧ Staged inner load ttl keys p' stages := by
  obtain ⟨stages, hinv, hst⟩ := h
  have staged {s : Sky ι ρ} (i : ι) (y : Option (Stage ρ)) :
      Staged inner load ttl keys ⟨s, Function.update p.threads i
        (y.map (Stage.process inner load ttl i (keys i)))⟩ (Function.update stages i y) :=
    Pool.update_eq_map (e := id) Function.injective_id hst i y
  cases hm with
  | still t => exact ⟨stages, hinv, hst⟩
  | @step i q q' s hq hs =>
    rw [hst i] at hq
    obtain ⟨x, hx, rfl⟩ := Option.map_eq_some_iff.mp hq
    obtain ⟨z, rfl, hf⟩ := flies_of_next? hs
    exact ⟨_, inv_flies hinv hx hf, staged i (some z)⟩
  | @gone i w c q hq =>
    rw [hst i] at hq
    obtain ⟨x, hx, hq⟩ := Option.map_eq_some_iff.mp hq
    exact ⟨_, inv_givenUp hinv hx (givenUp_of_wait hq p.state), staged i none⟩
  | outside e =>
    cases e with
    | rest e => exact ⟨stages, inv_outside hinv ⟨_, rfl⟩, hst⟩
    | release me => exact ⟨stages, inv_release hinv me, hst⟩

omit [Clock ρ] in
/-- A caller that is done has the outcome of its flight. -/
theorem verdict_of_done (h : Inv keys ttl p.state stages)
    (hst : Staged inner load ttl keys p stages) {i : ι} {f : Nat} {r : Answer Value}
    (hj : .joined i f ∈ p.state.log) (hd : p.threads i = some (.done r)) :
    Verdict keys ttl p.state.log f r := by
  rw [hst i] at hd
  obtain ⟨x, hx, hd⟩ := Option.map_eq_some_iff.mp hd
  have hat := h.at_stage i x hx
  rcases stage_of_done hd with rfl | ⟨v, rfl, rfl⟩
  · exact (hat.2 f hj).1
  · exact absurd rfl (hat _ hj)

omit [Clock ρ] in
/-- Whoever's load is running heads the line of a flight of its key. -/
theorem leads_of_running (h : Inv keys ttl p.state stages)
    (hst : Staged inner load ttl keys p stages) {i : ι} (hi : Running p i) :
    ∃ x me f, stages i = some x ∧ x.number? = some me ∧
      Leads p.state.flights p.state.log (keys i) i me f := by
  obtain ⟨hb, hne, hsome⟩ := hi
  cases hx : stages i with
  | none => exact absurd (by rw [hst i, hx]; rfl) hsome
  | some x =>
    rcases leads_or_over_of_began h.sound h.tidy (h.at_stage i x hx) hb with
      ⟨me, f, hm, hl⟩ | ⟨hover, -⟩
    · exact ⟨x, me, f, rfl, hm, hl⟩
    · obtain ⟨r, hr⟩ := hover hb
      exact absurd hr (hne r)

omit [Clock ρ] in
theorem orderly_of_inv (h : Inv keys ttl p.state stages)
    (hst : Staged inner load ttl keys p stages) : Orderly ttl keys p := by
  have ht := h.tidy
  constructor
  case exclusive =>
    intro i j hi hj hk
    obtain ⟨x, me, f, hx, hxm, hl⟩ := leads_of_running h hst hi
    obtain ⟨y, me', g, hy, hym, hl'⟩ := leads_of_running h hst hj
    have listed {key : String} {k : ι} {m : Nat} {f : Flight}
        (hl : Leads p.state.flights p.state.log key k m f) : f.listed = true :=
      h.sound.unsettled f hl.mem hl.unsettled (List.ne_nil_of_mem hl.member)
    obtain rfl := h.sound.keyed f hl.mem g hl'.mem (listed hl) (listed hl')
      (hl.key.trans (hk.trans hl'.key.symm))
    obtain rfl := Option.some.inj (hl.head.symm.trans hl'.head)
    exact h.apart i j x y me hx hy hxm hym
  case one => exact ht.one
  case same => exact ht.same
  case begun => exact ht.begun
  case agreed => exact fun i f r hj hd => verdict_of_done h hst hj hd
  case equal =>
    exact fun i j f r r' hi hj hd hd' =>
      verdict_unique ht.endedOnce (verdict_of_done h hst hi hd) (verdict_of_done h hst hj hd')
  case takeover =>
    refine throughout_mono (fun e past hp i j f hi hj hif hjf => ?_) h.takeover
    rw [hst j, hp i j f hi hj hif hjf]
    rfl
  case offered => exact ht.offered
  case untouched => exact ht.untouched
  case renewed =>
    intro newer between older i f f' hlog
    have hr := ht.renewed
    rw [hlog] at hr
    obtain ⟨hne, hno⟩ := (throughout_older ((throughout_older hr).1 i f' rfl)).1 f rfl
    refine ⟨hne.symm, hno, fun r hd => ?_⟩
    have hj : .joined i f' ∈ p.state.log := by
      rw [hlog]
      exact List.mem_append_right _ List.mem_cons_self
    obtain ⟨j, r', ⟨n, o, hno', hjo, -⟩, hended, rfl, -⟩ := verdict_of_done h hst hj hd
    have hjl : .joined j f' ∈ p.state.log := by
      rw [hno']
      exact List.mem_append_right _ (List.mem_cons_of_mem _ hjo)
    refine ⟨j, r', fun hb => ?_, hjl, hended, rfl⟩
    -- Its load began as a member of the flight, and that had no members before.
    obtain ⟨a, b, rfl⟩ := List.append_of_mem hb
    have hbegun := ht.begun
    rw [hlog] at hbegun
    obtain ⟨-, g, hg⟩ :=
      (throughout_older (throughout_older (throughout_older hbegun).2).2).1 j rfl
    have hgo : .joined j g ∈ a ++ .began j :: b :=
      List.mem_append_right _ (List.mem_cons_of_mem _ hg)
    obtain rfl := ht.one j _ _ hjl (by
      rw [hlog]
      exact List.mem_append_right _ (List.mem_cons_of_mem _
        (List.mem_append_right _ (List.mem_cons_of_mem _ hgo))))
    exact hno j hgo

/-- **One load at a time, one outcome for a flight, and a new load for whoever comes after it**,
in every order of steps of any number of callers, each of them given up at any of its waits and
letting go of its flight any time later. -/
theorem run_orderly [DecidableEq ι] (inner : Cache ρ) (load : Loader ρ) (ttl : Duration)
    (keys : ι → String) (effect : ε → ρ → ρ) (r : ρ) (turns : List (Turn ι (Around ε))) :
    Orderly ttl keys ((callers inner load ttl keys r).run (afar effect) turns) := by
  obtain ⟨stages, hinv, hst⟩ := Pool.run_induction
    (I := fun p => ∃ stages, Inv keys ttl p.state stages ∧ Staged inner load ttl keys p stages)
    (fun p t x p' hp hm => inv_moved hp hm) turns
    ⟨_, inv_callers r, fun i => (congrArg some (call_eq inner load ttl i (keys i)) :)⟩
  exact orderly_of_inv hinv hst

end Callers

end LayeredCache.Sky
