import LayeredCache.Proofs.Sky

/-!
# The log of callers

What the log says of the loads of a flight, and which marks may be added to it without changing
that. The log is newest first: the tail of a mark is its past.

Results:
* `lastLoad_append`, `verdict_append`: a calm addition keeps the last load of a flight and its
  verdict.
* `lastLoad_unique`: a flight has one last load.
* `mem_news_part`, `news_join`: what is marked when a caller gives up its place or joins.
-/

namespace LayeredCache.Sky

variable {ι ρ : Type}

/-- Every mark of the log fits its past. -/
def Throughout (P : Mark ι → List (Mark ι) → Prop) : List (Mark ι) → Prop
  | [] => True
  | e :: past => P e past ∧ Throughout P past

theorem throughout_append {P : Mark ι → List (Mark ι) → Prop} {added log : List (Mark ι)}
    (ha : ∀ e ∈ added, ∀ past, P e past) (h : Throughout P log) : Throughout P (added ++ log) := by
  induction added with
  | nil => exact h
  | cons e added ih =>
    refine ⟨ha e List.mem_cons_self _, ih fun e' he' => ha e' (List.mem_cons_of_mem e he')⟩

theorem throughout_mono {P Q : Mark ι → List (Mark ι) → Prop} {log : List (Mark ι)}
    (hPQ : ∀ e past, P e past → Q e past) (h : Throughout P log) : Throughout Q log := by
  induction log with
  | nil => trivial
  | cons e past ih => exact ⟨hPQ _ _ h.1, ih h.2⟩

theorem throughout_older {P : Mark ι → List (Mark ι) → Prop} {newer older : List (Mark ι)}
    (h : Throughout P (newer ++ older)) : Throughout P older := by
  induction newer with
  | nil => exact h
  | cons e newer ih => exact ih h.2

/-! ## The last load of a flight -/

/-- The newest load that a member of a flight began. -/
def LastLoad (log : List (Mark ι)) (flight : Nat) (j : ι) : Prop :=
  ∃ newer older, log = newer ++ .began j :: older ∧ .joined j flight ∈ older ∧
    ∀ i, .began i ∈ newer → .joined i flight ∉ log

/-- What a load comes to. -/
def loaded (key : String) : Except Cause Value → Answer Value
  | .ok v => .ok v
  | .error c => .error (.loadFailed key c)

/-- A value that was loaded has been offered; a load that failed offers nothing. -/
def Kept (log : List (Mark ι)) (ttl : Duration) (j : ι) (key : String) : Except Cause Value → Prop
  | .ok v => .offered j key v ttl ∈ log
  | .error _ => ∀ k v d, .offered j k v d ∉ log

/-- The last load of a flight has ended, it came to this, and it was kept. -/
def Verdict (keys : ι → String) (ttl : Duration) (log : List (Mark ι)) (flight : Nat)
    (o : Answer Value) : Prop :=
  ∃ j r, LastLoad log flight j ∧ .ended j r ∈ log ∧ o = loaded (keys j) r ∧
    Kept log ttl j (keys j) r

/-- No caller's load ended twice. -/
def EndedOnce (log : List (Mark ι)) : Prop :=
  ∀ i r r', .ended i r ∈ log → .ended i r' ∈ log → r' = r

/-- What may be added to the log without a word on the loads of a flight. -/
def Calm (added log : List (Mark ι)) (flight : Nat) : Prop :=
  ∀ e ∈ added, match e with
    | .began i => .joined i flight ∉ added ++ log
    | .joined i _ => .began i ∉ log
    | .offered i _ _ _ => ∃ v, .ended i (.ok v) ∈ log
    | _ => True

variable {added log : List (Mark ι)} {flight : Nat}

theorem lastLoad_append {j : ι} (hc : Calm added log flight) (h : LastLoad log flight j) :
    LastLoad (added ++ log) flight j := by
  obtain ⟨newer, older, rfl, hj, hn⟩ := h
  refine ⟨added ++ newer, older, (List.append_assoc ..).symm, hj, fun i hi => ?_⟩
  rcases List.mem_append.mp hi with hi | hi
  · exact hc _ hi
  · intro hm
    rcases List.mem_append.mp hm with hm | hm
    · exact hc _ hm (List.mem_append_left _ hi)
    · exact hn i hi hm

theorem kept_append {ttl : Duration} {j : ι} {key : String} {r : Except Cause Value}
    (hc : Calm added log flight) (ho : EndedOnce log) (he : .ended j r ∈ log)
    (h : Kept log ttl j key r) : Kept (added ++ log) ttl j key r := by
  cases r with
  | ok v => exact List.mem_append_right _ h
  | error c =>
    intro k v d hm
    rcases List.mem_append.mp hm with hm | hm
    · obtain ⟨v', hv⟩ := hc _ hm
      exact absurd (ho j _ _ he hv) (by simp)
    · exact h k v d hm

theorem verdict_append {keys : ι → String} {ttl : Duration} {o : Answer Value}
    (hc : Calm added log flight) (ho : EndedOnce log) (h : Verdict keys ttl log flight o) :
    Verdict keys ttl (added ++ log) flight o := by
  obtain ⟨j, r, hl, he, rfl, hk⟩ := h
  exact ⟨j, r, lastLoad_append hc hl, List.mem_append_right _ he, rfl, kept_append hc ho he hk⟩

/-- A load that begins is the last one of its flight. -/
theorem lastLoad_began {j : ι} (h : .joined j flight ∈ log) :
    LastLoad (.began j :: log) flight j :=
  ⟨[], log, rfl, h, fun _ hi => absurd hi List.not_mem_nil⟩

theorem lastLoad_unique {i j : ι} (hi : LastLoad log flight i) (hj : LastLoad log flight j) :
    i = j := by
  obtain ⟨a, b, hab, hi, hna⟩ := hi
  obtain ⟨c, d, hcd, hj, hnc⟩ := hj
  have hil : .joined i flight ∈ log := by
    rw [hab]
    exact List.mem_append_right _ (List.mem_cons_of_mem _ hi)
  have hjl : .joined j flight ∈ log := by
    rw [hcd]
    exact List.mem_append_right _ (List.mem_cons_of_mem _ hj)
  -- Neither of the two lies before the other, for both are newest.
  rcases List.append_eq_append_iff.mp (hab.symm.trans hcd) with ⟨m, rfl, hm⟩ | ⟨m, rfl, hm⟩
  · cases m with
    | nil =>
      obtain ⟨he, -⟩ := List.cons.inj hm
      exact Mark.began.inj he
    | cons e m =>
      obtain ⟨rfl, -⟩ := List.cons.inj hm
      exact absurd hil (hnc i (List.mem_append_right _ List.mem_cons_self))
  · cases m with
    | nil =>
      obtain ⟨he, -⟩ := List.cons.inj hm
      exact (Mark.began.inj he).symm
    | cons e m =>
      obtain ⟨rfl, -⟩ := List.cons.inj hm
      exact absurd hjl (hna j (List.mem_append_right _ List.mem_cons_self))

/-- The load of a flight that comes to something comes to one thing. -/
theorem verdict_unique {keys : ι → String} {ttl : Duration} {o o' : Answer Value}
    (he : EndedOnce log) (h : Verdict keys ttl log flight o) (h' : Verdict keys ttl log flight o') :
    o' = o := by
  obtain ⟨j, r, hl, hr, rfl, -⟩ := h
  obtain ⟨j', r', hl', hr', rfl, -⟩ := h'
  obtain rfl := lastLoad_unique hl hl'
  rw [he j r r' hr hr']

/-! ## What is marked of flights -/

theorem retirements_eq_nil {old new : Flights} (h : ∀ f ∈ old.flights, f.listed = true →
    ∃ g ∈ new.flights, g.listed = true ∧ g.number = f.number) :
    retirements (ι := ι) old new = [] := by
  refine List.map_eq_nil_iff.mpr (List.filter_eq_nil_iff.mpr fun f hf hp => ?_)
  rw [Bool.and_eq_true, Bool.not_eq_true', List.any_eq_false] at hp
  obtain ⟨g, hg, hl, hn⟩ := h f hf hp.1
  exact hp.2 g hg (by simp [hl, hn])

theorem mem_retirements {old new : Flights} {e : Mark ι} (h : e ∈ retirements old new) :
    ∃ f ∈ old.flights, f.listed = true ∧ e = .retired f.number f.key ∧
      ∀ g ∈ new.flights, g.listed = true → g.number ≠ f.number := by
  obtain ⟨f, hf, rfl⟩ := List.mem_map.mp h
  obtain ⟨hf, hp⟩ := List.mem_filter.mp hf
  rw [Bool.and_eq_true, Bool.not_eq_true', List.any_eq_false] at hp
  refine ⟨f, hf, hp.1, rfl, fun g hg hl hn => hp.2 g hg ?_⟩
  simp [hl, hn]

/-- Nothing is marked of a change by which nobody comes or goes. -/
theorem news_eq_nil {i : ι} {out : Flight → Option (Answer Value)}
    {old new : Flights} (h : Flights.Moves none out old new) (hn : new.next = old.next) :
    news i old new = [] := by
  rw [news, hn, if_neg (Nat.lt_irrefl _), retirements_eq_nil (h.stays rfl)]
  rfl

theorem mem_news_part {i : ι} {fs : Flights} {me : Nat} {e : Mark ι}
    (h : e ∈ news i fs (fs.part me)) : ∃ f ∈ fs.flights, f.listed = true ∧
      e = .retired f.number f.key ∧
      ∀ g ∈ (fs.part me).flights, g.listed = true → g.number ≠ f.number := by
  have hn : (fs.part me).next = fs.next := rfl
  rw [news, hn, if_neg (Nat.lt_irrefl _), List.nil_append] at h
  exact mem_retirements h

theorem news_join {i : ι} {fs : Flights} (hs : fs.Sound) {key : String} {f : Flight}
    (hf : f ∈ (fs.join key).2.flights) (hm : fs.next ∈ f.members) :
    news i fs (fs.join key).2 = [.joined i f.number] := by
  have hn : (fs.join key).2.next = fs.next + 1 := Flights.next_enlist ..
  rw [news, hn, if_pos (Nat.lt_succ_self _),
    Flights.find?_eq_some (Flights.sound_join hs key) hf hm,
    retirements_eq_nil ((Flights.moves_join fs key).stays rfl)]
  rfl

end LayeredCache.Sky
